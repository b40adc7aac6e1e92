/-
# Scalars without quotes that are read again

A text that may stand without quotes is taken in as a whole, blanks inside it included. Behind
a key the scalar ends at the colon. Behind a colon it takes in the end of its line as well, and
ends in front of what is not indented further than the block around it.
-/

import Mathlib.Tactic.SplitIfs
import PlanNetwork.Wire.Yaml.Token
import PlanNetwork.Wire.Yaml.Writer

namespace PlanNetwork

namespace Yaml

variable {cs rest said : List Char} {least line column : Nat}

/-! ## Gaps -/

/-- A text at which a token may begin, or which is at its end. -/
def Begins (cs : List Char) : Prop :=
  ∀ c ∈ cs.head?, isBreak c = false ∧ c ∉ [' ', '\t', '#', '\ufeff']

theorem Begins.isBlank {c : Char} (begins : Begins (c :: cs)) : isBlank c = false := by
  have others := (begins c rfl).2
  simp only [List.mem_cons, not_or] at others
  simp [Yaml.isBlank, others]

/-! ## The text of a scalar -/

theorem hasInnerMark_of_gap (afterGap : Bool) (clean : hasInnerMark true cs = false) :
    hasInnerMark afterGap cs = false := by
  cases cs with
  | nil => rfl
  | cons c cs =>
    cases afterGap with
    | true => exact clean
    | false => simp_all [hasInnerMark]

theorem mem_getLast?_cons {c d : Char} (last : d ∈ cs.getLast?) : d ∈ (c :: cs).getLast? := by
  cases cs with
  | nil => cases last
  | cons e cs => simpa using last

/-- A character that is no blank and does not end the scalar belongs to its text. -/
theorem scanPlain_word {c : Char} {gap : List Char} (word : isBlank c = false)
    (unbroken : isBreak c = false) (colon : (c == ':' && endsWord rest) = false)
    (hash : gap ≠ [] → c ≠ '#' ∧ least ≤ column ∧ 0 < column) :
    scanPlain false least said (.blanks gap) line column (c :: rest) =
      scanPlain false least (c :: (gap ++ said)) Gap.none line (column + 1) rest := by
  have goesOn : (!(Gap.blanks gap).isNone && (c == '#' || isSeparator column (c :: rest) ||
      !false && decide (column < least))) = false := by
    cases gap with
    | nil => rfl
    | cons d gap =>
      obtain ⟨other, inside, positive⟩ := hash nofun
      have separator : isSeparator column (c :: rest) = false := by
        unfold isSeparator
        split <;> simp [Nat.ne_of_gt positive]
      simp [other, separator, inside]
  rw [scanPlain]
  simp only [unbroken, word, goesOn, colon, Bool.false_and, Bool.or_false, Bool.false_eq_true,
    if_false]
  rfl

/-- What has been read of a scalar behind a text without marks: the text up to its last word,
and the blanks behind that, both back to front. -/
theorem scanPlain_append {gap : List Char} (inner : hasInnerMark (!gap.isEmpty) cs = false)
    (unbroken : ∀ c ∈ cs, isBreak c = false) (inside : gap ≠ [] → least ≤ column ∧ 0 < column)
    (near : least ≤ column + 1) :
    ∃ said' gap', scanPlain false least said (.blanks gap) line column (cs ++ rest) =
        scanPlain false least said' (.blanks gap') line (column + cs.length) rest ∧
      gap' ++ said' = cs.reverse ++ gap ++ said ∧
      ((∀ c ∈ cs.getLast?, isBlank c = false) → (cs = [] → gap = []) → gap' = []) := by
  induction cs generalizing said gap column with
  | nil => exact ⟨said, gap, rfl, rfl, fun _ none => none rfl⟩
  | cons c cs ih =>
    have here := unbroken c (List.mem_cons_self ..)
    have there : ∀ c ∈ cs, isBreak c = false := fun c member =>
      unbroken c (List.mem_cons_of_mem _ member)
    simp only [hasInnerMark, Bool.or_eq_false_iff] at inner
    obtain ⟨⟨colon, hash⟩, inner⟩ := inner
    rw [here, Bool.or_false] at inner
    cases blank : isBlank c with
    | true =>
      rw [blank] at inner
      obtain ⟨said', gap', read, text, last⟩ := @ih said (column + 1) (c :: gap) inner there
        (fun _ => ⟨near, by omega⟩) (by omega)
      refine ⟨said', gap', ?_, by simp [text], fun word _ => last ?_ ?_⟩
      · rw [List.cons_append, scanPlain]
        simp only [here, blank, Gap.isBroken, Gap.push, Bool.false_and, Bool.false_eq_true,
          if_false, if_true, read, List.length_cons]
        rw [Nat.add_assoc, Nat.add_comm 1]
      · exact fun d last => word d (mem_getLast?_cons last)
      · rintro rfl
        rw [word c rfl] at blank
        cases blank
    | false =>
      rw [blank] at inner
      have stays : (c == ':' && endsWord (cs ++ rest)) = false := by
        cases cs with
        | nil =>
          have other : (c == ':') = false := by simpa [endsWord] using colon
          rw [other, Bool.false_and]
        | cons d ds => exact colon
      obtain ⟨said', gap', read, text, last⟩ := @ih (c :: (gap ++ said)) (column + 1) [] inner there
        (fun none => absurd rfl none) (by omega)
      have goesOn : gap ≠ [] → c ≠ '#' ∧ least ≤ column ∧ 0 < column := by
        intro some
        refine ⟨?_, inside some⟩
        rintro rfl
        simp [some] at hash
      refine ⟨said', gap', ?_, by simp [text], fun word _ => last ?_ fun _ => rfl⟩
      · rw [List.cons_append, scanPlain_word blank here stays goesOn, List.length_cons,
          Nat.add_comm cs.length, ← Nat.add_assoc]
        exact read
      · exact fun d last => word d (mem_getLast?_cons last)

/-- A text that may stand without quotes, as it is. -/
structure IsPlain (cs : List Char) : Prop where
  /-- It is one scalar. -/
  whole : isPlainText cs = true
  /-- Its characters stand for themselves. -/
  printable : ∀ c ∈ cs, isPrintable c = true

/-- What a text without quotes is like. -/
theorem IsPlain.parts (plain : IsPlain cs) :
    startsPlain false cs = true ∧ hasInnerMark true cs = false ∧
      (∀ c ∈ cs, isBreak c = false) ∧ beginsWithMark cs = false ∧
        ∀ c ∈ cs.getLast?, isBlank c = false := by
  have whole := plain.whole
  simp only [isPlainText, Bool.and_eq_true, Bool.not_eq_true', List.any_eq_false,
    Bool.not_eq_true] at whole
  obtain ⟨⟨⟨⟨⟨starts, inner⟩, unbroken⟩, mark⟩, _⟩, last⟩ := whole
  refine ⟨starts, inner, unbroken, mark, fun c here => ?_⟩
  rw [Option.mem_def.mp here] at last
  simpa using last

theorem IsPlain.exists_cons (plain : IsPlain cs) :
    ∃ c ds, cs = c :: ds ∧ ∀ rest, Begins (c :: rest) := by
  obtain ⟨starts, _, unbroken, _, _⟩ := plain.parts
  cases cs with
  | nil => cases starts
  | cons c cs =>
    have member : c ∈ c :: cs := List.mem_cons_self ..
    have printable := plain.printable c member
    refine ⟨c, cs, rfl, ?_⟩
    rintro rest _ ⟨⟩
    refine ⟨unbroken c member, fun other => ?_⟩
    simp only [List.mem_cons, List.not_mem_nil, or_false] at other
    rcases other with rfl | rfl | rfl | rfl
    · cases starts
    · exact absurd printable (by decide)
    · cases starts
    · exact absurd printable (by decide)

theorem startsPlain_append (starts : startsPlain false cs = true) :
    startsPlain false (cs ++ rest) = true := by
  cases cs with
  | nil => cases starts
  | cons c cs =>
    cases cs with
    | cons d cs => exact starts
    | nil =>
      -- by itself no sign is a word
      simp only [startsPlain] at starts
      split_ifs at starts with dash colon
      · cases starts
      · cases starts
      · rw [List.singleton_append, startsPlain, if_neg dash, if_neg colon]
        exact starts

theorem isSeparator_append (unmarked : beginsWithMark cs = false)
    (behind : ∀ c ∈ rest.head?, c ≠ '-' ∧ c ≠ '.') : isSeparator column (cs ++ rest) = false := by
  -- a mark is not completed by what stands behind the text
  have whole {d : Char} {ds : List Char} (mark : d = '-' ∨ d = '.')
      (same : cs ++ rest = d :: d :: d :: ds) : ∃ es, cs = d :: d :: d :: es := by
    have clash (ds : List Char) : rest ≠ d :: ds := by
      rintro rfl
      rcases mark with rfl | rfl
      · exact (behind '-' rfl).1 rfl
      · exact (behind '.' rfl).2 rfl
    match cs with
    | [] => exact absurd same (clash _)
    | [_] => exact absurd (List.cons.inj same).2 (clash _)
    | [_, _] => exact absurd (List.cons.inj (List.cons.inj same).2).2 (clash _)
    | _ :: _ :: _ :: es =>
      simp only [List.cons_append, List.cons.injEq] at same
      obtain ⟨rfl, rfl, rfl, _⟩ := same
      exact ⟨es, rfl⟩
  unfold isSeparator
  split
  next same =>
    obtain ⟨es, rfl⟩ := whole (.inl rfl) same
    cases unmarked
  next same =>
    obtain ⟨es, rfl⟩ := whole (.inr rfl) same
    cases unmarked
  next => rfl

/-- A text without quotes is read as a whole. -/
theorem scanPlain_text (plain : IsPlain cs) (near : least ≤ column + 1) :
    scanPlain false least [] Gap.none line column (cs ++ rest) =
      scanPlain false least cs.reverse Gap.none line (column + cs.length) rest := by
  obtain ⟨_, inner, unbroken, _, word⟩ := plain.parts
  obtain ⟨said, gap, read, text, last⟩ := @scanPlain_append cs rest [] least line column []
    (hasInnerMark_of_gap _ inner) unbroken (fun some => absurd rfl some) near
  obtain rfl := last word fun _ => rfl
  obtain rfl : said = cs.reverse := by simpa using text
  exact read

/-- It ends at the colon behind a key. -/
theorem scanPlain_colon (ends : endsWord rest = true) :
    scanPlain false least said Gap.none line column (':' :: rest) =
      some ⟨said.reverse, ⟨line, column, ':' :: rest⟩, false⟩ := by
  simp [scanPlain, isBreak, isBlank, ends]
  rfl

theorem scanPlain_spaces {j : Nat} {first : Option Char} {others : List Char} :
    scanPlain false least said (.breaks first others) line column (spaces j ++ rest) =
      scanPlain false least said (.breaks first others) line (column + j) rest := by
  induction j generalizing column with
  | zero => rfl
  | succ j ih =>
    have step : scanPlain false least said (.breaks first others) line column
        (spaces (j + 1) ++ rest) =
      scanPlain false least said (.breaks first others) line (column + 1) (spaces j ++ rest) := rfl
    rw [step, ih, Nat.add_assoc, Nat.add_comm 1]

/-- It takes in the end of its line, and ends where the next line begins, if that is not
indented enough. -/
theorem scanPlain_line {j : Nat} (begins : Begins rest) (outside : j < least) :
    scanPlain false least said Gap.none line column ('\n' :: (spaces j ++ rest)) =
      some ⟨said.reverse, ⟨line + 1, j, rest⟩, true⟩ := by
  have turn : scanPlain false least said Gap.none line column ('\n' :: (spaces j ++ rest)) =
    scanPlain false least said (.breaks (some '\n') []) (line + 1) 0 (spaces j ++ rest) := rfl
  rw [turn, scanPlain_spaces, Nat.zero_add]
  cases rest with
  | nil => rfl
  | cons c rest =>
    have unbroken := (begins c rfl).1
    have word := begins.isBlank
    rw [scanPlain]
    simp [unbroken, word, Gap.isNone, Gap.isBroken, outside]

end Yaml

end PlanNetwork
