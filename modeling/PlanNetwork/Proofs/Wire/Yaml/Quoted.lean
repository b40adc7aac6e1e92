/-
# Scalars in quotes that are read again

What does not do without quotes stands in single ones as long as each of its characters can be
written as it is. Then only quotes are written twice, and what separates lines or paragraphs is
followed by an indentation that is passed over when the text is read. Nothing else is lost as long
as no blank stands beside such a separator, which is when a text is not put in single quotes.

In double quotes every character can be written, those that cannot stand by themselves by their
numbers. So every text that is not written in lines of its own comes back as it was.
-/

import Mathlib.Data.Nat.Digits.Defs
import PlanNetwork.Proofs.Wire.Yaml.Records

namespace PlanNetwork

namespace Yaml

open Lexer

variable {cs rest said : List Char} {line column indent : Nat}

/-! ## Single quotes -/

theorem hasPair_cons {p q : Char → Bool} {c : Char} :
    hasPair p q (c :: cs) = false ↔
      (p c = true → ∀ d ∈ cs.head?, q d = false) ∧ hasPair p q cs = false := by
  cases cs with
  | nil => simp [hasPair]
  | cons d cs => cases hp : p c <;> simp [hasPair, hp]

/-- What is written for a character inside single quotes. -/
def quotedTwice (c : Char) : List Char := if c == '\x27' then [c, c] else [c]

namespace Gap

variable {gap : Gap} {c : Char}

/-- Nothing is folded in the gap. -/
def Keeps : Gap → Prop
  | .blanks _ => True
  | .breaks first _ => ∃ c, first = some c ∧ c ≠ '\n'

/-- A character can stand behind the gap: a blank at the end of a line would be lost, and so would
one at the beginning of the next line. -/
def Takes : Gap → Char → Prop
  | .blanks text, c => text = [] ∨ isBreak c = false
  | .breaks _ _, c => c ≠ ' '

theorem onto_none (said : List Char) : Gap.none.onto said = said := rfl

theorem onto_breaks {others : List Char} (apart : c ≠ '\n') (said : List Char) :
    (breaks (some c) others).onto said = others ++ c :: said := by
  unfold onto
  split <;> simp_all

theorem takes_of_word (c : Char) : Gap.none.Takes c := .inl rfl

/-- A separator of lines or paragraphs is kept behind what the gap holds. -/
theorem Keeps.push (keeps : gap.Keeps) (takes : gap.Takes c) (other : c ≠ '\n')
    (broken : isBreak c = true) :
    (gap.push c).Keeps ∧ (gap.push c).isBroken = true ∧
      ∀ said, (gap.push c).onto said = c :: gap.onto said := by
  cases gap with
  | blanks text =>
    obtain rfl : text = [] := takes.resolve_right (by simp [broken])
    simp only [Gap.push, broken, if_true]
    exact ⟨⟨c, rfl, other⟩, rfl, fun said => onto_breaks other said⟩
  | breaks first others =>
    obtain ⟨d, rfl, apart⟩ := keeps
    simp only [Gap.push, broken, if_true]
    refine ⟨⟨d, rfl, apart⟩, rfl, fun said => ?_⟩
    rw [onto_breaks apart, onto_breaks apart, List.cons_append]

end Gap

/-- A text of one paragraph that single quotes keep. -/
structure IsSingle (cs : List Char) : Prop where
  /-- Its characters stand for themselves. -/
  printable : ∀ c ∈ cs, isPrintable c = true
  /-- It has no breaks that are counted. -/
  unbroken : '\n' ∉ cs
  /-- There is no blank at the end of a line. -/
  ends : hasPair (· == ' ') isBreak cs = false
  /-- There is no blank at the beginning of a line. -/
  begins : hasPair isBreak (· == ' ') cs = false

theorem IsSingle.tail {c : Char} (single : IsSingle (c :: cs)) : IsSingle cs :=
  ⟨fun d member => single.printable d (List.mem_cons_of_mem _ member),
    fun member => single.unbroken (List.mem_cons_of_mem _ member),
    (hasPair_cons.mp single.ends).2, (hasPair_cons.mp single.begins).2⟩

/-- What stands behind a blank is on the same line. -/
theorem IsSingle.takes_of_blank (single : IsSingle (' ' :: cs)) (text : List Char) :
    ∀ d ∈ cs.head?, (Gap.blanks text).Takes d := fun d first =>
  .inr ((hasPair_cons.mp single.ends).1 rfl d first)

/-- What stands behind a break is no blank. -/
theorem IsSingle.takes_of_break {c : Char} {gap : Gap} (single : IsSingle (c :: cs))
    (kind : isBreak c = true) (broken : gap.isBroken = true) : ∀ d ∈ cs.head?, gap.Takes d := by
  intro d first
  have next := (hasPair_cons.mp single.begins).1 kind d first
  cases gap with
  | blanks => cases broken
  | breaks => exact beq_eq_false_iff_ne.mp next

theorem eq_space_of_isBlank {c : Char} (printable : isPrintable c = true)
    (blank : isBlank c = true) : c = ' ' := by
  rcases Bool.or_eq_true_iff.mp blank with space | tab
  · exact beq_iff_eq.mp space
  · rw [beq_iff_eq.mp tab] at printable
    cases printable

theorem scanSingle_break {c : Char} {gap : Gap} (broken : isBreak c = true) :
    scanSingle said gap line column (c :: rest) =
      scanSingle said (gap.push c) (line + 1) 0 rest := by
  rw [scanSingle.eq_def]
  simp only [broken, if_true]

theorem scanSingle_blank {c : Char} {gap : Gap} (unbroken : isBreak c = false)
    (blank : isBlank c = true) :
    scanSingle said gap line column (c :: rest) =
      scanSingle said (gap.push c) line (column + 1) rest := by
  rw [scanSingle.eq_def]
  simp only [unbroken, blank, Bool.false_eq_true, if_false, if_true]

theorem scanSingle_spaces {j : Nat} {first : Option Char} {others : List Char} :
    scanSingle said (.breaks first others) line column (spaces j ++ rest) =
      scanSingle said (.breaks first others) line (column + j) rest := by
  induction j generalizing column with
  | zero => rfl
  | succ j ih =>
    have step : scanSingle said (.breaks first others) line column (spaces (j + 1) ++ rest) =
        scanSingle said (.breaks first others) line (column + 1) (spaces j ++ rest) :=
      scanSingle_blank rfl rfl
    rw [step, ih, Nat.add_assoc, Nat.add_comm 1]

/-- The indentation of a line is passed over. -/
theorem scanSingle_indentation {gap : Gap} (inside : gap.isBroken = false → 0 < column)
    (indented : 0 < indent) :
    ∃ column', 0 < column' ∧ ∀ rest,
      scanSingle said gap line column ((if gap.isBroken then spaces indent else []) ++ rest) =
        scanSingle said gap line column' rest := by
  cases gap with
  | blanks => exact ⟨column, inside rfl, fun _ => rfl⟩
  | breaks => exact ⟨column + indent, by omega, fun _ => scanSingle_spaces⟩

/-- A character that separates no words belongs to the text. -/
theorem scanSingle_word {c : Char} {gap : Gap} (unbroken : isBreak c = false)
    (word : isBlank c = false) (inside : 0 < column) :
    ∃ column', 0 < column' ∧ ∀ rest, scanSingle said gap line column (quotedTwice c ++ rest) =
      scanSingle (c :: gap.onto said) Gap.none line column' rest := by
  by_cases quote : c = '\x27'
  · subst quote
    refine ⟨column + 2, by omega, fun rest => ?_⟩
    show scanSingle said gap line column ('\x27' :: '\x27' :: rest) = _
    rw [scanSingle.eq_def]
    rfl
  · refine ⟨column + 1, by omega, fun rest => ?_⟩
    have separator : isSeparator column (c :: rest) = false := by
      unfold isSeparator
      split <;> simp [Nat.ne_of_gt inside]
    rw [quotedTwice, if_neg (by simpa using quote), List.singleton_append, scanSingle.eq_def]
    simp only [unbroken, word, separator, quote, beq_iff_eq, Bool.false_eq_true, if_false]

/-- A place in a text in single quotes, in front of its part `cs`. -/
structure InSingle (gap : Gap) (column : Nat) (cs : List Char) : Prop where
  /-- Nothing is folded. -/
  keeps : gap.Keeps
  /-- The gap takes what stands behind it. -/
  takes : ∀ c ∈ cs.head?, gap.Takes c
  /-- What stands in front of the text is on the same line. -/
  inside : gap.isBroken = false → 0 < column

/-- What is written for a character in single quotes, with the indentation in front of it. -/
def singleLines (indent : Nat) (afterBreak : Bool) (c : Char) : List Char :=
  if isBreak c then [c] else (if afterBreak then spaces indent else []) ++ quotedTwice c

theorem indented_cons (afterBreak : Bool) (c : Char) (cs : List Char) :
    indented indent quotedTwice afterBreak (c :: cs) =
      singleLines indent afterBreak c ++ indented indent quotedTwice (isBreak c) cs := by
  rw [indented, singleLines]
  cases isBreak c <;> rfl

/-- A character is read, and what it leaves is a gap if it separates words. -/
theorem scanSingle_step {c : Char} {gap : Gap} (single : IsSingle (c :: cs))
    (here : InSingle gap column (c :: cs)) (indentation : 0 < indent) :
    ∃ said' gap' line' column', InSingle gap' column' cs ∧ gap'.isBroken = isBreak c ∧
      gap'.onto said' = c :: gap.onto said ∧
      ∀ rest, scanSingle said gap line column (singleLines indent gap.isBroken c ++ rest) =
        scanSingle said' gap' line' column' rest := by
  obtain ⟨keeps, takes, inside⟩ := here
  have takes := takes c rfl
  have other : c ≠ '\n' := by
    rintro rfl
    exact single.unbroken (List.mem_cons_self ..)
  unfold singleLines
  cases kind : isBreak c with
  | true =>
    obtain ⟨keeps, broken, onto⟩ := keeps.push takes other kind
    refine ⟨said, gap.push c, line + 1, 0, ⟨keeps, single.takes_of_break kind broken, ?_⟩, broken,
      onto said, fun rest => scanSingle_break kind⟩
    rw [broken]
    nofun
  | false =>
    simp only [Bool.false_eq_true, if_false, List.append_assoc]
    obtain ⟨column', positive, indents⟩ := scanSingle_indentation inside indentation
    by_cases space : c = ' '
    · subst space
      obtain ⟨blanks, rfl⟩ : ∃ blanks, gap = .blanks blanks := by
        cases gap with
        | blanks text => exact ⟨text, rfl⟩
        | breaks => exact absurd rfl takes
      exact ⟨said, .blanks (' ' :: blanks), line, column' + 1,
        ⟨trivial, single.takes_of_blank _, fun _ => Nat.succ_pos column'⟩, rfl, rfl,
        fun rest => (indents _).trans (scanSingle_blank rfl rfl)⟩
    · have word : isBlank c = false := Bool.eq_false_iff.mpr fun blank =>
        space (eq_space_of_isBlank (single.printable c (List.mem_cons_self ..)) blank)
      obtain ⟨column'', positive, reads⟩ := scanSingle_word kind word positive
      exact ⟨c :: gap.onto said, Gap.none, line, column'',
        ⟨trivial, fun d _ => Gap.takes_of_word d, fun _ => positive⟩, rfl, rfl,
        fun rest => (indents _).trans (reads rest)⟩

/-- A text is read up to what stands behind it. -/
theorem scanSingle_append {gap : Gap} (single : IsSingle cs) (here : InSingle gap column cs)
    (indentation : 0 < indent) :
    ∃ said' gap' line' column', gap'.isBroken = (cs.getLast?.map isBreak).getD gap.isBroken ∧
      gap'.onto said' = cs.reverse ++ gap.onto said ∧
      ∀ rest, scanSingle said gap line column
          (indented indent quotedTwice gap.isBroken cs ++ rest) =
        scanSingle said' gap' line' column' rest := by
  induction cs generalizing said gap line column with
  | nil => exact ⟨said, gap, line, column, rfl, rfl, fun _ => rfl⟩
  | cons c cs ih =>
    obtain ⟨said₁, gap₁, line₁, column₁, there, broken, onto, reads⟩ :=
      @scanSingle_step cs said line column indent c gap single here indentation
    obtain ⟨said', gap', line', column', last, onto', reads'⟩ :=
      @ih said₁ line₁ column₁ gap₁ single.tail there
    refine ⟨said', gap', line', column', ?_, by simp [onto, onto'], fun rest => ?_⟩
    · rw [last, broken]
      cases cs with
      | nil => rfl
      | cons d cs => rw [List.getLast?_cons_cons, List.getLast?_cons]; rfl
    · rw [indented_cons, List.append_assoc, reads, ← broken]
      exact reads' rest

/-- What stands behind the opening quote is read up to the closing one. -/
theorem scanSingle_text (single : IsSingle cs) (indentation : 0 < indent) :
    ∃ body, singleText indent cs = '\x27' :: body ∧ ∀ rest line {column}, 0 < column →
      ∃ line' column', scanSingle [] Gap.none line column (body ++ '\n' :: rest) =
        some (cs, ⟨line', column', '\n' :: rest⟩) := by
  refine ⟨indented indent quotedTwice false cs ++
    (if cs.getLast?.any isBreak then spaces indent else []) ++ ['\x27'], rfl,
    fun rest line column inside => ?_⟩
  obtain ⟨said, gap, line', column', last, onto, reads⟩ :=
    @scanSingle_append cs [] line column indent Gap.none single
      ⟨trivial, fun c _ => Gap.takes_of_word c, fun _ => inside⟩ indentation
  have broken : gap.isBroken = cs.getLast?.any isBreak := by
    rw [last]
    cases cs.getLast? <;> rfl
  have ending {line column : Nat} : scanSingle said gap line column ('\x27' :: '\n' :: rest) =
      some (cs, ⟨line, column + 1, '\n' :: rest⟩) := by
    have text : (gap.onto said).reverse = cs := by simp [onto, Gap.onto_none]
    rw [scanSingle.eq_def]
    simp [isBreak, isBlank, isSeparator, text]
  obtain ⟨column'', behind⟩ : ∃ column'', scanSingle said gap line' column'
      ((if gap.isBroken then spaces indent else []) ++ '\x27' :: '\n' :: rest) =
        scanSingle said gap line' column'' ('\x27' :: '\n' :: rest) := by
    cases gap with
    | blanks => exact ⟨column', rfl⟩
    | breaks => exact ⟨_, scanSingle_spaces⟩
  have lines : scanSingle [] Gap.none line column (indented indent quotedTwice false cs ++
      ((if gap.isBroken then spaces indent else []) ++ '\x27' :: '\n' :: rest)) = _ :=
    (reads _).trans (behind.trans ending)
  rw [broken] at lines
  exact ⟨line', column'' + 1, by simpa using lines⟩

/-! ## Double quotes -/

/-- The number of a character, as it is written. -/
def codeDigits (n : Nat) : List Char := (Nat.toDigits 16 n).map Char.toUpper

theorem forall_mem_codeDigits {p : Char → Prop} (digits : ∀ d < 16, p d.digitChar.toUpper)
    (n : Nat) : ∀ c ∈ codeDigits n, p c := by
  induction n using Nat.strong_induction_on with
  | _ n ih =>
    rw [codeDigits, Nat.toDigits_eq_if (by decide)]
    split
    next small =>
      intro c member
      obtain rfl := List.mem_singleton.mp member
      exact digits n small
    next large =>
      intro c member
      rw [List.map_append] at member
      rcases List.mem_append.mp member with front | last
      · exact ih (n / 16) (by omega) c front
      · obtain rfl := List.mem_singleton.mp last
        exact digits _ (Nat.mod_lt _ (by decide))

/-- The value of digits behind others. -/
def codeValue? (value : Nat) (digits : List Char) : Option Nat :=
  digits.foldlM (fun n c => (Scalar.digit? 16 c).map (16 * n + ·)) value

theorem codeValue?_digits (n : Nat) : codeValue? 0 (codeDigits n) = some n := by
  have digit : ∀ d < 16, Scalar.digit? 16 d.digitChar.toUpper = some d := by decide
  induction n using Nat.strong_induction_on with
  | _ n ih =>
    rw [codeDigits, Nat.toDigits_eq_if (by decide)]
    split
    next small => simp [codeValue?, digit n small]
    next large =>
      have front : codeValue? 0 (codeDigits (n / 16)) = some (n / 16) := ih (n / 16) (by omega)
      rw [codeValue?, codeDigits] at front
      rw [codeValue?, List.map_append, List.foldlM_append, front]
      have last := digit (n % 16) (Nat.mod_lt _ (by decide))
      simp [last]
      omega

theorem codeValue?_zeros (count : Nat) (ds : List Char) :
    codeValue? 0 (List.replicate count '0' ++ ds) = codeValue? 0 ds := by
  induction count with
  | zero => rfl
  | succ count ih => exact ih

/-- The number of a character is read, digit by digit. -/
theorem scanDouble_digits {ds : List Char} {value n : Nat} {gap : Gap} (some : ds ≠ [])
    (reads : codeValue? value ds = .some n) (valid : n.isValidChar) :
    scanDouble (.digits ds.length value) said gap line column (ds ++ rest) =
      scanDouble .anything (Char.ofNat n :: said) Gap.none line (column + ds.length) rest := by
  induction ds generalizing value gap column with
  | nil => exact absurd rfl some
  | cons d ds ih =>
    rw [codeValue?, List.foldlM_cons] at reads
    obtain ⟨next, first, others⟩ := Option.bind_eq_some_iff.mp reads
    obtain ⟨digit, here, rfl⟩ := Option.map_eq_some_iff.mp first
    rw [List.cons_append, scanDouble, here]
    cases ds with
    | nil =>
      obtain rfl : 16 * value + digit = n := Option.some.inj others
      simp [valid]
    | cons e es =>
      have more : 1 < (d :: e :: es).length := by simp
      have step := @ih (column + 1) _ Gap.none (List.cons_ne_nil e es) others
      simp only [Option.bind_some, if_pos more]
      rw [Nat.add_assoc, Nat.add_comm 1] at step
      exact step

theorem scanDouble_backslash {gap : List Char} :
    scanDouble .anything said (.blanks gap) line column ('\\' :: rest) =
      scanDouble .escape (gap ++ said) Gap.none line (column + 1) rest := by
  rw [scanDouble]
  rfl

theorem scanDouble_letter {gap : List Char} {letter x : Char} (unbroken : isBreak letter = false)
    (short : codeLength? letter = none) (stands : unescape? letter = some x) :
    scanDouble .anything said (.blanks gap) line column ('\\' :: letter :: rest) =
      scanDouble .anything (x :: (gap ++ said)) Gap.none line (column + 2) rest := by
  rw [scanDouble_backslash, scanDouble]
  simp [unbroken, short, stands]

theorem scanDouble_mark {gap : List Char} {mark : Char} {left : Nat}
    (unbroken : isBreak mark = false) (introduces : codeLength? mark = some left) :
    scanDouble .anything said (.blanks gap) line column ('\\' :: mark :: rest) =
      scanDouble (.digits left 0) (gap ++ said) Gap.none line (column + 2) rest := by
  rw [scanDouble_backslash, scanDouble]
  simp [unbroken, introduces]

/-- The number of a character, filled up with zeros, behind the letter that says how many digits
there are. -/
theorem scanDouble_code {gap : List Char} {mark : Char} {width : Nat} {c : Char}
    (unbroken : isBreak mark = false) (introduces : codeLength? mark = some width)
    (fits : (codeDigits c.toNat).length ≤ width) :
    scanDouble .anything said (.blanks gap) line column
        (['\\', mark] ++ List.replicate (width - (codeDigits c.toNat).length) '0' ++
          codeDigits c.toNat ++ rest) =
      scanDouble .anything (c :: (gap ++ said)) Gap.none line (column + (width + 2)) rest := by
  set digits := List.replicate (width - (codeDigits c.toNat).length) '0' ++ codeDigits c.toNat
    with padded
  have length : digits.length = width := by
    rw [padded, List.length_append, List.length_replicate]
    omega
  have some : digits ≠ [] := by
    simp [padded, codeDigits, Nat.toDigits_ne_nil]
  have reads : codeValue? 0 digits = .some c.toNat :=
    (codeValue?_zeros _ _).trans (codeValue?_digits c.toNat)
  have code := @scanDouble_digits rest (gap ++ said) line (column + 2) digits 0 c.toNat Gap.none
    some reads c.valid
  rw [length, Char.ofNat_toNat, Nat.add_assoc, Nat.add_comm 2] at code
  rw [List.append_assoc _ _ (codeDigits c.toNat), ← padded]
  exact (scanDouble_mark unbroken introduces).trans code

/-- A character stands in double quotes for itself. -/
theorem scanDouble_itself {gap : List Char} {c : Char} (unbroken : isBreak c = false)
    (quote : c ≠ '\x22') (backslash : c ≠ '\\') (inside : 0 < column) :
    ∃ said' gap', gap' ++ said' = c :: (gap ++ said) ∧ ∀ rest,
      scanDouble .anything said (.blanks gap) line column (c :: rest) =
        scanDouble .anything said' (.blanks gap') line (column + 1) rest := by
  cases blank : isBlank c with
  | true =>
    refine ⟨said, c :: gap, rfl, fun rest => ?_⟩
    rw [scanDouble]
    simp [unbroken, blank, Gap.push]
  | false =>
    refine ⟨c :: (gap ++ said), [], rfl, fun rest => ?_⟩
    have separator : isSeparator column (c :: rest) = false := by
      unfold isSeparator
      split <;> simp [Nat.ne_of_gt inside]
    rw [scanDouble]
    simp only [unbroken, blank, separator, quote, backslash, beq_iff_eq, Bool.false_eq_true,
      if_false]
    rfl

/-- The characters that letters stand for behind a backslash. -/
def lettered : List Char :=
  ['\x22', '\\', '\x00', '\x07', '\x08', '\t', '\n', '\x0b', '\x0c', '\r', '\x1b', '\u0085',
    '\u2028', '\u2029']

/-- How a character is written in double quotes: by a letter, as it is or by its number. -/
inductive Escapes (c : Char) : List Char → Prop where
  /-- A letter stands for it behind a backslash. -/
  | letter {letter : Char} (unbroken : isBreak letter = false)
      (short : codeLength? letter = none) (stands : unescape? letter = some c)
      (printable : isPrintable letter = true) : Escapes c ['\\', letter]
  /-- It stands for itself. -/
  | itself (printable : isPrintable c = true) (apart : c ∉ lettered) : Escapes c [c]
  /-- Its number stands behind a backslash and a letter that says how many digits there are. -/
  | code {mark : Char} {width : Nat} (unbroken : isBreak mark = false)
      (introduces : codeLength? mark = some width) (printable : isPrintable mark = true)
      (fits : (codeDigits c.toNat).length ≤ width) :
      Escapes c (['\\', mark] ++ List.replicate (width - (codeDigits c.toNat).length) '0' ++
        codeDigits c.toNat)

theorem length_codeDigits_le {n width : Nat} (positive : 0 < width) (small : n < 16 ^ width) :
    (codeDigits n).length ≤ width := by
  rw [codeDigits, List.length_map]
  exact Nat.toDigits_length 16 n width positive small

theorem escapes_escape (c : Char) : Escapes c (escape c) := by
  by_cases named : c ∈ lettered
  · simp only [lettered, List.mem_cons, List.not_mem_nil, or_false] at named
    rcases named with rfl | rfl | rfl | rfl | rfl | rfl | rfl | rfl | rfl | rfl | rfl | rfl | rfl |
      rfl
    all_goals exact .letter rfl rfl rfl rfl
  · have others : ∀ d ∈ lettered, (c == d) = false := fun d member =>
      beq_eq_false_iff_ne.mpr fun same => named (same ▸ member)
    simp only [lettered, List.forall_mem_cons, List.not_mem_nil, false_implies, implies_true,
      and_true] at others
    unfold escape
    cases printable : isPrintable c with
    | true =>
      simp only [others, Bool.false_eq_true, if_false, if_true]
      exact .itself printable named
    | false =>
      have code : c.toNat < 16 ^ 8 := by
        have valid := c.valid
        simp only [UInt32.isValidChar, Nat.isValidChar] at valid
        show c.val.toNat < _
        omega
      simp only [others, Bool.false_eq_true, if_false]
      by_cases one : c.toNat ≤ 0xFF
      · simp only [one, if_true]
        exact .code rfl rfl rfl (length_codeDigits_le (by decide) (Nat.lt_succ_of_le one))
      by_cases two : c.toNat ≤ 0xFFFF
      · simp only [one, two, if_false, if_true]
        exact .code rfl rfl rfl (length_codeDigits_le (by decide) (Nat.lt_succ_of_le two))
      · simp only [one, two, if_false]
        exact .code rfl rfl rfl (length_codeDigits_le (by decide) code)

/-- Whatever is written for a character in double quotes is read as the character. -/
theorem Escapes.scanDouble {c : Char} {written gap : List Char} (escapes : Escapes c written)
    (inside : 0 < column) :
    ∃ said' gap' column', 0 < column' ∧ gap' ++ said' = c :: (gap ++ said) ∧ ∀ rest,
      scanDouble .anything said (.blanks gap) line column (written ++ rest) =
        scanDouble .anything said' (.blanks gap') line column' rest := by
  cases escapes with
  | letter unbroken short stands =>
    exact ⟨c :: (gap ++ said), [], column + 2, by omega, rfl,
      fun _ => scanDouble_letter unbroken short stands⟩
  | itself _ apart =>
    have other (d : Char) (member : d ∈ lettered) : c ≠ d := fun same => apart (same ▸ member)
    have unbroken : isBreak c = false := by
      simp [isBreak, other '\n' (by decide), other '\u2028' (by decide), other '\u2029' (by decide)]
    obtain ⟨said', gap', text, reads⟩ := @scanDouble_itself said line column gap c unbroken
      (other '\x22' (by decide)) (other '\\' (by decide)) inside
    exact ⟨said', gap', column + 1, by omega, text, reads⟩
  | @code mark width unbroken introduces _ fits =>
    exact ⟨c :: (gap ++ said), [], column + (width + 2), by omega, rfl,
      fun _ => scanDouble_code unbroken introduces fits⟩

/-- A text in double quotes is read up to the closing quote. -/
theorem scanDouble_text {gap : List Char} (inside : 0 < column) :
    ∃ column', scanDouble .anything said (.blanks gap) line column
        (cs.flatMap escape ++ '\x22' :: rest) =
      some ((cs.reverse ++ gap ++ said).reverse, ⟨line, column', rest⟩) := by
  induction cs generalizing said gap column with
  | nil =>
    refine ⟨column + 1, ?_⟩
    rw [List.flatMap_nil, List.nil_append, scanDouble]
    rfl
  | cons c cs ih =>
    obtain ⟨said', gap', column', positive, text, reads⟩ :=
      @Escapes.scanDouble said line column c (escape c) gap (escapes_escape c) inside
    obtain ⟨column'', behind⟩ := @ih said' column' gap' positive
    refine ⟨column'', ?_⟩
    rw [List.flatMap_cons, List.append_assoc, reads, behind]
    simp [text]

/-! ## Quotes among tokens -/

/-- What is written, with the quotes around it, is read as the text. -/
def Quotes (written text : List Char) : Prop :=
  ∃ quote body, written = quote :: body ∧ (quote = '\x27' ∨ quote = '\x22') ∧
    ∀ (s : Lexer) (rest : List Char), s.allowsKey = false →
      s.place.rest = written ++ '\n' :: rest →
      ∃ line column, s.token quote (body ++ '\n' :: rest) =
        some { s.push (.scalar (.text (String.ofList text))) with
          place := ⟨line, column, '\n' :: rest⟩, allowsKey := false }

/-- Where no key may begin, a scalar is read and nothing else. -/
theorem atom_eq {s : Lexer} (keyless : s.allowsKey = false)
    (read : Lexer → Option (Token × Place)) :
    s.atom read = (read s).map fun (token, place) =>
      { s.push token with place, allowsKey := false } := by
  rw [atom, noteKey, keyless]
  rfl

theorem token_single (s : Lexer) (rest : List Char) : s.token '\x27' rest = s.single := by
  have mark : isSeparator s.place.column ('\x27' :: rest) = false := rfl
  unfold Lexer.token
  rw [mark]
  simp

theorem token_double (s : Lexer) (rest : List Char) : s.token '\x22' rest = s.double := by
  have mark : isSeparator s.place.column ('\x22' :: rest) = false := rfl
  unfold Lexer.token
  rw [mark]
  simp

theorem quotes_single (single : IsSingle cs) (indentation : 0 < indent) :
    Quotes (singleText indent cs) cs := by
  obtain ⟨body, written, reads⟩ := scanSingle_text single indentation
  refine ⟨'\x27', body, written, .inl rfl, fun s rest keyless here => ?_⟩
  obtain ⟨line, column, text⟩ := reads rest s.place.line (Nat.succ_pos s.place.column)
  have behind : s.place.rest.drop 1 = body ++ '\n' :: rest := by rw [here, written]; rfl
  refine ⟨line, column, ?_⟩
  rw [token_single, Lexer.single, atom_eq keyless]
  simp only [behind, text]
  rfl

theorem quotes_double (cs : List Char) : Quotes (doubleText cs) cs := by
  refine ⟨'\x22', cs.flatMap escape ++ ['\x22'], rfl, .inr rfl, fun s rest keyless here => ?_⟩
  obtain ⟨column, text⟩ := @scanDouble_text cs ('\n' :: rest) [] s.place.line
    (s.place.column + 1) [] (Nat.succ_pos _)
  have behind : s.place.rest.drop 1 = cs.flatMap escape ++ '\x22' :: '\n' :: rest := by
    rw [here]
    simp [doubleText]
  simp only [List.append_nil, List.reverse_reverse] at text
  refine ⟨s.place.line, column, ?_⟩
  rw [token_double, Lexer.double, atom_eq keyless]
  simp only [behind]
  exact congrArg (Option.map _) (congrArg (Option.map _) text)

variable {i j : Nat} {before : List Token} {indents : List Nat} {written text next : List Char}

/-- A text in quotes behind the colon of a key, up to the beginning of the next line. -/
theorem leads_quoted (quotes : Quotes written text) (inside : i ≤ column)
    (begins : Begins next) :
    ∃ line', (between false before (i :: indents)
        ⟨line, column, ' ' :: written ++ '\n' :: (spaces j ++ next)⟩).Leads
      (between true (.scalar (.text (String.ofList text)) :: before) (i :: indents)
        ⟨line', j, next⟩) := by
  obtain ⟨quote, body, rfl, kind, reads⟩ := quotes
  have starts (rest : List Char) : Begins (quote :: rest) := by
    rintro _ ⟨⟩
    rcases kind with rfl | rfl <;> decide
  have gap : (between false before (i :: indents)
      ⟨line, column, ' ' :: (quote :: body) ++ '\n' :: (spaces j ++ next)⟩).advance =
      some (between false before (i :: indents)
        ⟨line, column + 1, quote :: (body ++ '\n' :: (spaces j ++ next))⟩) := by
    refine (advance_between (skipGap_space.trans (skipGap_of_begins (starts _)))).trans
      (congrArg some (closeBlocks_inside ?_))
    rintro _ ⟨⟩
    exact decide_eq_true (Nat.le_succ_of_le inside)
  obtain ⟨line', column', token⟩ := reads (between false before (i :: indents)
    ⟨line, column + 1, quote :: (body ++ '\n' :: (spaces j ++ next))⟩) (spaces j ++ next) rfl rfl
  refine ⟨line' + 1, (leads_of_token gap rfl token ?_).trans (leads_line begins)⟩
  show ('\n' :: (spaces j ++ next)).length <
    (' ' :: (quote :: body) ++ '\n' :: (spaces j ++ next)).length
  simp
  omega

/-- A value that is a text in quotes comes back as the text. -/
theorem returns_quoted {x : Tree} {text : List Char} {written : Nat → List Char}
    (quotes : ∀ i, Quotes (written i) text)
    (lines : ∀ i, valueLines i x = ' ' :: written i ++ ['\n'])
    (printable : ∀ i, ∀ c ∈ written i, isPrintable c = true) (height : Nat) :
    Returns height x (.text (String.ofList text)) := by
  refine ⟨[.scalar (.text (String.ofList text))], fun i => ?_, describes_scalar height _,
    fun i c member => ?_⟩
  · intro j next _ begins before indents line column inside
    rw [lines i, List.append_assoc]
    exact leads_quoted (quotes i) inside begins
  · rw [lines i] at member
    simp only [List.cons_append, List.mem_cons, List.mem_append, List.not_mem_nil,
      or_false] at member
    rcases member with rfl | member | rfl
    · rfl
    · exact printable i c member
    · rfl

/-! ## Texts -/

theorem isPrintable_spaces {count : Nat} : ∀ c ∈ spaces count, isPrintable c = true := by
  intro c member
  rw [List.eq_of_mem_replicate member]
  rfl

theorem isPrintable_singleLines {afterBreak : Bool} {c : Char} (printable : isPrintable c = true) :
    ∀ d ∈ singleLines indent afterBreak c, isPrintable d = true := by
  have twice : ∀ d ∈ quotedTwice c, d = c := by
    intro d member
    unfold quotedTwice at member
    split at member <;> simpa using member
  intro d member
  unfold singleLines at member
  split at member
  · exact List.mem_singleton.mp member ▸ printable
  · rcases List.mem_append.mp member with blank | member
    · cases afterBreak with
      | true => exact isPrintable_spaces d blank
      | false => cases blank
    · exact twice d member ▸ printable

theorem isPrintable_singleText (printable : ∀ c ∈ cs, isPrintable c = true) :
    ∀ c ∈ singleText indent cs, isPrintable c = true := by
  have body (afterBreak : Bool) :
      ∀ c ∈ indented indent quotedTwice afterBreak cs, isPrintable c = true := by
    induction cs generalizing afterBreak with
    | nil => nofun
    | cons c cs ih =>
      obtain ⟨first, others⟩ := List.forall_mem_cons.mp printable
      rw [indented_cons]
      exact List.forall_mem_append.mpr ⟨isPrintable_singleLines first, ih others _⟩
  have ending : ∀ c ∈ if cs.getLast?.any isBreak then spaces indent else [],
      isPrintable c = true := by
    split
    · exact isPrintable_spaces
    · nofun
  have quote : ∀ c ∈ ['\x27'], isPrintable c = true := List.all_eq_true.mp rfl
  exact List.forall_mem_cons.mpr ⟨rfl, List.forall_mem_append.mpr
    ⟨List.forall_mem_append.mpr ⟨body false, ending⟩, quote⟩⟩

theorem Escapes.isPrintable {c : Char} {written : List Char} (escapes : Escapes c written) :
    ∀ d ∈ written, isPrintable d = true := by
  cases escapes with
  | letter _ _ _ printable => exact List.forall_mem_cons.mpr ⟨rfl, by simpa using printable⟩
  | itself printable => simpa using printable
  | code _ _ printable =>
    have digits : ∀ d ∈ codeDigits c.toNat, Yaml.isPrintable d = true :=
      forall_mem_codeDigits (by decide) c.toNat
    refine List.forall_mem_append.mpr ⟨List.forall_mem_append.mpr ⟨?_, fun d zero => ?_⟩, digits⟩
    · exact List.forall_mem_cons.mpr ⟨rfl, by simpa using printable⟩
    · rw [List.eq_of_mem_replicate zero]
      rfl

theorem isPrintable_doubleText (cs : List Char) : ∀ c ∈ doubleText cs, isPrintable c = true := by
  have body : ∀ c ∈ cs.flatMap escape, isPrintable c = true := by
    intro d member
    obtain ⟨c, _, member⟩ := List.mem_flatMap.mp member
    exact (escapes_escape c).isPrintable d member
  have quote : ∀ c ∈ ['\x22'], isPrintable c = true := List.all_eq_true.mp rfl
  exact List.forall_mem_cons.mpr ⟨rfl, List.forall_mem_append.mpr ⟨body, quote⟩⟩

section Forms

variable {s : String}

theorem isSingle_of_form (single : Form.of s = .single) : IsSingle s.toList := by
  unfold Form.of at single
  dsimp only at single
  split_ifs at single with wild many ends indented plain
  simp only [Bool.or_eq_true, not_or, Bool.not_eq_true', Bool.not_eq_false,
    List.all_eq_true, Bool.not_eq_true, List.contains_iff_mem] at wild many indented
  exact ⟨wild.1, many, wild.2, indented⟩

/-- Only a text of several lines is written in lines of its own. -/
theorem form_ne_literal (line : '\n' ∉ s.toList) : Form.of s ≠ .literal := by
  intro literal
  unfold Form.of at literal
  dsimp only at literal
  split_ifs at literal with wild many
  exact line (List.contains_iff_mem.mp many)

/-- How a text comes back that is not written in lines of its own. -/
def textAgain (s : String) : Tree :=
  match Form.of s with
  | .plain => .plain s
  | _ => .text s

theorem asText_textAgain (s : String) : (textAgain s).asText = some s := by
  unfold textAgain
  split <;> rfl

/-- A text of one line comes back, with quotes or without. -/
theorem returns_textAgain (line : '\n' ∉ s.toList) (height : Nat) :
    Returns height (.text s) (textAgain s) := by
  have lines (i : Nat) : valueLines i (.text s) = ' ' :: textLines (i + 2) s := by
    simp [valueLines, scalarLines]
  unfold textAgain
  cases form : Form.of s with
  | plain => exact returns_text form height
  | single =>
    have single := isSingle_of_form form
    have found := @returns_quoted (.text s) s.toList (fun i => singleText (i + 2) s.toList)
      (fun i => quotes_single single (Nat.succ_pos _)) (fun i => by simp [lines, textLines, form])
      (fun i => isPrintable_singleText single.printable) height
    rwa [String.ofList_toList] at found
  | double =>
    have found := @returns_quoted (.text s) s.toList (fun _ => doubleText s.toList)
      (fun _ => quotes_double s.toList) (fun i => by simp [lines, textLines, form])
      (fun _ => isPrintable_doubleText s.toList) height
    rwa [String.ofList_toList] at found
  | literal => exact absurd form (form_ne_literal line)

end Forms

end Yaml

end PlanNetwork
