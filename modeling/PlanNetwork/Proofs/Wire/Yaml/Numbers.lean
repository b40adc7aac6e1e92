/-
# Numbers in YAML

Data files write each number as one word that means this number and nothing else: no whole
number, as it has a point or an exponent, and no padded one, as no zero stands in front of
other digits.
-/

import PlanNetwork.Proofs.Number.Text
import PlanNetwork.Proofs.Wire.Yaml.Records

namespace PlanNetwork

/-! ## The characters of numerals -/

/-- The characters that numerals are written with. -/
def isNumeralChar (c : Char) : Bool := c.isDigit || ['.', 'e', '-'].contains c

/-- What can be said of each digit, since there are few. -/
theorem of_isDigit {p : Char → Bool} (all : "0123456789".toList.all p = true) {c : Char}
    (digit : c.isDigit = true) : p c = true := by
  have found : ∀ n < 58, 48 ≤ n → "0123456789".toList.contains (Char.ofNat n) = true := by decide
  simp only [Char.isDigit, Bool.and_eq_true, decide_eq_true_eq, UInt32.le_iff_toNat_le] at digit
  have member := found c.toNat (Nat.lt_succ_of_le digit.2) digit.1
  rw [Char.ofNat_toNat] at member
  exact List.all_eq_true.mp all c (List.contains_iff_mem.mp member)

/-- What can be said of each character of numerals. -/
theorem of_isNumeralChar {p : Char → Bool} (all : "0123456789.e-".toList.all p = true) {c : Char}
    (char : isNumeralChar c = true) : p c = true := by
  have each := List.all_eq_true.mp all
  simp only [isNumeralChar, Bool.or_eq_true, List.contains_iff_mem] at char
  rcases char with digit | other
  · refine of_isDigit (List.all_eq_true.mpr fun c member => each c ?_) digit
    exact List.mem_append_left ['.', 'e', '-'] member
  · exact each c (List.mem_append_right "0123456789".toList other)

namespace Numeral

variable {n : Numeral}

theorem isNumeralChar_of_isDigit {c : Char} (digit : c.isDigit = true) :
    isNumeralChar c = true := by
  rw [isNumeralChar, digit, Bool.true_or]

theorem isNumeralChar_toString (e : Int) : ∀ c ∈ (toString e).toList, isNumeralChar c = true := by
  rw [Int.toString_eq_repr, Int.repr_eq_if]
  split
  next =>
    rw [Nat.repr_eq_ofList_toDigits, String.toList_ofList]
    exact fun c member => isNumeralChar_of_isDigit (areDigits_toDigits _ c member)
  next =>
    rw [String.toList_append, Nat.repr_eq_ofList_toDigits,
      @String.toList_ofList (Nat.toDigits 10 _)]
    intro c member
    rcases List.mem_append.mp member with sign | member
    · obtain rfl : c = '-' := List.mem_singleton.mp sign
      rfl
    · exact isNumeralChar_of_isDigit (areDigits_toDigits _ c member)

theorem Regular.isNumeralChar (regular : n.Regular) : ∀ c ∈ n.written, isNumeralChar c = true := by
  obtain ⟨ws, f, e⟩ := n
  have whole := regular.whole
  have fraction := regular.fraction
  intro c member
  simp only [written, List.mem_append] at member
  rcases member with (member | member) | member
  · exact isNumeralChar_of_isDigit (whole c member)
  · cases f with
    | none => cases member
    | some ds =>
      rcases List.mem_cons.mp member with rfl | member
      · rfl
      · exact isNumeralChar_of_isDigit ((fraction ds rfl).1 c member)
  · cases e with
    | none => cases member
    | some e =>
      rcases List.mem_cons.mp member with rfl | member
      · rfl
      · exact isNumeralChar_toString e c member

/-- It shows that it need not be whole. -/
theorem Regular.exists_mark (regular : n.Regular) : ∃ c ∈ n.written, c = '.' ∨ c = 'e' := by
  obtain ⟨ws, f, e⟩ := n
  have marked := regular.marked
  cases f with
  | some ds => exact ⟨'.', by simp [written], .inl rfl⟩
  | none =>
    cases e with
    | some e => exact ⟨'e', by simp [written], .inr rfl⟩
    | none => cases marked

theorem Regular.unsigned {c : Char} {cs : List Char} (regular : n.Regular)
    (same : n.written = c :: cs) : c ≠ '-' ∧ c ≠ '+' := by
  obtain ⟨d, ds, shape, digit⟩ := regular.exists_cons
  obtain rfl : d = c := (List.cons.inj (shape.symm.trans same)).1
  have other := of_isDigit (p := fun c => c != '-' && c != '+') (by decide) digit
  simpa using other

/-- Behind a zero in front stands the point or the exponent. -/
theorem Regular.of_zero {cs : List Char} (regular : n.Regular) (zero : n.written = '0' :: cs) :
    ∃ c ds, cs = c :: ds ∧ (c = '.' ∨ c = 'e') := by
  obtain ⟨ws, f, e⟩ := n
  have marked := regular.marked
  rcases regular.leading with one | ⟨some, first⟩
  · obtain rfl : ws = ['0'] := one
    cases f with
    | some ds => exact ⟨'.', _, (List.cons.inj zero).2.symm, .inl rfl⟩
    | none =>
      cases e with
      | some e => exact ⟨'e', _, (List.cons.inj zero).2.symm, .inr rfl⟩
      | none => cases marked
  · obtain ⟨d, ds, rfl⟩ := List.exists_cons_of_ne_nil (show ws ≠ [] from some)
    have same : d = '0' := (List.cons.inj zero).1
    exact absurd (congrArg Option.some same) first

end Numeral

namespace Yaml

/-- A word without quotes that means a number. -/
structure MeansNumber (s : String) (x : Number) : Prop where
  /-- It is one scalar. -/
  plain : IsPlain s.toList
  /-- It is a number where one is wanted. -/
  wanted : Scalar.number? s = some x
  /-- It does not say nothing. -/
  something : Scalar.isNull s = false
  /-- It is a number where anything is welcome. -/
  settled : Scalar.resolve s = some (.number x)

theorem meansNumber_nan : MeansNumber (Number.nan.render .data) .nan :=
  ⟨⟨by decide, List.all_eq_true.mp (by decide)⟩, rfl, rfl, rfl⟩

theorem meansNumber_infinite (negative : Bool) :
    MeansNumber ((Number.infinite negative).render .data) (.infinite negative) := by
  cases negative with
  | false => exact ⟨⟨by decide, List.all_eq_true.mp (by decide)⟩, rfl, rfl, rfl⟩
  | true => exact ⟨⟨by decide, List.all_eq_true.mp (by decide)⟩, rfl, rfl, rfl⟩

/-! ## Words -/

section Words

variable {cs : List Char}

theorem hasInnerMark_of_numeral (chars : ∀ c ∈ cs, isNumeralChar c = true) (afterGap : Bool) :
    hasInnerMark afterGap cs = false := by
  induction cs generalizing afterGap with
  | nil => rfl
  | cons c cs ih =>
    have apart := of_isNumeralChar (p := fun c => c != ':' && c != '#') (by decide)
      (chars c (List.mem_cons_self ..))
    simp only [Bool.and_eq_true, bne_iff_ne] at apart
    rw [hasInnerMark, ih fun d member => chars d (List.mem_cons_of_mem _ member)]
    simp [apart]

/-- What numerals are written with is a word, if a digit stands in front, or behind a sign. -/
theorem isPlain_of_numeral {d : Char} {sign ds : List Char} (digit : d.isDigit = true)
    (signed : sign = [] ∨ sign = ['-'])
    (chars : ∀ c ∈ sign ++ d :: ds, isNumeralChar c = true) : IsPlain (sign ++ d :: ds) := by
  have each (c : Char) (member : c ∈ sign ++ d :: ds) :
      isPrintable c = true ∧ isBreak c = false ∧ isBlank c = false := by
    have found := of_isNumeralChar (p := fun c => isPrintable c && !isBreak c && !isBlank c)
      (by decide) (chars c member)
    simpa [and_assoc] using found
  refine ⟨?_, fun c member => (each c member).1⟩
  have other := of_isDigit (p := fun c => c != '-' && c != '.' && !(c == '?' || c == ':') &&
    !(isBlank c || isBreak c || isIndicator c) && !(isBlank c || isBreak c)) (by decide) digit
  simp only [Bool.and_eq_true, bne_iff_ne, Bool.not_eq_true'] at other
  obtain ⟨⟨⟨⟨dash, dot⟩, colon⟩, word⟩, unbroken⟩ := other
  have starts : startsPlain false (sign ++ d :: ds) = true := by
    rcases signed with rfl | rfl
    · simp [startsPlain, dash, colon, word]
    · simp [startsPlain, endsWord, unbroken]
  have mark : beginsWithMark (sign ++ d :: ds) = false := by
    rcases signed with rfl | rfl
    · unfold beginsWithMark
      split
      next same => exact absurd (List.cons.inj same).1 dash
      next same => exact absurd (List.cons.inj same).1 dot
      next => rfl
    · unfold beginsWithMark
      split
      next same => exact absurd (List.cons.inj (List.cons.inj same).2).1 dash
      next same => exact absurd (List.cons.inj same).1 (by decide)
      next => rfl
  have whole : (sign ++ d :: ds).any isBreak = false :=
    List.any_eq_false.mpr fun c member => by simp [(each c member).2.1]
  have ends {o : Option Char} (inside : ∀ c ∈ o, c ∈ sign ++ d :: ds) :
      o.all (!isBlank ·) = true := by
    cases o with
    | none => rfl
    | some c => simp [(each c (inside c rfl)).2.2]
  rw [isPlainText, starts, hasInnerMark_of_numeral chars, whole, mark,
    ends fun _ => List.mem_of_mem_head?, ends fun _ => List.mem_of_getLast?]
  rfl

end Words

/-! ## What words mean -/

/-- A numeral is none of some words that are not written like one. -/
theorem contains_of_numeral {s : String} {words : List String} (some : s.toList ≠ [])
    (chars : ∀ c ∈ s.toList, isNumeralChar c = true)
    (others : words.all (fun w => w.toList.isEmpty || !w.toList.all isNumeralChar) = true) :
    words.contains s = false := by
  refine Bool.eq_false_iff.mpr fun found => ?_
  have other := List.all_eq_true.mp others s (List.contains_iff_mem.mp found)
  rw [List.all_eq_true.mpr chars, Bool.not_true, Bool.or_false] at other
  exact some (List.isEmpty_iff.mp other)

theorem digits?_eq_none {cs : List Char} {c : Char} (member : c ∈ cs)
    (other : Scalar.digit? 10 c = none) : Scalar.digits? 10 cs = none := by
  have fold (n : Nat) :
      cs.foldlM (fun n c => (Scalar.digit? 10 c).map (10 * n + ·)) n = none := by
    induction cs generalizing n with
    | nil => cases member
    | cons d ds ih =>
      rw [List.foldlM_cons]
      rcases List.mem_cons.mp member with rfl | member
      · rw [other]
        rfl
      · cases Scalar.digit? 10 d with
        | none => rfl
        | some k => exact ih member _
  unfold Scalar.digits?
  split
  · rfl
  · exact fold 0

theorem count?_written {n : Numeral} (regular : n.Regular) : Scalar.count? n.written = none := by
  have mark : ∀ c, c = '.' ∨ c = 'e' → Scalar.digit? 10 c = none := by
    rintro c (rfl | rfl) <;> decide
  have zero {cs : List Char} (same : n.written = '0' :: cs) :
      ∀ c ∈ cs.head?, c = '.' ∨ c = 'e' := by
    obtain ⟨c, ds, rfl, point⟩ := regular.of_zero same
    rintro _ ⟨⟩
    exact point
  unfold Scalar.count?
  split
  next same => exact absurd (zero same 'x' rfl) (by decide)
  next same => exact absurd (zero same 'o' rfl) (by decide)
  next same => exact absurd (zero same 'b' rfl) (by decide)
  next same =>
    obtain ⟨c, ds, none, _⟩ := regular.of_zero same
    cases none
  next => rfl
  next =>
    obtain ⟨c, member, point⟩ := regular.exists_mark
    exact digits?_eq_none member (mark c point)

theorem decimal?_written {n : Numeral} {x : Number} {negative : Bool} (regular : n.Regular)
    (reads : n.toNumber negative = x) (finite : x.isFinite = true) :
    Scalar.decimal? negative n.written = some x := by
  have scanned : Numeral.scan n.written = some (n, []) := by
    have found := regular.scan (show Numeral.Ends [] from nofun)
    rwa [List.append_nil] at found
  have digits : n.hasDigits = true := by
    rcases regular.leading with one | ⟨some, _⟩
    · simp [Numeral.hasDigits, one]
    · simp [Numeral.hasDigits, some]
  unfold Scalar.decimal?
  rw [scanned]
  simp only [digits, reads, finite]
  rfl

section Signed

variable {n : Numeral} {s : String} {negative : Bool} (regular : n.Regular)
  (text : s.toList = (if negative then ['-'] else []) ++ n.written)
include regular text

theorem isNumeralChar_signed : ∀ c ∈ s.toList, isNumeralChar c = true := by
  rw [text]
  intro c member
  rcases List.mem_append.mp member with sign | member
  · cases negative with
    | true =>
      obtain rfl := List.mem_singleton.mp sign
      rfl
    | false => cases sign
  · exact regular.isNumeralChar c member

theorem contains_signed {words : List String}
    (others : words.all (fun w => w.toList.isEmpty || !w.toList.all isNumeralChar) = true) :
    words.contains s = false := by
  obtain ⟨d, ds, shape, _⟩ := regular.exists_cons
  exact contains_of_numeral (by simp [text, shape]) (isNumeralChar_signed regular text) others

/-- A point or an exponent makes it no whole number. -/
theorem integer?_signed : Scalar.integer? s.toList = none := by
  rw [text]
  cases negative with
  | true =>
    show (Scalar.count? n.written).map _ = none
    rw [count?_written regular]
    rfl
  | false =>
    show Scalar.integer? n.written = none
    unfold Scalar.integer?
    split
    next same => exact absurd rfl (regular.unsigned same).2
    next same => exact absurd rfl (regular.unsigned same).1
    next =>
      rw [count?_written regular]
      rfl

/-- No zero stands in front of other digits. -/
theorem isPadded_signed : Scalar.isPadded s = false := by
  unfold Scalar.isPadded
  dsimp only
  rw [text]
  split
  next c cs found =>
    have same : n.written = '0' :: c :: cs := by
      cases negative with
      | true => exact found
      | false =>
        simp only [Bool.false_eq_true, if_false, List.nil_append] at found
        split at found
        next same => exact absurd rfl (regular.unsigned same).1
        next same => exact absurd rfl (regular.unsigned same).2
        next => exact found
    obtain ⟨c, ds, shape, point⟩ := regular.of_zero same
    obtain rfl := (List.cons.inj shape).1
    rcases point with rfl | rfl <;> rfl
  next => rfl

theorem number?_signed {x : Number} (reads : n.toNumber negative = x) (finite : x.isFinite = true) :
    Scalar.number? s = some x := by
  have decimal := decimal?_written regular reads finite
  unfold Scalar.number?
  rw [contains_signed regular text (by decide), contains_signed regular text (by decide),
    contains_signed regular text (by decide)]
  simp only [Bool.false_eq_true, if_false, text]
  cases negative with
  | true => exact decimal
  | false =>
    simp only [Bool.false_eq_true, if_false, List.nil_append]
    split
    next same => exact absurd rfl (regular.unsigned same).1
    next same => exact absurd rfl (regular.unsigned same).2
    next => exact decimal

theorem isPlain_signed : IsPlain s.toList := by
  have chars := isNumeralChar_signed regular text
  obtain ⟨d, ds, shape, digit⟩ := regular.exists_cons
  rw [text, shape] at chars ⊢
  refine isPlain_of_numeral digit ?_ chars
  cases negative with
  | true => exact .inr rfl
  | false => exact .inl rfl

theorem meansNumber_signed {x : Number} (reads : n.toNumber negative = x)
    (finite : x.isFinite = true) : MeansNumber s x := by
  have wanted := number?_signed regular text reads finite
  have something : Scalar.isNull s = false := contains_signed regular text (by decide)
  refine ⟨isPlain_signed regular text, wanted, something, ?_⟩
  have truth : Scalar.bool? s = none := by
    unfold Scalar.bool?
    rw [contains_signed regular text (by decide), contains_signed regular text (by decide)]
    rfl
  have whole : Scalar.wholeTree? s = none := by
    rw [Scalar.wholeTree?, integer?_signed regular text]
    rfl
  unfold Scalar.resolve
  rw [something, truth, whole, isPadded_signed regular text, wanted]
  rfl

end Signed

/-- Each number is written as a word that means it. -/
theorem meansNumber_render (x : Number) : MeansNumber (x.render .data) x := by
  cases x with
  | nan => exact meansNumber_nan
  | infinite negative => exact meansNumber_infinite negative
  | finite negative units fits =>
    obtain ⟨n, regular, written, reads⟩ := Number.exists_numeral fits
    refine meansNumber_signed regular ?_ (reads negative) rfl
    rw [Number.render, String.toList_append, String.toList_ofList, written]
    cases negative <;> rfl

/-- A number comes back as the word for it. -/
theorem returns_number (x : Number) (height : Nat) :
    Returns height (.number x) (.plain (x.render .data)) := by
  have lines (i : Nat) : valueLines i (.number x) = ' ' :: (x.render .data).toList ++ ['\n'] := by
    simp [valueLines, scalarLines]
  have found := returns_plain (meansNumber_render x).plain lines height
  rwa [String.ofList_toList] at found

/-- How a number comes back. -/
def numberAgain (x : Number) : Tree := .plain (x.render .data)

theorem fieldReturns_number {name : String} (key : IsKey name) (x : Number) (height : Nat) :
    FieldReturns height (name, .number x) (name, numberAgain x) :=
  ⟨rfl, key, returns_number x height⟩

end Yaml

end PlanNetwork
