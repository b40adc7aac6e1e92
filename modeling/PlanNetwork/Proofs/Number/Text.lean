/-
# Numbers that are written and read again

A numeral is written as its digits, its point and its exponent. If it is scanned from a text
in which it does not go on, it comes back, and the rest of the text is left. Data files write
each finite number as such a numeral, with a digit in front and never as a whole number, and it
reads back to the number.
-/

import PlanNetwork.Number.Text
import PlanNetwork.Proofs.Number.Decimal

namespace PlanNetwork

/-! ## Digits -/

/-- All characters are digits. -/
def AreDigits (cs : List Char) : Prop := ∀ c ∈ cs, c.isDigit = true

theorem AreDigits.append {cs ds : List Char} (left : AreDigits cs) (right : AreDigits ds) :
    AreDigits (cs ++ ds) := fun c member => (List.mem_append.mp member).elim (left c) (right c)

theorem areDigits_toDigits (n : Nat) : AreDigits (Nat.toDigits 10 n) := fun _ member =>
  Nat.isDigit_of_mem_toDigits (by decide) (by decide) member

theorem areDigits_replicate (count : Nat) : AreDigits (List.replicate count '0') :=
  fun c member => by rw [List.eq_of_mem_replicate member]; rfl

/-- A text does not begin with a digit. -/
def EndsDigits (cs : List Char) : Prop := ∀ c ∈ cs.head?, c.isDigit = false

theorem endsDigits_cons {c : Char} {cs : List Char} (other : c.isDigit = false) :
    EndsDigits (c :: cs) := by
  rintro _ ⟨⟩
  exact other

section Scanning

variable {ds rest : List Char} (digits : AreDigits ds) (ends : EndsDigits rest)
include digits ends

theorem takeWhile_digits : (ds ++ rest).takeWhile Char.isDigit = ds := by
  rw [List.takeWhile_append_of_pos digits]
  cases rest with
  | nil => simp
  | cons c rest => simp [ends c rfl]

theorem dropWhile_digits : (ds ++ rest).dropWhile Char.isDigit = rest := by
  rw [List.dropWhile_append_of_pos digits]
  cases rest with
  | nil => simp
  | cons c rest => simp [ends c rfl]

end Scanning

/-- The first digit of a count that is not zero is not zero. -/
theorem head?_toDigits {n : Nat} (nonzero : n ≠ 0) : (Nat.toDigits 10 n).head? ≠ some '0' := by
  induction n using Nat.strong_induction_on with
  | _ n ih =>
    rw [Nat.toDigits_eq_if (by decide)]
    split
    next small =>
      have digit : ∀ n < 10, n ≠ 0 → n.digitChar ≠ '0' := by decide
      simpa using digit n small nonzero
    next large =>
      rw [List.head?_append, List.head?_eq_some_head Nat.toDigits_ne_nil, Option.some_or,
      ← List.head?_eq_some_head Nat.toDigits_ne_nil]
      exact ih (n / 10) (by omega) (by omega)

namespace Numeral

theorem digitsValue_eq (ds : List Char) : digitsValue ds = Nat.ofDigitChars 10 ds 0 :=
  Nat.ofDigitChars_eq_foldl.symm

theorem digitsValue_toDigits (n : Nat) : digitsValue (Nat.toDigits 10 n) = n := by
  rw [digitsValue_eq, Nat.ofDigitChars_ten_toDigits]

/-- Zeros in front of digits do not count. -/
theorem digitsValue_zeros (count : Nat) (ds : List Char) :
    digitsValue (List.replicate count '0' ++ ds) = digitsValue ds := by
  simp only [digitsValue_eq, Nat.ofDigitChars_append, Nat.ofDigitChars_replicate_zero, Nat.mul_zero]

/-- Each zero behind digits counts ten times. -/
theorem digitsValue_append_zeros (count : Nat) (ds : List Char) :
    digitsValue (ds ++ List.replicate count '0') = Number.tenTo count * digitsValue ds := by
  simp only [digitsValue_eq, Nat.ofDigitChars_append, Nat.ofDigitChars_replicate_zero]
  rfl

/-! ## Writing a numeral -/

/-- How a numeral is written. -/
def written (n : Numeral) : List Char :=
  n.whole ++ n.fraction.elim [] ('.' :: ·) ++ n.exponent.elim [] fun e => 'e' :: (toString e).toList

/-- A text in which a numeral does not go on. -/
def Ends (cs : List Char) : Prop :=
  ∀ c ∈ cs.head?, c.isDigit = false ∧ c ≠ '.' ∧ c ≠ 'e' ∧ c ≠ 'E'

theorem Ends.digits {rest : List Char} (ends : Ends rest) : EndsDigits rest :=
  fun c first => (ends c first).1

section Exponents

variable {ds rest : List Char} (digits : AreDigits ds) (some : ds ≠ []) (ends : EndsDigits rest)
include digits some ends

theorem scanExponent_minus :
    scanExponent ('-' :: (ds ++ rest)) = .some (-(digitsValue ds : Int), rest) := by
  simp only [scanExponent, takeWhile_digits digits ends, dropWhile_digits digits ends, if_true]

theorem scanExponent_digits :
    scanExponent (ds ++ rest) = .some ((digitsValue ds : Int), rest) := by
  unfold scanExponent
  split
  next negative body signed =>
    -- a digit is no sign
    have unsigned : (negative, body) = (false, ds ++ rest) := by
      split at signed
      next same =>
        cases ds with
        | nil => exact absurd rfl some
        | cons d ds =>
          obtain rfl := (List.cons.inj same).1
          exact absurd (digits '-' (List.mem_cons_self ..)) (by decide)
      next same =>
        cases ds with
        | nil => exact absurd rfl some
        | cons d ds =>
          obtain rfl := (List.cons.inj same).1
          exact absurd (digits '+' (List.mem_cons_self ..)) (by decide)
      next => exact signed.symm
    obtain ⟨rfl, rfl⟩ := Prod.mk.inj unsigned
    simp only [takeWhile_digits digits ends, dropWhile_digits digits ends]
    rfl

end Exponents

theorem scanExponent_toString (e : Int) {rest : List Char} (ends : EndsDigits rest) :
    scanExponent ((toString e).toList ++ rest) = some (e, rest) := by
  rw [Int.toString_eq_repr, Int.repr_eq_if]
  split
  next positive =>
    rw [Nat.repr_eq_ofList_toDigits, String.toList_ofList,
      scanExponent_digits (areDigits_toDigits _) Nat.toDigits_ne_nil ends, digitsValue_toDigits,
      Int.toNat_of_nonneg positive]
  next negative =>
    have text : ("-" ++ (-e).toNat.repr).toList = '-' :: Nat.toDigits 10 (-e).toNat := by
      rw [String.toList_append, Nat.repr_eq_ofList_toDigits,
        @String.toList_ofList (Nat.toDigits 10 _)]
      rfl
    have value : -((-e).toNat : Int) = e := by omega
    rw [text, List.cons_append, scanExponent_minus (areDigits_toDigits _) Nat.toDigits_ne_nil ends,
      digitsValue_toDigits, value]

/-- The end of a numeral, behind its digits. -/
def scanEnd (whole : List Char) (fraction : Option (List Char)) :
    List Char → Option (Numeral × List Char)
  | 'e' :: more | 'E' :: more =>
    (scanExponent more).map fun (exponent, rest) => (⟨whole, fraction, some exponent⟩, rest)
  | rest => some (⟨whole, fraction, none⟩, rest)

section Behind

variable {ws fs rest : List Char} {fraction : Option (List Char)}

theorem scan_eq_of_no_point (whole : AreDigits ws) (ends : EndsDigits rest)
    (point : ∀ c ∈ rest.head?, c ≠ '.') : scan (ws ++ rest) = scanEnd ws none rest := by
  unfold scan
  rw [takeWhile_digits whole ends, dropWhile_digits whole ends]
  split
  next fraction behind found =>
    have nothing : (fraction, behind) = (none, rest) := by
      split at found
      next => exact absurd rfl (point '.' rfl)
      next => exact found.symm
    obtain ⟨rfl, rfl⟩ := Prod.mk.inj nothing
    rfl

theorem scan_eq_of_point (whole : AreDigits ws) (digits : AreDigits fs) (ends : EndsDigits rest) :
    scan (ws ++ '.' :: (fs ++ rest)) = scanEnd ws (some fs) rest := by
  have dot : EndsDigits ('.' :: (fs ++ rest)) := endsDigits_cons rfl
  simp only [scan, takeWhile_digits whole dot, dropWhile_digits whole dot,
    takeWhile_digits digits ends, dropWhile_digits digits ends]
  rfl

theorem scanEnd_of_ends (ends : Ends rest) :
    scanEnd ws fraction rest = some (⟨ws, fraction, none⟩, rest) := by
  unfold scanEnd
  split
  next => exact absurd rfl (ends 'e' rfl).2.2.1
  next => exact absurd rfl (ends 'E' rfl).2.2.2
  next => rfl

theorem scanEnd_exponent (e : Int) (ends : Ends rest) :
    scanEnd ws fraction ('e' :: ((toString e).toList ++ rest)) =
      some (⟨ws, fraction, some e⟩, rest) := by
  rw [scanEnd, scanExponent_toString e ends.digits]
  rfl

end Behind

/-- A numeral that is written reads back. -/
theorem scan_written {n : Numeral} {rest : List Char} (whole : AreDigits n.whole)
    (fraction : ∀ ds ∈ n.fraction, AreDigits ds) (ends : Ends rest) :
    scan (n.written ++ rest) = some (n, rest) := by
  obtain ⟨ws, f, e⟩ := n
  -- what stands behind the digits
  let tail := e.elim [] (fun e => 'e' :: (toString e).toList) ++ rest
  have tailEnds : EndsDigits tail ∧ ∀ c ∈ tail.head?, c ≠ '.' := by
    cases e with
    | none => exact ⟨ends.digits, fun c first => (ends c first).2.1⟩
    | some e => exact ⟨endsDigits_cons rfl, by rintro _ ⟨⟩; decide⟩
  have tailReads : scanEnd ws f tail = some (⟨ws, f, e⟩, rest) := by
    cases e with
    | none => exact scanEnd_of_ends ends
    | some e => exact scanEnd_exponent e ends
  cases f with
  | none =>
    have text : written ⟨ws, none, e⟩ ++ rest = ws ++ tail := by simp [written, tail]
    rw [text, scan_eq_of_no_point whole tailEnds.1 tailEnds.2, tailReads]
  | some fs =>
    have text : written ⟨ws, some fs, e⟩ ++ rest = ws ++ '.' :: (fs ++ tail) := by
      simp [written, tail]
    rw [text, scan_eq_of_point whole (fraction fs rfl) tailEnds.1, tailReads]

/-- A numeral with digits where they have to be, no zero in front of others, and a point or an
exponent. -/
structure Regular (n : Numeral) : Prop where
  /-- The digits in front of the point. -/
  whole : AreDigits n.whole
  /-- There is one, and there is only one if it is zero. -/
  leading : n.whole = ['0'] ∨ n.whole ≠ [] ∧ n.whole.head? ≠ some '0'
  /-- The digits behind the point, if there is one. -/
  fraction : ∀ ds ∈ n.fraction, AreDigits ds ∧ ds ≠ []
  /-- It shows that it need not be whole. -/
  marked : n.isWhole = false

theorem Regular.scan {n : Numeral} {rest : List Char} (regular : n.Regular) (ends : Ends rest) :
    scan (n.written ++ rest) = some (n, rest) :=
  scan_written regular.whole (fun ds found => (regular.fraction ds found).1) ends

/-- It begins with a digit. -/
theorem Regular.exists_cons {n : Numeral} (regular : n.Regular) :
    ∃ c cs, n.written = c :: cs ∧ c.isDigit = true := by
  have some : n.whole ≠ [] := by
    rcases regular.leading with one | ⟨some, _⟩
    · exact one ▸ nofun
    · exact some
  obtain ⟨c, cs, shape⟩ := List.exists_cons_of_ne_nil some
  refine ⟨c, _, by rw [written, shape]; rfl, regular.whole c ?_⟩
  rw [shape]
  exact List.mem_cons_self ..

/-- A numeral that data files write for a magnitude of this many units. -/
structure Shows (n : Numeral) (text : List Char) (digits : Nat) (place : Int) : Prop where
  /-- The numeral is regular. -/
  regular : n.Regular
  /-- It is written like this. -/
  written : n.written = text
  /-- It stands for these digits at this place. -/
  value : ∀ negative, n.toNumber negative = Number.ofDecimal negative digits place

end Numeral

/-! ## Numbers in data files -/

namespace Number

open Numeral

/-- The digits of a magnitude that is not zero. -/
structure Spells (ds : List Char) (digits : Nat) : Prop where
  /-- They are digits. -/
  all : AreDigits ds
  /-- There are some. -/
  some : ds ≠ []
  /-- The first one is not zero. -/
  leading : ds.head? ≠ .some '0'
  /-- They stand for the magnitude. -/
  value : digitsValue ds = digits

theorem spells_toDigits {digits : Nat} (nonzero : digits ≠ 0) :
    Spells (Nat.toDigits 10 digits) digits where
  all := areDigits_toDigits digits
  some := Nat.toDigits_ne_nil
  leading := head?_toDigits nonzero
  value := digitsValue_toDigits digits

namespace Spells

variable {ds : List Char} {digits : Nat} {place : Int} (spells : Spells ds digits)

include spells

/-- Zeros take the place of the missing digits, and one more stands behind the point. -/
theorem shows_behind (right : (ds.length : Int) ≤ ds.length + place) :
    Numeral.Shows ⟨ds ++ zeros (ds.length + place - ds.length), .some ['0'], none⟩
      (ds ++ zeros (ds.length + place - ds.length) ++ ".0".toList) digits place := by
  refine ⟨⟨spells.all.append (areDigits_replicate _), .inr ⟨by simp [spells.some], ?_⟩, ?_, rfl⟩, ?_,
    fun negative => ?_⟩
  · obtain ⟨d, rest, rfl⟩ := List.exists_cons_of_ne_nil spells.some
    exact spells.leading
  · rintro _ ⟨⟩
    exact ⟨areDigits_replicate 1, List.cons_ne_nil _ _⟩
  · simp [written]
  · have shape : ds ++ zeros (ds.length + place - ds.length) ++ ['0'] =
        ds ++ List.replicate (place.toNat + 1) '0' := by
      rw [List.append_assoc, List.replicate_succ', zeros]
      congr 4
      omega
    simp only [toNumber, Option.getD_some, Option.getD_none, shape, digitsValue_append_zeros,
      spells.value, ofDecimal_tenTo_mul]
    congr 1
    simp only [List.length_singleton]
    omega

/-- The point stands between the digits. -/
theorem shows_between (left : ¬ (ds.length : Int) ≤ ds.length + place)
    (inside : 0 < ds.length + place) :
    Numeral.Shows
      ⟨ds.take (ds.length + place).toNat, .some (ds.drop (ds.length + place).toNat), none⟩
      (ds.take (ds.length + place).toNat ++ '.' :: ds.drop (ds.length + place).toNat)
      digits place := by
  have count : (ds.drop (ds.length + place).toNat).length = (-place).toNat := by
    rw [List.length_drop]
    omega
  refine ⟨⟨fun c member => spells.all c (List.mem_of_mem_take member), .inr ⟨?_, ?_⟩, ?_, rfl⟩, ?_,
    fun negative => ?_⟩
  · rw [ne_eq, List.take_eq_nil_iff]
    exact not_or.mpr ⟨by omega, spells.some⟩
  · rw [List.head?_take, if_neg (by omega)]
    exact spells.leading
  · rintro _ ⟨⟩
    refine ⟨fun c member => spells.all c (List.mem_of_mem_drop member), fun none => ?_⟩
    rw [none, List.length_nil] at count
    omega
  · simp [written]
  · simp only [toNumber, Option.getD_some, Option.getD_none, List.take_append_drop, spells.value,
      count]
    congr 1
    omega

/-- Zeros stand behind the point. -/
theorem shows_before (outside : ¬ 0 < ds.length + place) :
    Numeral.Shows ⟨['0'], .some (zeros (-(ds.length + place)) ++ ds), none⟩
      ('0' :: '.' :: zeros (-(ds.length + place)) ++ ds) digits place := by
  refine ⟨⟨areDigits_replicate 1, .inl rfl, ?_, rfl⟩, ?_, fun negative => ?_⟩
  · rintro _ ⟨⟩
    exact ⟨(areDigits_replicate _).append spells.all, by simp [spells.some]⟩
  · simp [written]
  · have shape : ['0'] ++ (List.replicate (-(ds.length + place)).toNat '0' ++ ds) =
        List.replicate ((-(ds.length + place)).toNat + 1) '0' ++ ds := rfl
    simp only [toNumber, Option.getD_some, Option.getD_none, zeros, shape, digitsValue_zeros,
      spells.value, List.length_append, List.length_replicate]
    congr 1
    omega

theorem exists_shows_positional :
    ∃ n : Numeral, n.Shows (positionalText ".0" ds (ds.length + place)) digits place := by
  unfold positionalText
  split
  next right => exact ⟨_, spells.shows_behind right⟩
  next left =>
    split
    next inside => exact ⟨_, spells.shows_between left inside⟩
    next outside => exact ⟨_, spells.shows_before outside⟩

theorem exists_shows_exponent :
    ∃ n : Numeral, n.Shows (exponentText ds (ds.length + place)) digits place := by
  match ds with
  | [] => exact absurd rfl spells.some
  | [d] =>
    refine ⟨⟨[d], none, .some place⟩, ⟨spells.all, .inr ⟨spells.some, spells.leading⟩, nofun, rfl⟩,
      ?_, fun negative => ?_⟩
    · simp [written, exponentText]
    · simp [toNumber, spells.value]
  | first :: second :: rest =>
    refine ⟨⟨[first], .some (second :: rest), .some ((first :: second :: rest).length + place - 1)⟩,
      ⟨fun c member => spells.all c ?_, .inr ⟨nofun, spells.leading⟩, ?_, rfl⟩, ?_,
      fun negative => ?_⟩
    · rw [List.mem_singleton.mp member]
      exact List.mem_cons_self ..
    · rintro _ ⟨⟩
      exact ⟨fun c member => spells.all c (List.mem_cons_of_mem _ member), nofun⟩
    · simp [written, exponentText]
    · simp only [toNumber, Option.getD_some, List.singleton_append, spells.value, List.length_cons]
      congr 1
      omega

end Spells

theorem exists_shows {digits : Nat} (nonzero : digits ≠ 0) (place : Int) (inFull : Bool) :
    ∃ n : Numeral, n.Shows
      (if inFull = true then
        positionalText ".0" (Nat.toDigits 10 digits) ((Nat.toDigits 10 digits).length + place)
      else exponentText (Nat.toDigits 10 digits) ((Nat.toDigits 10 digits).length + place))
      digits place := by
  cases inFull with
  | true => exact (spells_toDigits nonzero).exists_shows_positional
  | false => exact (spells_toDigits nonzero).exists_shows_exponent

/-- Each magnitude is written as a numeral that reads back, with either sign. -/
theorem exists_numeral {units : Nat} (fits : Fits units) :
    ∃ n : Numeral, n.Regular ∧ n.written = magnitudeText .data units ∧
      ∀ negative, n.toNumber negative = .finite negative units fits := by
  unfold magnitudeText
  split
  next none =>
    subst none
    refine ⟨⟨['0'], some ['0'], .none⟩, ⟨areDigits_replicate 1, .inl rfl, ?_, rfl⟩, rfl,
      fun negative => ?_⟩
    · rintro _ ⟨⟩
      exact ⟨areDigits_replicate 1, List.cons_ne_nil _ _⟩
    · have zero : digitsValue (['0'] ++ ['0']) = 0 := rfl
      simp only [toNumber, Option.getD_some, zero]
      rw [ofDecimal, if_pos rfl, zeroOf, ofUnits, dif_pos fits]
  next some =>
    have nonzero := shortest_ne_zero Style.data.tie fits some
    have reads (negative : Bool) := ofDecimal_shortest negative Style.data.tie fits some
    split
    next value place chosen =>
      rw [chosen] at nonzero reads
      exact (exists_shows nonzero place _).imp fun n shows =>
        ⟨shows.regular, shows.written, fun negative =>
          (shows.value negative).trans (reads negative)⟩

end Number

end PlanNetwork
