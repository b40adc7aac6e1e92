/-
# Decimals that read back

A zero at the end of the digits can be moved into the exponent, and nothing else about a
decimal depends on how it is written. The decimal that is chosen for a double is one that was
seen to read back, without the zeros at its end, or it is the exact value. So it reads back to
the double in any case, with either sign.
-/

import PlanNetwork.Number.Shortest
import PlanNetwork.Proofs.Number.Rounding

namespace PlanNetwork

namespace Number

variable {negative : Bool} {digits units : Nat} {exponent : Int}

/-! ## Signs and zeros -/

theorem neg_ofUnits (units : Nat) : (ofUnits false units).neg = ofUnits true units := by
  unfold ofUnits
  split <;> rfl

/-- A sign in front of a decimal is the sign of what it reads as. -/
theorem neg_ofDecimal (digits : Nat) (exponent : Int) :
    (ofDecimal false digits exponent).neg = ofDecimal true digits exponent := by
  unfold ofDecimal
  dsimp only
  split_ifs
  · exact neg_ofUnits 0
  · rfl
  · exact neg_ofUnits 0
  · exact neg_ofUnits _
  · exact neg_ofUnits _

theorem ofDecimal_of_unsigned {fits : Fits units}
    (reads : ofDecimal false digits exponent = .finite false units fits) (negative : Bool) :
    ofDecimal negative digits exponent = .finite negative units fits := by
  cases negative with
  | false => exact reads
  | true =>
    rw [← neg_ofDecimal, reads]
    rfl

theorem decimalLength_ten_mul (some : digits ≠ 0) :
    decimalLength (10 * digits) = decimalLength digits + 1 := by
  have longer : Nat.toDigits 10 (10 * digits + 0) = Nat.toDigits 10 digits ++ Nat.toDigits 10 0 :=
    (Nat.toDigits_append_toDigits (by decide) (Nat.pos_of_ne_zero some) (by decide)).symm
  rw [Nat.add_zero] at longer
  rw [decimalLength, longer, List.length_append]
  rfl

theorem tenTo_pos (n : Nat) : 0 < tenTo n := Nat.pow_pos (by decide)

theorem tenTo_succ (n : Nat) : tenTo (n + 1) = 10 * tenTo n := Nat.pow_succ'

/-- A zero at the end of the digits counts as much as one in the exponent. -/
theorem ofDecimal_ten_mul (negative : Bool) (digits : Nat) (exponent : Int) :
    ofDecimal negative (10 * digits) exponent = ofDecimal negative digits (exponent + 1) := by
  by_cases none : digits = 0
  · rw [none]
    rfl
  have some : 10 * digits ≠ 0 := by omega
  have size : ((decimalLength (10 * digits) : Nat) : Int) + exponent =
      decimalLength digits + (exponent + 1) := by
    rw [decimalLength_ten_mul none]
    omega
  unfold ofDecimal
  dsimp only
  rw [if_neg none, if_neg some, size]
  refine if_congr Iff.rfl rfl (if_congr Iff.rfl rfl ?_)
  rcases lt_trichotomy exponent (-1) with below | rfl | above
  · -- one factor less below the line
    rw [if_neg (by omega), if_neg (by omega)]
    obtain ⟨n, rfl⟩ : ∃ n : Nat, exponent = -(n + 1 : Nat) := ⟨(-exponent - 1).toNat, by omega⟩
    have left : (- -((n + 1 : Nat) : Int)).toNat = n + 1 := by omega
    have right : (-(-((n + 1 : Nat) : Int) + 1)).toNat = n := by omega
    rw [left, right, tenTo_succ, Nat.mul_assoc, ofRatio, nearest_mul_mul (by decide), ofRatio]
  · rw [if_neg (by decide), if_pos (by decide), ofRatio, ofRatio, Nat.mul_assoc]
    have left : tenTo (- -(1 : Int)).toNat = 10 * 1 := rfl
    have right : tenTo (-1 + 1 : Int).toNat = 1 := rfl
    rw [left, right, nearest_mul_mul (by decide), Nat.mul_one]
  · rw [if_pos (by omega), if_pos (by omega)]
    obtain ⟨n, rfl⟩ : ∃ n : Nat, exponent = n := ⟨exponent.toNat, by omega⟩
    have right : ((n : Int) + 1).toNat = n + 1 := by omega
    rw [Int.toNat_natCast, right, tenTo_succ, Nat.mul_left_comm digits, ← Nat.mul_assoc 10]

/-- Any number of zeros can be moved. -/
theorem ofDecimal_tenTo_mul (negative : Bool) (digits count : Nat) (exponent : Int) :
    ofDecimal negative (tenTo count * digits) exponent =
      ofDecimal negative digits (exponent + count) := by
  induction count generalizing exponent with
  | zero =>
    have one : tenTo 0 = 1 := rfl
    rw [one, Nat.one_mul, Int.natCast_zero, Int.add_zero]
  | succ count ih =>
    rw [tenTo_succ, Nat.mul_assoc, ofDecimal_ten_mul, ih]
    congr 1
    omega

theorem ofDecimal_dropZeros (negative : Bool) (fuel : Nat) (d : Nat × Int) :
    ofDecimal negative (dropZeros fuel d).1 (dropZeros fuel d).2 = ofDecimal negative d.1 d.2 := by
  induction fuel generalizing d with
  | zero => rfl
  | succ fuel ih =>
    obtain ⟨digits, place⟩ := d
    rw [dropZeros]
    split
    next zero =>
      rw [ih]
      have whole : 10 * (digits / 10) = digits := by omega
      dsimp only
      rw [← ofDecimal_ten_mul, whole]
    next => rfl

/-! ## The chosen decimal -/

theorem eq_of_ofUnits {s : Bool} {u : Nat} {fits : Fits u}
    (h : ofUnits negative units = .finite s u fits) : s = negative := by
  unfold ofUnits at h
  split at h
  · exact (Number.finite.inj h).1.symm
  · cases h

theorem sign_of_ofDecimal {s : Bool} {fits : Fits units}
    (h : ofDecimal negative digits exponent = .finite s units fits) : s = negative := by
  unfold ofDecimal at h
  dsimp only at h
  split_ifs at h
  · exact eq_of_ofUnits h
  · exact eq_of_ofUnits h
  · exact eq_of_ofUnits h
  · exact eq_of_ofUnits h

theorem of_readsBack (h : readsBack units digits exponent = true) (fits : Fits units) :
    ofDecimal false digits exponent = .finite false units fits := by
  unfold readsBack at h
  split at h
  next s found fits' reads =>
    obtain rfl := sign_of_ofDecimal reads
    obtain rfl : found = units := by simpa using h
    exact reads
  next => cases h

theorem of_onGrid {tie : Tie} {place : Int} {d : Nat × Int} (h : onGrid tie units place = some d)
    (fits : Fits units) : ofDecimal false d.1 d.2 = .finite false units fits := by
  unfold onGrid at h
  dsimp only at h
  -- whichever neighbour is looked at first, the chosen one has been seen to read back
  split_ifs at h
  all_goals
    obtain rfl := Option.some.inj h
    exact of_readsBack (by assumption) fits

/-- A decimal of no extreme size is a ratio. -/
theorem ofDecimal_eq_ofRatio {places : Nat} (some : digits ≠ 0) (fraction : 0 < places)
    (most : decimalLength digits ≤ places + 310) (least : places ≤ decimalLength digits + 330) :
    ofDecimal negative digits (-places) = ofRatio negative (digits * unit) (tenTo places) := by
  have count : (- -(places : Int)).toNat = places := by omega
  unfold ofDecimal
  dsimp only
  rw [if_neg some, if_neg (by omega), if_neg (by omega), if_neg (by omega), count]

theorem pow_five_mul_twoTo (units places : Nat) :
    units * Nat.pow 5 places * twoTo places = tenTo places * units := by
  have ten : Nat.pow 5 places * twoTo places = tenTo places := (Nat.mul_pow 5 2 places).symm
  rw [Nat.mul_assoc, ten, Nat.mul_comm]

theorem pow_five_pos (n : Nat) : 0 < Nat.pow 5 n := Nat.pow_pos (by decide)

theorem decimalLength_exact (fits : Fits units) (some : units ≠ 0) :
    decimalLength (units * Nat.pow 5 unitExponent) ≤ unitExponent + 310 ∧
      unitExponent ≤ decimalLength (units * Nat.pow 5 unitExponent) + 330 := by
  have most : decimalLength (units * Nat.pow 5 unitExponent) ≤ 1384 := by
    rw [decimalLength, Nat.length_toDigits_le_iff (by decide) (by decide)]
    calc units * Nat.pow 5 unitExponent ≤ limit * Nat.pow 5 unitExponent :=
          Nat.mul_le_mul_right _ fits.1.le
      _ < 10 ^ 1384 := by decide +kernel
  have least : ¬ decimalLength (units * Nat.pow 5 unitExponent) ≤ 743 := by
    rw [decimalLength, Nat.length_toDigits_le_iff (by decide) (by decide), Nat.not_lt]
    calc 10 ^ 743 ≤ Nat.pow 5 unitExponent := by decide +kernel
      _ ≤ units * Nat.pow 5 unitExponent := Nat.le_mul_of_pos_left _ (Nat.pos_of_ne_zero some)
  have places : unitExponent = 1074 := rfl
  omega

/-- The exact value of a double, a whole number of units, reads back. -/
theorem ofDecimal_exact (fits : Fits units) (some : units ≠ 0) :
    ofDecimal false (units * Nat.pow 5 unitExponent) (-unitExponent) =
      .finite false units fits := by
  have digits : units * Nat.pow 5 unitExponent ≠ 0 :=
    Nat.mul_ne_zero some (pow_five_pos unitExponent).ne'
  obtain ⟨most, least⟩ := decimalLength_exact fits some
  have back : nearest (units * Nat.pow 5 unitExponent * unit) (tenTo unitExponent) = units := by
    rw [unit, pow_five_mul_twoTo]
    exact nearest_mul_self (tenTo_pos _) fits.2
  rw [ofDecimal_eq_ofRatio digits (by decide) most least, ofRatio, back, ofUnits, dif_pos fits]

/-- The chosen decimal comes from a grid, or is the exact value. -/
theorem shortest_cases (tie : Tie) (units : Nat) :
    (∃ place d, onGrid tie units place = some d ∧ shortest tie units = dropZeros 17 d) ∨
      shortest tie units = (units * Nat.pow 5 unitExponent, -(unitExponent : Int)) := by
  unfold shortest
  generalize units * Nat.pow 5 unitExponent = expansion
  dsimp only
  cases chosen : (List.range 17).findSome? fun (n : Nat) =>
      onGrid tie units (leadingPlace units - n) with
  | none => exact .inr rfl
  | some found =>
    obtain ⟨n, _, grid⟩ := List.exists_of_findSome?_eq_some chosen
    exact .inl ⟨_, found, grid, rfl⟩

/-- The decimal that is chosen for a double reads back. -/
theorem ofDecimal_shortest (negative : Bool) (tie : Tie) (fits : Fits units) (some : units ≠ 0) :
    ofDecimal negative (shortest tie units).1 (shortest tie units).2 =
      .finite negative units fits := by
  refine ofDecimal_of_unsigned ?_ negative
  rcases shortest_cases tie units with ⟨place, d, grid, chosen⟩ | chosen
  · rw [chosen, ofDecimal_dropZeros]
    exact of_onGrid grid fits
  · rw [chosen]
    exact ofDecimal_exact fits some

theorem shortest_ne_zero (tie : Tie) (fits : Fits units) (some : units ≠ 0) :
    (shortest tie units).1 ≠ 0 := by
  intro none
  have reads := ofDecimal_shortest false tie fits some
  rw [none, ofDecimal, if_pos rfl, zeroOf, ofUnits] at reads
  split at reads
  · exact some (Number.finite.inj reads).2.symm
  · cases reads

end Number

end PlanNetwork
