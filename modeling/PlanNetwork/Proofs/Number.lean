/-
# Numbers as bounds of times

A finite double is a real number, given by its count of units. The infinities
bound nothing on their own side and everything on the other, and what is not a
number is no bound at all. Comparing two doubles says which of them is the
tighter bound, and the larger and the smaller of two are the bounds that both
of them are together.
-/

import Mathlib.Data.Real.Basic
import PlanNetwork.Duration.Basic

namespace PlanNetwork

namespace Number

variable {x y : Number} {d : ℝ}

/-- The number is a lower bound of `d`. -/
def AtMost : Number → ℝ → Prop
  | .nan, _ => False
  | .infinite negative, _ => negative = true
  | .finite negative units _, d => (signed negative units : ℝ) ≤ d * unit

/-- The number is an upper bound of `d`. -/
def AtLeast : Number → ℝ → Prop
  | .nan, _ => False
  | .infinite negative, _ => negative = false
  | .finite negative units _, d => d * unit ≤ (signed negative units : ℝ)

/-! ## Comparing -/

theorem compareBy_eq_true_iff {related : Int → Int → Bool} :
    compareBy related x y = true ↔
      ∃ a b, x.position = some a ∧ y.position = some b ∧ related a b = true := by
  unfold compareBy
  cases x.position <;> cases y.position <;> simp

theorem le_iff : x.le y = true ↔ ∃ a b, x.position = some a ∧ y.position = some b ∧ a ≤ b := by
  simp [le, compareBy_eq_true_iff]

theorem lt_iff : x.lt y = true ↔ ∃ a b, x.position = some a ∧ y.position = some b ∧ a < b := by
  simp [lt, compareBy_eq_true_iff]

theorem equals_iff : x.equals y = true ↔ ∃ a, x.position = some a ∧ y.position = some a := by
  simp only [equals, compareBy_eq_true_iff, decide_eq_true_eq]
  constructor
  · rintro ⟨a, _, left, right, rfl⟩
    exact ⟨a, left, right⟩
  · rintro ⟨a, left, right⟩
    exact ⟨a, a, left, right, rfl⟩

theorem isNaN_eq_false_of_le (h : x.le y = true) : x.isNaN = false ∧ y.isNaN = false := by
  obtain ⟨a, b, left, right, _⟩ := le_iff.mp h
  simp [isNaN, left, right]

theorem le_trans {z : Number} (first : x.le y = true) (second : y.le z = true) :
    x.le z = true := by
  obtain ⟨a, b, left, mid, ab⟩ := le_iff.mp first
  obtain ⟨b', c, mid', right, bc⟩ := le_iff.mp second
  obtain rfl : b = b' := Option.some.inj (mid.symm.trans mid')
  exact le_iff.mpr ⟨a, c, left, right, Int.le_trans ab bc⟩

theorem le_of_lt (h : x.lt y = true) : x.le y = true := by
  obtain ⟨a, b, left, right, less⟩ := lt_iff.mp h
  exact le_iff.mpr ⟨a, b, left, right, Int.le_of_lt less⟩

/-- Of two numbers one is at most the other. -/
theorem le_of_lt_eq_false (hx : x.isNaN = false) (hy : y.isNaN = false) (h : x.lt y = false) :
    y.le x = true := by
  obtain ⟨a, left⟩ := Option.isSome_iff_exists.mp (by simpa [isNaN] using hx : x.position.isSome)
  obtain ⟨b, right⟩ := Option.isSome_iff_exists.mp (by simpa [isNaN] using hy : y.position.isSome)
  refine le_iff.mpr ⟨b, a, right, left, Int.not_lt.mp fun less => ?_⟩
  rw [lt_iff.mpr ⟨a, b, left, right, less⟩] at h
  cases h

/-- Of two numbers one is below the other unless it is at least that. -/
theorem lt_of_le_eq_false (hx : x.isNaN = false) (hy : y.isNaN = false) (h : x.le y = false) :
    y.lt x = true := by
  obtain ⟨a, left⟩ := Option.isSome_iff_exists.mp (by simpa [isNaN] using hx : x.position.isSome)
  obtain ⟨b, right⟩ := Option.isSome_iff_exists.mp (by simpa [isNaN] using hy : y.position.isSome)
  refine lt_iff.mpr ⟨b, a, right, left, Int.not_le.mp fun above => ?_⟩
  rw [le_iff.mpr ⟨a, b, left, right, above⟩] at h
  cases h

/-- What is less is not as well at least. -/
theorem not_le_of_lt (less : x.lt y = true) : y.le x = false := by
  obtain ⟨a, b, left, right, ab⟩ := lt_iff.mp less
  rw [Bool.eq_false_iff]
  intro le
  obtain ⟨b', a', right', left', ba⟩ := le_iff.mp le
  obtain rfl := Option.some.inj (left.symm.trans left')
  obtain rfl := Option.some.inj (right.symm.trans right')
  exact absurd ab (Int.not_lt.mpr ba)

theorem le_of_equals (h : x.equals y = true) : x.le y = true ∧ y.le x = true := by
  obtain ⟨a, left, right⟩ := equals_iff.mp h
  have here := Int.le_refl a
  exact ⟨le_iff.mpr ⟨a, a, left, right, here⟩, le_iff.mpr ⟨a, a, right, left, here⟩⟩

/-- Finite doubles stand between the infinities. -/
theorem position_finite_lt {negative : Bool} {units : Nat} (fits : Fits units) :
    signed true limit < signed negative units ∧ signed negative units < signed false limit := by
  have below : units < limit := fits.1
  generalize limit = last at below
  cases negative <;> simp only [signed, if_true, Bool.false_eq_true, if_false] <;> omega

theorem twoTo_pos (n : Nat) : 0 < twoTo n := Nat.two_pow_pos n

theorem position_infinite_lt : signed true limit < signed false limit := by
  have positive : 0 < limit := twoTo_pos _
  generalize limit = last at positive
  simp only [signed, if_true, Bool.false_eq_true, if_false]
  omega

/-! ## Bounding -/

/-- What is at most a lower bound is a lower bound. -/
theorem AtMost.of_le (h : y.AtMost d) (le : x.le y = true) : x.AtMost d := by
  obtain ⟨a, b, left, right, ab⟩ := le_iff.mp le
  cases x with
  | nan => cases left
  | infinite lower =>
    cases lower with
    | true => rfl
    | false =>
      -- nothing that bounds from below is beyond the last double
      obtain rfl : signed false limit = a := Option.some.inj left
      cases y with
      | nan => cases right
      | infinite upper =>
        obtain rfl : upper = true := h
        obtain rfl : signed true limit = b := Option.some.inj right
        exact absurd position_infinite_lt (Int.not_lt.mpr ab)
      | finite negative units fits =>
        obtain rfl : signed negative units = b := Option.some.inj right
        exact absurd (position_finite_lt fits).2 (Int.not_lt.mpr ab)
  | finite negative units fits =>
    obtain rfl : signed negative units = a := Option.some.inj left
    cases y with
    | nan => cases right
    | infinite upper =>
      obtain rfl : upper = true := h
      obtain rfl : signed true limit = b := Option.some.inj right
      exact absurd (position_finite_lt fits).1 (Int.not_lt.mpr ab)
    | finite negative' units' fits' =>
      obtain rfl : signed negative' units' = b := Option.some.inj right
      exact (Int.cast_le.mpr ab).trans h

/-- What an upper bound is at most is an upper bound. -/
theorem AtLeast.of_le (h : x.AtLeast d) (le : x.le y = true) : y.AtLeast d := by
  obtain ⟨a, b, left, right, ab⟩ := le_iff.mp le
  cases y with
  | nan => cases right
  | infinite upper =>
    cases upper with
    | false => rfl
    | true =>
      -- nothing that bounds from above is before the first double
      obtain rfl : signed true limit = b := Option.some.inj right
      cases x with
      | nan => cases left
      | infinite lower =>
        obtain rfl : lower = false := h
        obtain rfl : signed false limit = a := Option.some.inj left
        exact absurd position_infinite_lt (Int.not_lt.mpr ab)
      | finite negative units fits =>
        obtain rfl : signed negative units = a := Option.some.inj left
        exact absurd (position_finite_lt fits).1 (Int.not_lt.mpr ab)
  | finite negative units fits =>
    obtain rfl : signed negative units = b := Option.some.inj right
    cases x with
    | nan => cases left
    | infinite lower =>
      obtain rfl : lower = false := h
      obtain rfl : signed false limit = a := Option.some.inj left
      exact absurd (position_finite_lt fits).2 (Int.not_lt.mpr ab)
    | finite negative' units' fits' =>
      obtain rfl : signed negative' units' = a := Option.some.inj left
      exact h.trans (Int.cast_le.mpr ab)

theorem atMost_congr (same : x.equals y = true) : x.AtMost d ↔ y.AtMost d :=
  ⟨fun h => h.of_le (le_of_equals same).2, fun h => h.of_le (le_of_equals same).1⟩

theorem atLeast_congr (same : x.equals y = true) : x.AtLeast d ↔ y.AtLeast d :=
  ⟨fun h => h.of_le (le_of_equals same).1, fun h => h.of_le (le_of_equals same).2⟩

theorem zero_eq_finite : ∃ fits, zero = .finite false 0 fits := by
  have fits : Fits 0 := ⟨twoTo_pos _, Nat.dvd_zero _⟩
  have same : ofUnits false 0 = .finite false 0 fits := dif_pos fits
  exact ⟨fits, same⟩

theorem unit_pos : (0 : ℝ) < unit := Nat.cast_pos.mpr (twoTo_pos _)

theorem atMost_zero : zero.AtMost d ↔ 0 ≤ d := by
  obtain ⟨fits, same⟩ := zero_eq_finite
  rw [same]
  show ((0 : Int) : ℝ) ≤ d * unit ↔ _
  rw [Int.cast_zero]
  exact mul_nonneg_iff_of_pos_right unit_pos

theorem atLeast_zero : zero.AtLeast d ↔ d ≤ 0 := by
  obtain ⟨fits, same⟩ := zero_eq_finite
  rw [same]
  show d * unit ≤ ((0 : Int) : ℝ) ↔ _
  rw [Int.cast_zero]
  exact ⟨fun h => nonpos_of_mul_nonpos_left h unit_pos,
    fun h => mul_nonpos_of_nonpos_of_nonneg h unit_pos.le⟩

theorem atLeast_infinity : infinity.AtLeast d := rfl

theorem atMost_negInfinity : (infinite true).AtMost d := rfl

/-- The larger of two lower bounds is both of them together. -/
theorem atMost_max (hx : x.isNaN = false) (hy : y.isNaN = false) :
    (x.max y).AtMost d ↔ x.AtMost d ∧ y.AtMost d := by
  unfold max
  rw [hx, if_neg Bool.false_ne_true]
  cases less : x.lt y with
  | true =>
    rw [if_pos rfl]
    exact ⟨fun h => ⟨h.of_le (le_of_lt less), h⟩, And.right⟩
  | false =>
    rw [if_neg Bool.false_ne_true]
    exact ⟨fun h => ⟨h, h.of_le (le_of_lt_eq_false hx hy less)⟩, And.left⟩

/-- The smaller of two upper bounds is both of them together. -/
theorem atLeast_min (hx : x.isNaN = false) (hy : y.isNaN = false) :
    (x.min y).AtLeast d ↔ x.AtLeast d ∧ y.AtLeast d := by
  unfold min
  rw [hx, if_neg Bool.false_ne_true]
  cases less : y.lt x with
  | true =>
    rw [if_pos rfl]
    exact ⟨fun h => ⟨h.of_le (le_of_lt less), h⟩, And.right⟩
  | false =>
    rw [if_neg Bool.false_ne_true]
    exact ⟨fun h => ⟨h, h.of_le (le_of_lt_eq_false hy hx less)⟩, And.left⟩

theorem isNaN_max (hx : x.isNaN = false) (hy : y.isNaN = false) : (x.max y).isNaN = false := by
  unfold max
  rw [hx, if_neg Bool.false_ne_true]
  split <;> assumption

theorem isNaN_min (hx : x.isNaN = false) (hy : y.isNaN = false) : (x.min y).isNaN = false := by
  unfold min
  rw [hx, if_neg Bool.false_ne_true]
  split <;> assumption

-- elaboration must not go on to count the units of a number
attribute [irreducible] AtMost AtLeast

end Number

end PlanNetwork
