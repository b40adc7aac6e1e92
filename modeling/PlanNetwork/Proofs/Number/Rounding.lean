/-
# Rounding

A ratio is rounded to a multiple of the spacing at its size. Among the doubles this changes
nothing: a double that a ratio equals is what it is rounded to, and a double that a ratio is
not below is not passed by rounding it down. So a sum of numbers that are not negative is at
least as large as each of them, however often it was rounded on the way.
-/

import Mathlib.Data.Nat.Log
import Mathlib.Tactic.Ring
import PlanNetwork.Proofs.Number

namespace PlanNetwork

namespace Number

variable {a g n num den : Nat}

theorem spacing_pos (n : Nat) : 0 < spacing n := twoTo_pos _

/-- A multiple of the spacing that the ratio reaches is not passed. -/
theorem le_nearest (positive : 0 < den) (grid : spacing (num / den) ∣ g) (le : den * g ≤ num) :
    g ≤ nearest num den := by
  have step : 0 < spacing (num / den) := spacing_pos _
  obtain ⟨k, rfl⟩ := grid
  have reached : k ≤ num / (den * spacing (num / den)) := by
    rw [Nat.le_div_iff_mul_le (Nat.mul_pos positive step)]
    calc k * (den * spacing (num / den)) = den * (spacing (num / den) * k) := by ring
      _ ≤ num := le
  have down : k * spacing (num / den) ≤ num / (den * spacing (num / den)) * spacing (num / den) :=
    Nat.mul_le_mul_right _ reached
  rw [Nat.mul_comm] at down
  unfold nearest
  dsimp only
  split
  · exact down.trans (Nat.mul_le_mul_right _ (Nat.le_succ _))
  · exact down

/-- What a double reaches it reaches on the grid of a larger number. -/
theorem exists_on_grid (double : spacing a ∣ a) (le : a ≤ n) :
    ∃ g, spacing n ∣ g ∧ a ≤ g ∧ g ≤ n := by
  by_cases size : a.log2 = n.log2
  · refine ⟨a, ?_, Nat.le_refl a, le⟩
    rwa [spacing, size] at double
  · -- a power of two stands between the two
    have some : n ≠ 0 := by
      rintro rfl
      obtain rfl := Nat.le_zero.mp le
      exact size rfl
    have order : a.log2 ≤ n.log2 := by
      rw [Nat.log2_eq_log_two, Nat.log2_eq_log_two]
      exact Nat.log_mono_right le
    refine ⟨2 ^ n.log2, Nat.pow_dvd_pow 2 (Nat.sub_le _ 52), ?_, Nat.log2_self_le some⟩
    calc a ≤ 2 ^ (a.log2 + 1) := Nat.lt_log2_self.le
      _ ≤ 2 ^ n.log2 := Nat.pow_le_pow_right (by decide) (by omega)

/-- Rounding down does not pass a double. -/
theorem le_nearest_one (double : spacing a ∣ a) (le : a ≤ n) : a ≤ nearest n 1 := by
  obtain ⟨g, grid, above, below⟩ := exists_on_grid double le
  rw [← Nat.div_one n] at grid
  exact above.trans (le_nearest Nat.one_pos grid (by omega))

/-- What is a double stays as it is. -/
theorem nearest_mul_self (positive : 0 < den) (double : spacing a ∣ a) :
    nearest (den * a) den = a := by
  obtain ⟨k, shape⟩ := double
  have whole : den * a / (den * spacing a) = k := by
    rw [Nat.mul_div_mul_left _ _ positive]
    nth_rewrite 1 [shape]
    exact Nat.mul_div_cancel_left k (spacing_pos a)
  have rest : den * a % (den * spacing a) = 0 := by
    rw [Nat.mul_mod_mul_left]
    nth_rewrite 1 [shape]
    rw [Nat.mul_mod_right, Nat.mul_zero]
  have some : den * spacing a ≠ 0 := (Nat.mul_pos positive (spacing_pos a)).ne'
  unfold nearest
  simp only [Nat.mul_div_cancel_left a positive, whole, rest]
  rw [if_neg (by omega), Nat.mul_comm]
  exact shape.symm

/-- Only the ratio counts. -/
theorem nearest_mul_mul {k : Nat} (positive : 0 < k) (num den : Nat) :
    nearest (k * num) (k * den) = nearest num den := by
  unfold nearest
  simp only [Nat.mul_div_mul_left _ _ positive, Nat.mul_assoc, Nat.mul_mod_mul_left]
  generalize den * spacing (num / den) = step
  have scaled (x y : Nat) : k * x < 2 * (k * y) ↔ x < 2 * y := by
    rw [Nat.mul_left_comm]
    exact Nat.mul_lt_mul_left positive
  have scaled' (x y : Nat) : 2 * (k * y) = k * x ↔ 2 * y = x := by
    rw [Nat.mul_left_comm]
    exact Nat.mul_right_inj positive.ne'
  simp only [scaled, scaled']

/-! ## Adding what is not negative -/

variable {x y : Number} {xs : List Number}

theorem position_infinite_sign : signed true limit < 0 ∧ 0 < signed false limit := by
  have positive : 0 < limit := twoTo_pos _
  generalize limit = last at positive
  simp only [signed, if_true, Bool.false_eq_true, if_false]
  omega

theorem position_zeroOf (negative : Bool) : (zeroOf negative).position = some 0 := by
  have fits : Fits 0 := ⟨twoTo_pos _, Nat.dvd_zero _⟩
  have same : ofUnits negative 0 = .finite negative 0 fits := dif_pos fits
  rw [zeroOf, same]
  cases negative <;> rfl

theorem zero_le_iff : zero.le x = true ↔ ∃ place, x.position = some place ∧ 0 ≤ place := by
  have origin : zero.position = some 0 := position_zeroOf false
  simp [le_iff, origin]

theorem not_zero_le_nan : ¬ zero.le nan = true := by
  rw [zero_le_iff]
  rintro ⟨_, here, _⟩
  cases here

theorem le_self (h : zero.le x = true) : x.le x = true := by
  obtain ⟨place, here, _⟩ := zero_le_iff.mp h
  exact le_iff.mpr ⟨place, place, here, here, Int.le_refl place⟩

/-- An infinity that is not negative is positive. -/
theorem eq_false_of_zero_le {negative : Bool} (h : zero.le (infinite negative) = true) :
    negative = false := by
  obtain ⟨place, here, above⟩ := zero_le_iff.mp h
  obtain rfl := Option.some.inj here
  cases negative with
  | false => rfl
  | true => exact absurd above (Int.not_le.mpr position_infinite_sign.1)

/-- Past the largest double there is an infinity, which is past all of them as well. -/
theorem exists_position_ofUnits (fits : Fits a) (le : a ≤ n) :
    ∃ place, (ofUnits false n).position = some place ∧ (a : Int) ≤ place := by
  by_cases double : Fits n
  · refine ⟨n, ?_, Int.ofNat_le.mpr le⟩
    rw [ofUnits, dif_pos double]
    rfl
  · refine ⟨signed false limit, ?_, (@position_finite_lt false a fits).2.le⟩
    rw [ofUnits, dif_neg double]
    rfl

theorem add_comm (x y : Number) : x.add y = y.add x := by
  cases x with
  | nan => cases y <;> rfl
  | infinite s =>
    cases y with
    | nan => rfl
    | infinite t => cases s <;> cases t <;> rfl
    | finite t b fits => rfl
  | finite s a fits =>
    cases y with
    | nan => rfl
    | infinite t => rfl
    | finite t b fits => simp only [add, Int.add_comm, Bool.and_comm]

/-- Adding a number that is not negative does not make another one smaller. -/
theorem le_add (left : zero.le x = true) (right : zero.le y = true) : x.le (x.add y) = true := by
  cases x with
  | nan => exact absurd left not_zero_le_nan
  | infinite s =>
    obtain rfl := eq_false_of_zero_le left
    have sum : (infinite false).add y = infinite false := by
      cases y with
      | nan => exact absurd right not_zero_le_nan
      | infinite t =>
        obtain rfl := eq_false_of_zero_le right
        rfl
      | finite t b fits => rfl
    rw [sum]
    exact le_self left
  | finite s a fits =>
    cases y with
    | nan => exact absurd right not_zero_le_nan
    | infinite t =>
      obtain rfl := eq_false_of_zero_le right
      exact le_iff.mpr ⟨_, _, rfl, rfl, (position_finite_lt fits).2.le⟩
    | finite t b fits' =>
      obtain ⟨_, here, above⟩ := zero_le_iff.mp left
      obtain ⟨_, there, above'⟩ := zero_le_iff.mp right
      obtain rfl := Option.some.inj here
      obtain rfl := Option.some.inj there
      have size : (signed s a).natAbs = a := by cases s <;> simp [signed]
      unfold add
      dsimp only
      generalize place : signed s a = p at above size
      generalize signed t b = q at above'
      split
      next cancel => exact le_iff.mpr ⟨p, 0, congrArg some place, position_zeroOf _, by omega⟩
      next more =>
        -- the exact sum is positive and at least `a`
        have sign : decide (p + q < 0) = false := by simp; omega
        have reached : a ≤ (p + q).natAbs := by omega
        obtain ⟨sum, rounded, above⟩ :=
          exists_position_ofUnits fits (le_nearest_one fits.2 reached)
        rw [sign]
        exact le_iff.mpr ⟨p, sum, congrArg some place, rounded, by omega⟩

/-- The sum of numbers that are not negative is not below any of them. -/
theorem le_foldl_add (start : zero.le x = true) (all : ∀ y ∈ xs, zero.le y = true) :
    x.le (xs.foldl add x) = true ∧ ∀ y ∈ xs, y.le (xs.foldl add x) = true := by
  induction xs generalizing x with
  | nil => exact ⟨le_self start, List.forall_mem_nil _⟩
  | cons y rest ih =>
    obtain ⟨head, others⟩ := List.forall_mem_cons.mp all
    have first : x.le (x.add y) = true := le_add start head
    have second : y.le (x.add y) = true := add_comm y x ▸ le_add head start
    obtain ⟨grown, each⟩ := ih (le_trans start first) others
    exact ⟨le_trans first grown, List.forall_mem_cons.mpr ⟨le_trans second grown, each⟩⟩

theorem le_sum (all : ∀ y ∈ xs, zero.le y = true) :
    zero.le (sum xs) = true ∧ ∀ y ∈ xs, y.le (sum xs) = true := by
  have start : zero.le (zeroOf true) = true :=
    zero_le_iff.mpr ⟨0, position_zeroOf true, Int.le_refl 0⟩
  obtain ⟨grown, each⟩ := le_foldl_add start all
  exact ⟨le_trans start grown, each⟩

end Number

end PlanNetwork
