/-
# Which probabilities are accepted

A choice has to say as many probabilities as it has values, and their sum must not be as far
from one as the tolerance. That is said of the sum alone. A sum that is not a number is not
far from one either, so it is accepted, and what is below zero may make up for what is above
one. Only if all of the probabilities are numbers that are not negative do they add up to one
within the tolerance, and then none is larger than the sum.
-/

import PlanNetwork.Proofs.Choice
import PlanNetwork.Proofs.Number.Rounding

namespace PlanNetwork

namespace Number

variable {x y : Number}

theorem isNaN_ofUnits (negative : Bool) (units : Nat) : (ofUnits negative units).isNaN = false := by
  unfold ofUnits
  split <;> rfl

theorem isNaN_add (number : x.isNaN = false) (finite : y.isFinite = true) :
    (x.add y).isNaN = false := by
  cases y with
  | nan => cases finite
  | infinite t => cases finite
  | finite t b fits =>
    cases x with
    | nan => cases number
    | infinite s => rfl
    | finite s a fits' =>
      unfold add
      dsimp only
      split
      · exact isNaN_ofUnits _ _
      · exact isNaN_ofUnits _ _

theorem isNaN_abs : x.abs.isNaN = x.isNaN := by
  cases x <;> rfl

theorem isNaN_eq_true : x.isNaN = true ↔ x = .nan := by
  cases x <;> simp [isNaN, position]

/-- The deviation from one. -/
def deviation (entries : List Number) : Number := ((sum entries).sub .one).abs

theorem isNaN_deviation {entries : List Number} :
    (deviation entries).isNaN = (sum entries).isNaN := by
  have finite : one.neg.isFinite = true := by decide +kernel
  rw [deviation, isNaN_abs, sub]
  cases given : (sum entries).isNaN with
  | true =>
    rw [isNaN_eq_true.mp given]
    rfl
  | false => exact isNaN_add given finite

end Number

namespace ChoiceSpec

variable {spec : ChoiceSpec} {tolerance : Number} {kind : Controllability} {entries : List Number}

theorem repeatedAfter?_eq_none_iff {domain : List String} :
    repeatedAfter? [] domain = none ↔ domain.Nodup :=
  ⟨fun none => (nodup_of_repeatedAfter? none).1, fun distinct =>
    repeatedAfter?_eq_none distinct nofun⟩

/-- What is checked about a choice. -/
theorem validate_eq_ok_iff : spec.validate tolerance = .ok kind ↔
    spec.kind = some kind ∧ spec.domain ≠ [] ∧ spec.domain.Nodup ∧
      (∀ entries ∈ spec.utilities, spec.fitsDomain entries = true) ∧
      ∀ entries ∈ spec.probabilities, spec.acceptsProbabilities tolerance entries = true := by
  rw [← repeatedAfter?_eq_none_iff, ← List.isEmpty_eq_false_iff]
  unfold validate
  cases spec.kind with
  | none => simp [throw, throwThe, MonadExceptOf.throw]
  | some selected =>
    cases spec.domain.isEmpty <;> cases repeatedAfter? [] spec.domain <;>
      cases spec.utilities <;> cases spec.probabilities <;>
      simp [bind, Except.bind, pure, Except.pure, throw, throwThe, MonadExceptOf.throw]
    -- what is left are the checks of the lists that are given
    all_goals split_ifs <;> simp [*]

/-- What is accepted has a sum that is near to one, or is not a number. -/
theorem acceptsProbabilities_iff (number : tolerance.isNaN = false) :
    spec.acceptsProbabilities tolerance entries = true ↔
      entries.length = spec.domain.length ∧
        ((Number.sum entries).isNaN = true ∨ (Number.deviation entries).lt tolerance = true) := by
  have far : tolerance.le (Number.deviation entries) = false ↔
      (Number.sum entries).isNaN = true ∨ (Number.deviation entries).lt tolerance = true := by
    rw [← Number.isNaN_deviation]
    cases given : (Number.deviation entries).isNaN with
    | true =>
      rw [Number.isNaN_eq_true.mp given]
      simp [Number.le, Number.compareBy, Number.position]
    | false =>
      simp only [Bool.false_eq_true, false_or]
      exact ⟨Number.lt_of_le_eq_false number given, Number.not_le_of_lt⟩
  rw [← far]
  simp [acceptsProbabilities, fitsDomain, Number.deviation]

/-- Let a choice with probabilities be accepted. Then there are as many of them as there are
values, and their sum differs from one by less than the tolerance, or is not a number. If all
of them are numbers and none is negative, then the sum is near to one, and none of them is
larger than the sum. -/
theorem accepted_probabilities (positive : Number.zero.lt tolerance = true)
    (given : spec.probabilities = some entries) (accepted : spec.validate tolerance = .ok kind) :
    entries.length = spec.domain.length ∧
      ((Number.sum entries).isNaN = true ∨ (Number.deviation entries).lt tolerance = true) ∧
      ((∀ x ∈ entries, Number.zero.le x = true) →
        (Number.deviation entries).lt tolerance = true ∧
          ∀ x ∈ entries, x.le (Number.sum entries) = true) := by
  have number : tolerance.isNaN = false :=
    (Number.isNaN_eq_false_of_le (Number.le_of_lt positive)).2
  obtain ⟨_, _, _, _, probabilities⟩ := validate_eq_ok_iff.mp accepted
  obtain ⟨count, near⟩ := (acceptsProbabilities_iff number).mp (probabilities entries given)
  refine ⟨count, near, fun all => ?_⟩
  obtain ⟨above, each⟩ := Number.le_sum all
  have sum : (Number.sum entries).isNaN = false := (Number.isNaN_eq_false_of_le above).2
  rw [sum] at near
  exact ⟨near.resolve_left Bool.false_ne_true, each⟩

/-- A choice between two values, with these probabilities. -/
def uncertain (first second : Number) : ChoiceSpec where
  domain := ["A", "B"]
  kind := some .probabilistic
  probabilities := some [first, second]

theorem validate_uncertain {first second : Number}
    (accepted : (uncertain first second).acceptsProbabilities tolerance [first, second] = true) :
    (uncertain first second).validate tolerance = .ok .probabilistic := by
  refine validate_eq_ok_iff.mpr ⟨rfl, nofun, (by decide : ["A", "B"].Nodup), nofun, ?_⟩
  rintro _ ⟨⟩
  exact accepted

/-- The sum of 0.3 and 0.7 is one. -/
theorem accepted_probabilities_tenths :
    let tolerance := Number.ofDecimal false 1 (-5)
    let entries := [Number.ofDecimal false 3 (-1), Number.ofDecimal false 7 (-1)]
    Number.zero.lt tolerance = true ∧ (∀ x ∈ entries, Number.zero.le x = true) ∧
      (Number.deviation entries).lt tolerance = true ∧
      ∀ x ∈ entries, x.le (Number.sum entries) = true := by
  intro tolerance entries
  have positive : Number.zero.lt tolerance = true := by decide +kernel
  have all : ∀ x ∈ entries, Number.zero.le x = true := by decide +kernel
  have accepted :
      (uncertain (.ofDecimal false 3 (-1)) (.ofDecimal false 7 (-1))).validate tolerance =
        .ok .probabilistic := validate_uncertain (by decide +kernel)
  exact ⟨positive, all, (accepted_probabilities positive rfl accepted).2.2 all⟩

/-- A probability that is not a number is accepted, and so are two and minus one. -/
theorem improper_probabilities_are_accepted :
    let tolerance := Number.ofDecimal false 1 (-5)
    let two := Number.ofDecimal false 2 0
    Number.zero.lt tolerance = true ∧
      ((uncertain .nan .one).validate tolerance = .ok .probabilistic ∧
        (Number.deviation [.nan, .one]).lt tolerance = false) ∧
      (uncertain two Number.one.neg).validate tolerance = .ok .probabilistic ∧
        two.le .one = false ∧ Number.zero.le Number.one.neg = false := by
  intro tolerance two
  exact ⟨by decide +kernel, ⟨validate_uncertain (by decide +kernel), by decide +kernel⟩,
    validate_uncertain (by decide +kernel), by decide +kernel, by decide +kernel⟩

end ChoiceSpec

end PlanNetwork
