/-
# Valid bounds

The bounds that a specification is resolved to are in order, and so are those
of the links that a composition makes. In order means that the lower bound is
at most the upper one as a number, so neither of them is what is not a number.
Who fixes the duration says how it is distributed.
-/

import PlanNetwork.Duration.Resolve

namespace PlanNetwork

/-- The lower bound is at most the upper one. -/
def Bounds.Ordered (b : Bounds) : Prop := b.lower.le b.upper = true

/-- The duration is distributed as it should be: not at all if the executive fixes it,
within the bounds if no more is known, and otherwise in a known way, which gives the
bounds. -/
def Bounds.Distributed (b : Bounds) : Prop :=
  match b.kind with
  | .controllable => b.distribution = none
  | .bounded => b.distribution = some (.unknown b.lower b.upper)
  | .probabilistic => ∃ d, b.distribution = some d ∧ d.isValid = true ∧
      d.bounds = (b.lower, b.upper)

/-- Bounds as they should be. -/
structure Bounds.Valid (b : Bounds) : Prop where
  /-- They are in order. -/
  ordered : b.Ordered
  /-- The duration is distributed as it should be. -/
  distributed : b.Distributed

theorem Bounds.valid_precedence_zero : (precedence .zero).Valid := by
  refine ⟨?_, rfl⟩
  unfold Ordered precedence
  decide +kernel

theorem Bounds.valid_precedence_infinity : (precedence .infinity).Valid := by
  refine ⟨?_, rfl⟩
  unfold Ordered precedence
  decide +kernel

/-- The executive's bounds may become any that are in order. -/
theorem Bounds.Valid.rebound {b : Bounds} (h : b.Valid) (kind : b.kind = .controllable)
    {lower upper : Number} (ordered : lower.le upper = true) :
    { b with lower, upper }.Valid := by
  refine ⟨ordered, ?_⟩
  have undistributed := h.distributed
  rw [Distributed, kind] at undistributed
  rwa [Distributed, kind]

theorem checkBounds_eq_ok_iff {lower upper : Number} {u : Unit} :
    checkBounds lower upper = .ok u ↔ lower.le upper = true := by
  unfold checkBounds
  split <;> simp_all

theorem Distribution.le_of_isValid {d : Distribution} (valid : d.isValid = true) :
    d.bounds.1.le d.bounds.2 = true := by
  cases d with
  | gaussian =>
    show Number.le (.infinite true) (.infinite false) = true
    decide +kernel
  | uniform => exact valid
  | unknown => exact valid

theorem DurationSpec.le_of_givenBounds {spec : DurationSpec} {given : Number × Number}
    (resolved : spec.givenBounds = .ok given) : given.1.le given.2 = true := by
  obtain ⟨_, lower, upper, _⟩ := spec
  cases lower with
  | none => cases resolved
  | some lower =>
    cases upper with
    | none => cases resolved
    | some upper =>
      unfold givenBounds at resolved
      dsimp only at resolved
      cases checked : checkBounds lower upper with
      | error => rw [checked] at resolved; cases resolved
      | ok =>
        rw [checked] at resolved
        cases resolved
        exact checkBounds_eq_ok_iff.mp checked

/-- What a specification is resolved to is valid. -/
theorem DurationSpec.valid_of_resolve {spec : DurationSpec} {b : Bounds}
    (resolved : spec.resolve = .ok b) : b.Valid := by
  unfold resolve at resolved
  cases kind : spec.kind with
  | controllable | bounded =>
    rw [kind] at resolved
    cases given : spec.givenBounds with
    | error => rw [given] at resolved; cases resolved
    | ok pair =>
      rw [given] at resolved
      cases resolved
      exact ⟨le_of_givenBounds given, rfl⟩
  | probabilistic =>
    rw [kind] at resolved
    cases described : spec.distribution with
    | none => rw [described] at resolved; cases resolved
    | some d =>
      rw [described] at resolved
      dsimp only at resolved
      cases valid : d.isValid with
      | false => simp [Distribution.validate, valid, Except.map] at resolved
      | true =>
        simp only [Distribution.validate, valid, Except.map, if_true, Except.ok.injEq] at resolved
        subst resolved
        exact ⟨Distribution.le_of_isValid valid, d, rfl, valid, rfl⟩

/-- A duration that is not constrained can be had. -/
theorem resolve_unconstrained :
    DurationSpec.unconstrained.resolve = .ok ⟨.controllable, .zero, .infinity, none⟩ := by
  have ordered : Number.zero.le .infinity = true := by decide +kernel
  simp only [DurationSpec.resolve, DurationSpec.unconstrained, DurationSpec.givenBounds,
    checkBounds, ordered, if_true, Except.map]

end PlanNetwork
