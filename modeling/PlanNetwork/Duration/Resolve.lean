/-
# From specifications to bounds

The executive's durations and those of an unknown distribution need both
bounds, in order. A probabilistic duration needs a distribution, which then
gives the bounds, whatever the specification says about them.
-/

import PlanNetwork.Fault

namespace PlanNetwork

/-- The distribution, if its parameters are in range. -/
def Distribution.validate (d : Distribution) : Except Fault Unit :=
  if d.isValid then .ok () else .error (.distributionInvalid d)

/-- Nothing, if the bounds are in order. -/
def checkBounds (lower upper : Number) : Except Fault Unit :=
  if lower.le upper then .ok () else .error (.boundsReversed lower upper)

namespace DurationSpec

/-- Both bounds, in order. -/
def givenBounds (spec : DurationSpec) : Except Fault (Number × Number) :=
  match spec.lower, spec.upper with
  | some lower, some upper => (checkBounds lower upper).map fun _ => (lower, upper)
  | _, _ => .error (.boundsMissing spec.kind)

/-- The bounds that the specification describes. -/
def resolve (spec : DurationSpec) : Except Fault Bounds :=
  match spec.kind with
  | .controllable =>
    spec.givenBounds.map fun (lower, upper) => ⟨.controllable, lower, upper, none⟩
  | .bounded =>
    spec.givenBounds.map fun (lower, upper) =>
      ⟨.bounded, lower, upper, some (.unknown lower upper)⟩
  | .probabilistic =>
    match spec.distribution with
    | none => .error .distributionMissing
    | some d => d.validate.map fun _ => ⟨.probabilistic, d.bounds.1, d.bounds.2, some d⟩

end DurationSpec

end PlanNetwork
