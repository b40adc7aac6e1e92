/-
# Durations

The time between two events is bounded. Who fixes it within the bounds is part
of the constraint: the executive, or the environment with or without a known
distribution.

A caller describes a duration by a specification, in which parts may be
missing; resolving it (in `Duration.Resolve`) gives the bounds.
-/

import PlanNetwork.Number.Text

namespace PlanNetwork

/-- Who fixes a duration. -/
inductive DurationKind where
  /-- The executive. -/
  | controllable
  /-- The environment, within the bounds. -/
  | bounded
  /-- The environment, by a known distribution. -/
  | probabilistic
deriving DecidableEq

/-- The word for it in messages and data. -/
def DurationKind.text : DurationKind → String
  | .controllable => "controllable"
  | .bounded => "uncontrollable_bounded"
  | .probabilistic => "uncontrollable_probabilistic"

/-- How a duration is distributed. -/
inductive Distribution where
  /-- A normal distribution. -/
  | gaussian (mean variance : Number)
  /-- All values between the bounds are equally likely. -/
  | uniform (lower upper : Number)
  /-- The values lie between the bounds, and no more is known. -/
  | unknown (lower upper : Number)
deriving DecidableEq

namespace Distribution

/-- The word for it in messages and data. -/
def text : Distribution → String
  | .gaussian .. => "gaussian"
  | .uniform .. => "uniform"
  | .unknown .. => "unknown_bounded"

/-- Whether the parameters are in range. -/
def isValid : Distribution → Bool
  | .gaussian _ variance => Number.zero.le variance
  | .uniform lower upper => lower.le upper
  | .unknown lower upper => lower.le upper

/-- The bounds that the distribution implies. -/
def bounds : Distribution → Number × Number
  | .gaussian .. => (.infinite true, .infinite false)
  | .uniform lower upper => (lower, upper)
  | .unknown lower upper => (lower, upper)

/-- Whether kind and parameters are equal, the parameters as numbers. -/
def same : Distribution → Distribution → Bool
  | .gaussian m v, .gaussian m' v' => m.equals m' && v.equals v'
  | .uniform l u, .uniform l' u' => l.equals l' && u.equals u'
  | .unknown l u, .unknown l' u' => l.equals l' && u.equals u'
  | _, _ => false

end Distribution

/-- What a caller says about a duration. -/
structure DurationSpec where
  /-- Who fixes it. -/
  kind : DurationKind := .controllable
  /-- The least duration. -/
  lower : Option Number := none
  /-- The greatest duration. -/
  upper : Option Number := none
  /-- How it is distributed. -/
  distribution : Option Distribution := none
deriving DecidableEq

/-- Any duration that is not negative, as the executive likes. -/
def DurationSpec.unconstrained : DurationSpec :=
  { lower := some .zero, upper := some .infinity }

/-- The bounds of a temporal constraint. -/
structure Bounds where
  /-- Who fixes the duration. -/
  kind : DurationKind
  /-- The least duration. -/
  lower : Number
  /-- The greatest duration. -/
  upper : Number
  /-- How it is distributed; only the environment's durations are. -/
  distribution : Option Distribution
deriving DecidableEq

namespace Bounds

/-- One event not before another, and at most `upper` later. -/
def precedence (upper : Number) : Bounds := ⟨.controllable, .zero, upper, none⟩

/-- Whether kind, bounds and distribution are equal, numbers as numbers. -/
def same (a b : Bounds) : Bool :=
  a.kind == b.kind && a.lower.equals b.lower && a.upper.equals b.upper &&
    match a.distribution, b.distribution with
    | none, none => true
    | some x, some y => x.same y
    | _, _ => false

end Bounds

end PlanNetwork
