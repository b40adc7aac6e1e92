/-
# Constraints

A temporal constraint bounds the time between two events. A state constraint
relates the values of some state variables, either by fixing each of them or
by a linear relation. A chance constraint bounds the probability that one of
several constraints is violated.
-/

import PlanNetwork.Choice.Basic
import PlanNetwork.State.Variable
import PlanNetwork.Support.Guard

namespace PlanNetwork

/-- A bound on the time between two events. -/
structure TemporalConstraint where
  /-- Its identity. -/
  identity : Identity
  /-- When the constraint applies. -/
  guard : Guard
  /-- The event the time is counted from. -/
  start : EventId
  /-- The event the time is counted to. -/
  finish : EventId
  /-- The bounds. -/
  bounds : Bounds

/-- How the two sides of a linear constraint compare. -/
inductive Relation where
  /-- Less. -/
  | less
  /-- Less or equal. -/
  | lessEqual
  /-- Equal. -/
  | equal
  /-- Greater. -/
  | greater
  /-- Greater or equal. -/
  | greaterEqual
deriving DecidableEq

namespace Relation

/-- All relations. -/
def all : List Relation := [less, lessEqual, equal, greater, greaterEqual]

/-- The sign for it. -/
def text : Relation → String
  | .less => "<"
  | .lessEqual => "<="
  | .equal => "="
  | .greater => ">"
  | .greaterEqual => ">="

/-- The relation that a sign stands for. -/
def ofText (sign : String) : Except Fault Relation :=
  match all.find? (·.text == sign) with
  | some relation => .ok relation
  | none => .error (.relationUnknown sign)

end Relation

/-- What a state constraint says of its variables. -/
inductive StateCondition where
  /-- Each variable has the value at its position. -/
  | assignment (values : List StateValue)
  /-- The weighted sum of the variables compares with a number. -/
  | linear (coefficients : List Number) (relation : Relation) (bound : Number)

/-- A condition on state variables. -/
structure StateConstraint where
  /-- Its identity. -/
  identity : Identity
  /-- When the constraint applies. -/
  guard : Guard
  /-- The variables, none of them twice. -/
  scope : List VariableId
  /-- What it says of them. -/
  condition : StateCondition

/-- A bound on the risk of violating other constraints. -/
structure ChanceConstraint where
  /-- Its identity. -/
  identity : Identity
  /-- The greatest admissible probability of a violation. -/
  risk : Number
  /-- The constraints it ranges over. -/
  constraints : List ConstraintId

end PlanNetwork
