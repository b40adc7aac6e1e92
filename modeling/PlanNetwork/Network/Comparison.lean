/-
# Comparing and printing constraints

Two events count as the same when their ids or their names agree. Constraints
relate the same events when both their endpoints do and kind and support
agree; they are equivalent when the bounds agree as well.
-/

import PlanNetwork.Network.Basic

namespace PlanNetwork

namespace Network

/-- Whether two events have the same id or the same name. -/
def sameEvent (n : Network) (a b : EventId) : Except Fault Bool := do
  let first ← n.event a
  let second ← n.event b
  return first.identity.id == second.identity.id || first.identity.name == second.identity.name

/-- Whether two constraints relate the same events, are of one kind and apply
under the same support. -/
def constrainSameEvents (n : Network) (a b : TemporalId) : Except Fault Bool := do
  let first ← n.temporal a
  let second ← n.temporal b
  if !(← n.sameEvent first.start second.start) then return false
  if !(← n.sameEvent first.finish second.finish) then return false
  return first.bounds.kind == second.bounds.kind &&
    first.guard.support.same second.guard.support

/-- Whether two constraints relate the same events and have the same bounds. -/
def areEquivalent (n : Network) (a b : TemporalId) : Except Fault Bool := do
  let first ← n.temporal a
  let second ← n.temporal b
  return (← n.constrainSameEvents a b) && first.bounds.same second.bounds

/-- Whether a constraint relates an event to itself. -/
def isSelfLoop (n : Network) (id : TemporalId) : Except Fault Bool := do
  let constraint ← n.temporal id
  n.sameEvent constraint.start constraint.finish

/-- The name of a state variable. -/
def quantityName (n : Network) (id : VariableId) : Except Fault String :=
  (n.quantity id).map (·.identity.name)

/-- One assignment in a formula. -/
def assignmentTerm (n : Network) (entry : VariableId × StateValue) : Except Fault String :=
  (n.quantityName entry.1).map fun name => name ++ "=" ++ entry.2.text ++ " "

/-- One product in a formula, with the sign of its coefficient. -/
def linearTerm (n : Network) (entry : VariableId × Number) : Except Fault String :=
  (n.quantityName entry.1).map fun name =>
    (if entry.2.lt .zero then "-" else "+") ++ entry.2.abs.text ++ "*" ++ name

/-- A state constraint as a formula. -/
def stateFormula (n : Network) (id : StateConstraintId) : Except Fault String := do
  let constraint ← n.state id
  match constraint.condition with
  | .assignment values =>
    let terms ← (constraint.scope.zip values).mapM n.assignmentTerm
    return String.join terms
  | .linear coefficients relation bound =>
    let terms ← (constraint.scope.zip coefficients).mapM n.linearTerm
    return String.join terms ++ " " ++ relation.text ++ " " ++ bound.text

end Network

end PlanNetwork
