/-
# The user's constraints
-/

import PlanNetwork.Program.Traversal

namespace PlanNetwork

namespace Build

/-- Make a constraint one of the user's. -/
def adoptConstraint (id : TemporalId) : Build Unit :=
  modify fun p => { p with
    userConstraints := p.userConstraints.insert id
    traversal := none }

/-- A new user constraint, where both its events exist. -/
def addConstraint (start finish : EventId) (spec : DurationSpec) : Build TemporalId := do
  let id ← onNetwork (Edit.atomically (Edit.addTemporal start finish spec))
  adoptConstraint id
  return id

/-- Make a constraint that is there one of the user's, and let it apply where
both its events exist. -/
def registerConstraint (id : TemporalId) : Build Unit := do
  let constraint ← Attempt.read (·.network.temporal id)
  if (← get).userConstraints.contains id then
    throw (.constraintRegistered constraint.identity.id)
  onNetwork (Edit.atomically (Edit.refreshTemporal id))
  adoptConstraint id

/-- A new user constraint from the first to the last event of the plan. -/
def addOverallConstraint (spec : DurationSpec) : Build TemporalId := do
  let first ← Attempt.read Program.firstEvent
  let last ← Attempt.read Program.lastEvent
  addConstraint first last spec

/-- Drop a constraint from the user's and from every episode. -/
def removeConstraint (id : TemporalId) : Build Unit := do
  onNetwork (Edit.atomically (Edit.detachTemporal id))
  modify fun p => { p with
    userConstraints := p.userConstraints.erase id
    traversal := none }

/-- A new chance constraint of the program. -/
def addChance (constraints : List ConstraintId) (risk : Number) : Build ChanceId := do
  let id ← onNetwork (Edit.addChance constraints risk)
  modify fun p => { p with chances := p.chances.insert id }
  return id

/-- Make a chance constraint that is there one of the program's. -/
def registerChance (id : ChanceId) : Build Unit := do
  let constraint ← Attempt.read (·.network.chance id)
  if (← get).chances.contains id then throw (.chanceRegistered constraint.identity.id)
  modify fun p => { p with chances := p.chances.insert id }

/-- Let a state constraint hold all through the plan. -/
def addOverallState (id : StateConstraintId) : Build Unit := do
  match (← get).plan with
  | none => throw .planMissing
  | some plan =>
    onNetwork (Edit.attachState .overall plan id)
    invalidate

end Build

end PlanNetwork
