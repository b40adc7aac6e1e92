/-
# Merging constraints

Controllable constraints that relate the same events are merged: the oldest
stays, with the intersection of all bounds, and the others are removed. A
constraint from an event to itself says nothing if it is controllable with a
lower bound of zero, and is removed; otherwise it cannot be met and is
refused, as are constraints whose bounds have no common value.

All of this is found out before anything is changed. Removing a constraint
may then still be refused, and what was done up to there stays done.
-/

import PlanNetwork.Program.Constraints

namespace PlanNetwork

/-- What merging has to do. -/
structure Merge where
  /-- The constraints to be removed. -/
  removed : OrdSet TemporalId
  /-- The bounds that others get. -/
  narrowed : OrdMap TemporalId (Number × Number)

namespace Merge

/-- Nothing to do. -/
def empty : Merge := ⟨∅, ∅⟩

/-- Intersect bounds with those of later constraints on the same events, which
are removed. -/
def intersect (n : Network) (id : TemporalId) (first : TemporalConstraint) :
    Number × Number → OrdSet TemporalId → List TemporalId →
      Except Fault ((Number × Number) × OrdSet TemporalId)
  | bounds, removed, [] => .ok (bounds, removed)
  | bounds, removed, other :: rest => do
    if removed.contains other then
      intersect n id first bounds removed rest
    else if !(← n.constrainSameEvents id other) then
      intersect n id first bounds removed rest
    else
      let second ← n.temporal other
      let lower := bounds.1.max second.bounds.lower
      let upper := bounds.2.min second.bounds.upper
      if upper.lt lower then
        throw (.boundsDisjoint first.identity.id second.identity.id)
      intersect n id first (lower, upper) (removed.insert other) rest

/-- What becomes of one constraint and of later ones on the same events. -/
def settle (n : Network) (m : Merge) (id : TemporalId) (later : List TemporalId) :
    Except Fault Merge := do
  let constraint ← n.temporal id
  let b := constraint.bounds
  if ← n.isSelfLoop id then
    if b.kind = .controllable ∧ b.lower.equals .zero then
      return { m with removed := m.removed.insert id }
    throw (.selfLoop constraint.identity.id b.lower b.upper)
  if b.kind ≠ .controllable then return m
  let ((lower, upper), removed) ← intersect n id constraint (b.lower, b.upper) m.removed later
  if lower.equals b.lower && upper.equals b.upper then
    return { m with removed }
  return ⟨removed, m.narrowed.insert id (lower, upper)⟩

/-- What is to be done about some constraints, oldest first. -/
def plan (n : Network) (m : Merge) : List TemporalId → Except Fault Merge
  | [] => .ok m
  | id :: later => do
    if m.removed.contains id then
      plan n m later
    else
      plan n (← settle n m id later) later

end Merge

namespace Build

/-- Give a constraint the bounds that merging found. -/
def narrowBounds (entry : TemporalId × (Number × Number)) : Build Unit :=
  onNetwork (Edit.setBounds entry.1 entry.2.1 entry.2.2)

/-- Merge the constraints of the program. -/
def simplify : Build Unit := do
  let found ← constraints
  let merge ← Attempt.read fun p => Merge.plan p.network .empty found.toList
  Attempt.each narrowBounds merge.narrowed.entries
  Attempt.each removeConstraint merge.removed.toList
  invalidate

end Build

end PlanNetwork
