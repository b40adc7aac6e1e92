/-
# Traversing the plan

A traversal meets every episode of the plan, and with it the events and
constraints that belong to the program. No primitive episode may be met twice
and no constraint may belong to two episodes. The traversal also registers the
episodes by their ids and refreshes the user's constraints, which apply where
their events exist.

The result is kept and read again until something changes.
-/

import PlanNetwork.Network.Unfolding
import PlanNetwork.Program.Basic

namespace PlanNetwork

namespace Traversal

/-- Meet a constraint that was not met before. -/
def meetConstraint (n : Network) (t : Traversal) (id : TemporalId) : Except Fault Traversal :=
  if t.constraints.contains id then do
    let constraint ← n.temporal id
    throw (.constraintTwice constraint.identity.id)
  else
    .ok { t with constraints := t.constraints.insert id }

/-- Meet an episode, with what belongs to it. -/
def meetEpisode (n : Network) (t : Traversal) (id : EpisodeId) : Except Fault Traversal := do
  let episode ← n.episode id
  if episode.isPrimitive && t.primitives.contains id then
    throw (.episodeTwice episode.identity.id)
  let t := { t with
    episodes := t.episodes.insert id
    events := (t.events.insert episode.start).insert episode.finish
    states := t.states.union episode.stateConstraints
    primitives := if episode.isPrimitive then t.primitives.insert id else t.primitives }
  episode.constraintsAndDuration.toList.foldlM (meetConstraint n) t

/-- Meet an episode and all episodes inside it. -/
def ofEpisode (n : Network) (id : EpisodeId) : Except Fault Traversal :=
  n.visitUnfolding (meetEpisode n) .empty id

/-- Meet the events of a constraint. -/
def meetEndpoints (n : Network) (t : Traversal) (id : TemporalId) : Except Fault Traversal := do
  let constraint ← n.temporal id
  return { t with events := (t.events.insert constraint.start).insert constraint.finish }

/-- What belongs to a plan, if there is one, and to the user's constraints. -/
def collect (n : Network) (plan : Option EpisodeId) (user : OrdSet TemporalId) :
    Except Fault Traversal := do
  let t ← match plan with
    | some id => ofEpisode n id
    | none => pure .empty
  user.toList.foldlM (meetEndpoints n) t

end Traversal

namespace Build

/-- Traverse the plan anew. -/
def traverse : Build Traversal := do
  let traversal ← Attempt.read fun p => Traversal.collect p.network p.plan p.userConstraints
  Attempt.each register traversal.episodes.toList
  let user := (← get).userConstraints
  onNetwork (Edit.atomically (Attempt.each Edit.refreshTemporal user.toList))
  return traversal

/-- What the last traversal met, or what a new one meets. -/
def view : Build Traversal := do
  match (← get).traversal with
  | some traversal => return traversal
  | none =>
    let traversal ← traverse
    modify ({ · with traversal := some traversal })
    return traversal

/-! ## What belongs to the program -/

/-- Every registered episode, whether the plan reaches it or not. -/
def episodes : Build (OrdSet EpisodeId) := do
  let _ ← view
  return .ofList (← get).registry.values

/-- The constraints inside the plan and those of the user. -/
def constraints : Build (OrdSet TemporalId) := do
  let traversal ← view
  return traversal.constraints.union (← get).userConstraints

/-- The events among some that carry a choice of the wanted kind. -/
def choiceEvents (n : Network) (keep : Controllability → Bool) (found : OrdSet EventId)
    (id : EventId) : Except Fault (OrdSet EventId) := do
  let event ← n.event id
  return if event.choice.any (keep ·.kind) then found.insert id else found

/-- The choices of the wanted kind. -/
def choicesWhere (keep : Controllability → Bool) : Build (OrdSet EventId) := do
  let traversal ← view
  Attempt.read fun p => traversal.events.toList.foldlM (choiceEvents p.network keep) ∅

/-- The choices. -/
def choices : Build (OrdSet EventId) := choicesWhere fun _ => true

/-- The choices that are decided. -/
def decisions : Build (OrdSet EventId) := choicesWhere fun kind => !kind.isObservation

/-- The choices that are observed. -/
def observations : Build (OrdSet EventId) := choicesWhere (·.isObservation)

/-- Add the variables of a state constraint. -/
def scopeVariables (n : Network) (found : OrdSet VariableId) (id : StateConstraintId) :
    Except Fault (OrdSet VariableId) :=
  (n.state id).map fun constraint => found.insertAll constraint.scope

/-- The state variables in state constraints, in the initial state, and those
that the user added. -/
def quantities : Build (OrdSet VariableId) := do
  let p ← get
  let known := p.quantities.insertAll p.initialState.keys
  let traversal ← view
  Attempt.read fun p => traversal.states.toList.foldlM (scopeVariables p.network) known

/-- The registered episode with an id. -/
def episodeById (id : String) : Build EpisodeId := do
  let _ ← view
  match (← get).registry.get? id with
  | some episode => return episode
  | none => throw (.idUnknown id)

end Build

end PlanNetwork
