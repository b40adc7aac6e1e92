/-
# Building the plan

A composition of a program takes episodes and fragments. The constraints of
the fragments become the user's constraints, each at most once. They are
refreshed, for composing may have changed when their events exist. The
composite can then be found by its id. All of this happens, or none of it.
-/

import PlanNetwork.Composition.Branching
import PlanNetwork.Composition.Parallel
import PlanNetwork.Composition.Sequence
import PlanNetwork.Program.Basic

namespace PlanNetwork

namespace Program

/-- Add the constraints of a fragment to those absorbed so far, unless one of
them is there or among the user's constraints. -/
def absorb (p : Program) (absorbed : OrdSet TemporalId) :
    List TemporalId → Except Fault (OrdSet TemporalId)
  | [] => .ok absorbed
  | id :: rest => do
    if p.userConstraints.contains id || absorbed.contains id then
      let constraint ← p.network.temporal id
      throw (.constraintAbsorbed constraint.identity.id)
    p.absorb (absorbed.insert id) rest

/-- The episodes of some components, with all constraints of the fragments. -/
def resolveComponents (p : Program) (absorbed : OrdSet TemporalId) :
    List Component → Except Fault (List EpisodeId × OrdSet TemporalId)
  | [] => .ok ([], absorbed)
  | .episode id :: rest => do
    let _ ← p.network.episode id
    let (episodes, absorbed) ← p.resolveComponents absorbed rest
    return (id :: episodes, absorbed)
  | .subplan fragment :: rest => do
    let absorbed ← p.absorb absorbed fragment.constraints.toList
    let (episodes, absorbed) ← p.resolveComponents absorbed rest
    return (fragment.plan :: episodes, absorbed)

end Program

namespace Build

/-- Compose some components by an operation on their episodes. -/
def assemble (components : List Component) (op : List EpisodeId → Edit EpisodeId) :
    Build EpisodeId := do
  let (episodes, absorbed) ← Attempt.read (·.resolveComponents ∅ components)
  if episodes.isEmpty then throw .nothingToCompose
  let id ← atomically do
    let id ← onNetwork do
      let id ← op episodes
      Attempt.each Edit.refreshTemporal absorbed.toList
      return id
    register id
    return id
  modify fun p => { p with
    userConstraints := p.userConstraints.union absorbed
    traversal := none }
  return id

/-- The options, with what was not said taken from the configuration. -/
def inherited (options : CompositionOptions) : Build CompositionOptions := do
  let config := (← get).config
  return options.inherit config.noWait config.mode

/-- Execute components one after the other. -/
def sequence (components : List Component) (options : CompositionOptions) : Build EpisodeId := do
  let options ← inherited options
  assemble components (Edit.sequence · options)

/-- Execute components side by side. -/
def parallel (components : List Component) (options : CompositionOptions) : Build EpisodeId := do
  let options ← inherited options
  assemble components (Edit.parallel · options)

/-- Execute one of the components, by the value of a choice. -/
def branch (choice : EventId) (components : List Component) (options : CompositionOptions) :
    Build EpisodeId := do
  let options ← inherited options
  assemble components (Edit.branch choice · options)

/-- Execute one of the components, by the value of a new choice. -/
def branchNew (spec : ChoiceSpec) (components : List Component) (options : CompositionOptions) :
    Build EpisodeId := do
  let options ← inherited options
  assemble components fun episodes => do
    let choice ← Edit.addChoice spec
    Edit.branch choice episodes options

/-- Execute one of the components, by a new decision. -/
def decide (spec : ChoiceSpec) (components : List Component) (options : CompositionOptions) :
    Build EpisodeId :=
  match spec.kind with
  | none | some .controllable =>
    branchNew { spec with kind := some .controllable } components options
  | some kind => throw (.decisionObserved kind)

/-- Execute one of the components, by a new observation. -/
def observe (spec : ChoiceSpec) (components : List Component) (options : CompositionOptions) :
    Build EpisodeId :=
  match spec.kind with
  | none => throw .observationKindMissing
  | some .controllable => throw (.observationDecided .controllable)
  | some _ => branchNew spec components options

/-- The episode of one component, with its constraints taken over. -/
def adopt (component : Component) : Build EpisodeId :=
  assemble [component] fun episodes =>
    match episodes with
    | id :: _ => pure id
    | [] => throw .nothingToCompose

/-- Make a component the plan. -/
def setPlan (component : Component) : Build Unit := do
  let plan ← adopt component
  modify fun p => { p with plan := some plan }

/-- Make the plan, composed with a component, the plan; without a plan, make
the component the plan. -/
def extendPlan (compose : List Component → CompositionOptions → Build EpisodeId)
    (component : Component) : Build EpisodeId := do
  let plan ← match (← get).plan with
    | some plan => compose [.episode plan, component] {}
    | none => adopt component
  modify fun p => { p with plan := some plan }
  return plan

/-- Execute a component behind the plan. -/
def appendSequence (component : Component) : Build EpisodeId := extendPlan sequence component

/-- Execute a component beside the plan. -/
def appendParallel (component : Component) : Build EpisodeId := extendPlan parallel component

end Build

end PlanNetwork
