/-
# Programs

A program is a network together with the episode that is its plan, the
constraints that the user put on it, and the states it starts and ends in. It
also keeps the result of the last traversal of the plan, until an operation
may have made it wrong.
-/

import PlanNetwork.Config
import PlanNetwork.Network.Comparison

namespace PlanNetwork

/-- What is met on a walk over the plan. -/
structure Traversal where
  /-- All episodes. -/
  episodes : OrdSet EpisodeId
  /-- The primitive ones among them. -/
  primitives : OrdSet EpisodeId
  /-- The constraints inside the episodes, durations included. -/
  constraints : OrdSet TemporalId
  /-- The state constraints of the episodes. -/
  states : OrdSet StateConstraintId
  /-- The events of the episodes and of the user's constraints. -/
  events : OrdSet EventId

/-- The walk that has met nothing. -/
def Traversal.empty : Traversal := ⟨∅, ∅, ∅, ∅, ∅⟩

/-- A program fragment: an episode, with the user constraints that were put
on it while it was built. -/
structure Subplan where
  /-- The episode. -/
  plan : EpisodeId
  /-- The constraints, kept apart until the fragment is used. -/
  constraints : OrdSet TemporalId

/-- What can be composed. -/
inductive Component where
  /-- An episode. -/
  | episode (id : EpisodeId)
  /-- A fragment. -/
  | subplan (fragment : Subplan)

/-- A program. -/
structure Program where
  /-- Its elements. -/
  network : Network
  /-- Its settings. -/
  config : Config
  /-- Its name. -/
  name : String
  /-- The episode that is executed. -/
  plan : Option EpisodeId
  /-- The state it starts in. -/
  initialState : Assignment
  /-- The state it is to end in. -/
  goalState : Assignment
  /-- The user's temporal constraints. -/
  userConstraints : OrdSet TemporalId
  /-- The user's chance constraints. -/
  chances : OrdSet ChanceId
  /-- The user's state variables. -/
  quantities : OrdSet VariableId
  /-- Which episode an id names. -/
  registry : OrdMap String EpisodeId
  /-- What the last traversal met, if that still holds. -/
  traversal : Option Traversal

/-- An operation on a program. -/
abbrev Build (α : Type) : Type := Attempt Program α

namespace Program

/-- A program without elements, whatever the configuration says. -/
def ofConfig (config : Config) : Program where
  network := .empty config.tolerance
  config := config
  name := config.programName
  plan := none
  initialState := ∅
  goalState := ∅
  userConstraints := ∅
  chances := ∅
  quantities := ∅
  registry := ∅
  traversal := none

/-- A program without elements, if the configuration is valid. -/
def new (config : Config) : Except Fault Program :=
  config.validate.map fun _ => ofConfig config

/-- The program with its network replaced. -/
def withNetwork (network : Network) (p : Program) : Program := { p with network }

/-- The program with its network changed. -/
def mapNetwork (change : Network → Network) (p : Program) : Program :=
  p.withNetwork (change p.network)

/-- The program without the result of the last traversal. -/
def stale (p : Program) : Program := { p with traversal := none }

/-- The episode that is the plan. -/
def planEpisode (p : Program) : Except Fault Episode :=
  match p.plan with
  | some plan => p.network.episode plan
  | none => .error .planMissing

/-- The event the plan starts with. -/
def firstEvent (p : Program) : Except Fault EventId := p.planEpisode.map (·.start)

/-- The event the plan ends with. -/
def lastEvent (p : Program) : Except Fault EventId := p.planEpisode.map (·.finish)

end Program

namespace Build

/-- An operation on the network that leaves the last traversal as it is. -/
def onNetwork {α : Type} (op : Edit α) : Build α :=
  op.focus Program.network Program.withNetwork

/-- Forget the last traversal. -/
def invalidate : Build Unit := modify Program.stale

/-- An operation on the network that may change anything in it. -/
def edit {α : Type} (op : Edit α) : Build α := do
  invalidate
  onNetwork op

/-- All steps of the operation on the network, or none. What it does to the
rest of the program is not undone, so that has to come last. -/
def atomically {α : Type} (op : Build α) : Build α := fun p =>
  if p.network.journal.isSome then op p
  else
    op.bracket (Program.mapNetwork .checkpoint) (Program.mapNetwork .commit)
      (Program.mapNetwork .rollback) p

/-- Let an episode be found by its id. An id that names another episode is
refused. -/
def register (id : EpisodeId) : Build Unit := do
  let episode ← Attempt.read (·.network.episode id)
  match (← get).registry.get? episode.identity.id with
  | none => modify fun p => { p with registry := p.registry.insert episode.identity.id id }
  | some known => unless known = id do throw (.idTaken episode.identity.id)

/-! ## Simple operations -/

/-- Change the name. -/
def setName (name : String) : Build Unit := modify ({ · with name })

/-- Set the state the program starts in. -/
def setInitialState (state : Assignment) : Build Unit := do
  Attempt.read fun p => Edit.checkAssignment state p.network
  modify fun p => { p with initialState := state, traversal := none }

/-- Set the state the program is to end in. -/
def setGoalState (state : Assignment) : Build Unit := do
  Attempt.read fun p => Edit.checkAssignment state p.network
  modify fun p => { p with goalState := state }

/-- A new event. -/
def addEvent : Build EventId := onNetwork Edit.addEvent

/-- A new choice event. -/
def addChoice (spec : ChoiceSpec) : Build EventId := onNetwork (Edit.addChoice spec)

/-- A new primitive episode, found by its id. -/
def addEpisode (spec : EpisodeSpec) : Build EpisodeId :=
  atomically do
    let id ← onNetwork (Edit.addEpisode spec)
    register id
    return id

/-- A new state variable of the program. -/
def addQuantity (name : String) (domain : StateDomain) : Build VariableId := do
  let id ← onNetwork (Edit.addQuantity name domain)
  modify fun p => { p with quantities := p.quantities.insert id }
  return id

end Build

end PlanNetwork
