/-
# Events and episodes

An event is an instant; a choice event carries a choice. An episode is an
activity between two events with a bounded duration. A primitive episode
stands for itself, a composite one is built from internal episodes, which were
there before it.
-/

import PlanNetwork.Constraint.Basic

namespace PlanNetwork

/-- An instant. -/
structure Event where
  /-- Its identity. -/
  identity : Identity
  /-- When it exists. -/
  guard : Guard
  /-- What it carries if it is a choice. -/
  choice : Option Choice

/-- How an episode is built. -/
inductive Composition where
  /-- Not from other episodes. -/
  | primitive
  /-- One after the other. -/
  | sequence (episodes : List EpisodeId)
  /-- Side by side. -/
  | parallel (episodes : List EpisodeId)
  /-- One of them, by the value that a choice takes. -/
  | branching (choice : EventId) (branches : List EpisodeId)
deriving DecidableEq

namespace Composition

/-- The word for it in data. -/
def text : Composition → String
  | .primitive => "primitive"
  | .sequence _ => "sequence"
  | .parallel _ => "parallel"
  | .branching .. => "choose"

/-- Whether there are no internal episodes. -/
def isPrimitive : Composition → Bool
  | .primitive => true
  | _ => false

/-- The internal episodes in order. -/
def episodes : Composition → List EpisodeId
  | .primitive => []
  | .sequence episodes => episodes
  | .parallel episodes => episodes
  | .branching _ branches => branches

/-- The choice that selects a branch. -/
def choice? : Composition → Option EventId
  | .branching choice _ => some choice
  | _ => none

end Composition

/-- An activity between two events. -/
structure Episode where
  /-- Its identity. -/
  identity : Identity
  /-- When it exists. -/
  guard : Guard
  /-- The event at its start. -/
  start : EventId
  /-- The event at its end. -/
  finish : EventId
  /-- The constraint from its start to its end. -/
  duration : TemporalId
  /-- What is done. -/
  action : String
  /-- What holds at the start. -/
  startConditions : Assignment
  /-- What holds at the end. -/
  finishConditions : Assignment
  /-- What the start brings about. -/
  startEffects : Assignment
  /-- What the end brings about. -/
  finishEffects : Assignment
  /-- The internal constraints, without the duration. -/
  constraints : OrdSet TemporalId
  /-- State constraints that hold at the start. -/
  atStart : OrdSet StateConstraintId
  /-- State constraints that hold at the end. -/
  atFinish : OrdSet StateConstraintId
  /-- State constraints that hold between start and end. -/
  during : OrdSet StateConstraintId
  /-- Whether nothing can be executed behind it. -/
  terminal : Bool
  /-- How it is built. -/
  composition : Composition

namespace Episode

/-- The internal constraints and the duration. -/
def constraintsAndDuration (e : Episode) : OrdSet TemporalId := e.constraints.insert e.duration

/-- The state constraints that hold at the start, at the end and between. -/
def overall (e : Episode) : OrdSet StateConstraintId :=
  e.atStart.filter fun sc => e.atFinish.contains sc && e.during.contains sc

/-- All state constraints of the episode. -/
def stateConstraints (e : Episode) : OrdSet StateConstraintId :=
  (e.atStart.union e.atFinish).union e.during

/-- Whether there are no internal episodes. -/
def isPrimitive (e : Episode) : Bool := e.composition.isPrimitive

end Episode

/-- What a caller says about a primitive episode. -/
structure EpisodeSpec where
  /-- The id, if not the default. -/
  id : Option String := none
  /-- The name, if not the default. -/
  name : Option String := none
  /-- The event at the start, if it is there already. -/
  start : Option EventId := none
  /-- The event at the end, if it is there already. -/
  finish : Option EventId := none
  /-- What is done. -/
  action : Option String := none
  /-- The duration, if it is constrained. -/
  duration : Option DurationSpec := none
  /-- What holds at the start. -/
  startConditions : Assignment := ∅
  /-- What holds at the end. -/
  finishConditions : Assignment := ∅
  /-- What the start brings about. -/
  startEffects : Assignment := ∅
  /-- What the end brings about. -/
  finishEffects : Assignment := ∅
  /-- State constraints that hold at the start. -/
  atStart : List StateConstraintId := []
  /-- State constraints that hold at the end. -/
  atFinish : List StateConstraintId := []
  /-- State constraints that hold between start and end. -/
  during : List StateConstraintId := []
  /-- State constraints that hold at the start, at the end and between. -/
  overall : List StateConstraintId := []
  /-- Whether nothing can be executed behind the episode. -/
  terminal : Bool := false

end PlanNetwork
