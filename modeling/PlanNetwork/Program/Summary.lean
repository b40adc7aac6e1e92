/-
# Counting and fingerprinting a program

The fingerprint is a digest over one line for each element of the program,
with its id and its guard. The lines are sorted, so that the order in which
elements were made does not matter.
-/

import PlanNetwork.Digest
import PlanNetwork.Program.Traversal

namespace PlanNetwork

/-- How many elements of each kind a program has. -/
structure Summary where
  /-- The name of the program. -/
  name : String
  /-- Episodes of the plan. -/
  episodes : Nat
  /-- Primitive episodes of the plan. -/
  primitives : Nat
  /-- Events. -/
  events : Nat
  /-- Choices. -/
  choices : Nat
  /-- Choices that are decided. -/
  decisions : Nat
  /-- Choices that are observed. -/
  observations : Nat
  /-- Temporal constraints, of the plan and of the user. -/
  constraints : Nat
  /-- Temporal constraints of the user. -/
  userConstraints : Nat
  /-- State constraints. -/
  states : Nat
  /-- Chance constraints. -/
  chances : Nat
  /-- State variables. -/
  quantities : Nat
deriving DecidableEq

/-- Parts of a line with bars between them. -/
def barred (parts : List String) : String := "|".intercalate parts

namespace Network

/-- The line for an episode. -/
def episodeEntry (n : Network) (id : EpisodeId) : Except Fault String := do
  let e ← n.episode id
  return barred ["episode", e.identity.id, e.composition.text, e.guard.support.text]

/-- The line for an event. -/
def eventEntry (n : Network) (id : EventId) : Except Fault String := do
  let e ← n.event id
  return barred ["event", e.identity.id, e.guard.support.text]

/-- The line for a temporal constraint. -/
def temporalEntry (n : Network) (id : TemporalId) : Except Fault String := do
  let c ← n.temporal id
  let start ← n.event c.start
  let finish ← n.event c.finish
  return barred ["temporal", c.identity.id, start.identity.id, finish.identity.id,
    c.bounds.kind.text, c.bounds.lower.text, c.bounds.upper.text, c.guard.support.text]

/-- The line for a state constraint. -/
def stateEntry (n : Network) (id : StateConstraintId) : Except Fault String := do
  let c ← n.state id
  return barred ["state", c.identity.id, c.guard.support.text]

/-- The lines for all that was met, and for the user's constraints. A
constraint of the user that the plan has as well gives two lines. -/
def entries (n : Network) (t : Traversal) (user : OrdSet TemporalId) :
    Except Fault (List String) := do
  let episodes ← t.episodes.toList.mapM n.episodeEntry
  let events ← t.events.toList.mapM n.eventEntry
  let temporals ← (t.constraints.toList ++ user.toList).mapM n.temporalEntry
  let states ← t.states.toList.mapM n.stateEntry
  return episodes ++ events ++ temporals ++ states

end Network

/-- The digest of some lines, sorted. -/
def fingerprintOf (lines : List String) : String :=
  let sorted := lines.mergeSort fun a b => (compare a b).isLE
  Digest.sha256 (sorted.flatMap fun line => (line ++ "\n").toUTF8.toList)

namespace Build

/-- The fingerprint of the program. -/
def fingerprint : Build String := do
  let user := (← get).userConstraints
  let traversal ← view
  let lines ← Attempt.read (·.network.entries traversal user)
  return fingerprintOf lines

/-- The counts of the program. -/
def summary : Build Summary := do
  let choices ← choices
  let decisions ← decisions
  let observations ← observations
  let quantities ← quantities
  let constraints ← constraints
  let t ← view
  let p ← get
  return {
    name := p.name
    episodes := t.episodes.size
    primitives := t.primitives.size
    events := t.events.size
    choices := choices.size
    decisions := decisions.size
    observations := observations.size
    constraints := constraints.size
    userConstraints := p.userConstraints.size
    states := t.states.size
    chances := p.chances.size
    quantities := quantities.size }

end Build

end PlanNetwork
