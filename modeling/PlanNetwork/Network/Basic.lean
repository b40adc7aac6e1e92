/-
# Plan networks

A network owns its elements, kind by kind, and the elements refer to each
other by handles. Nothing is ever copied: an episode with two parents is one
element, so what narrows it through one parent shows through the other. New
elements are put behind the old ones, which keep their handles.

The network also counts the serial numbers it has given out. The count never
goes back, not even when an operation is undone.

An operation that may have to be undone keeps a journal. Since new elements go
behind the old ones, it is enough to know how many elements there were and
which guards of old elements have been changed.
-/

import PlanNetwork.Episode

namespace PlanNetwork

/-- What is remembered of a network while an operation may still be undone. -/
structure Journal where
  /-- How many events there were. -/
  events : Nat
  /-- How many episodes there were. -/
  episodes : Nat
  /-- How many temporal constraints there were. -/
  temporals : Nat
  /-- How many state constraints there were. -/
  states : Nat
  /-- How many chance constraints there were. -/
  chances : Nat
  /-- How many state variables there were. -/
  quantities : Nat
  /-- The guards of older elements that have been changed, as they were before
  the first change. -/
  guards : List (Guarded × Guard)

namespace Journal

/-- Whether an element was there before the operation. -/
def predates (j : Journal) : Guarded → Bool
  | .event id => decide (id.index < j.events)
  | .episode id => decide (id.index < j.episodes)
  | .temporal id => decide (id.index < j.temporals)
  | .state id => decide (id.index < j.states)

/-- Whether the old guard of an element is known. -/
def records (j : Journal) (element : Guarded) : Bool := j.guards.any (·.1 == element)

end Journal

/-- All elements of a plan network. -/
structure Network where
  /-- The events. -/
  events : Array Event
  /-- The episodes. -/
  episodes : Array Episode
  /-- The temporal constraints. -/
  temporals : Array TemporalConstraint
  /-- The state constraints. -/
  states : Array StateConstraint
  /-- The chance constraints. -/
  chances : Array ChanceConstraint
  /-- The state variables. -/
  quantities : Array StateVariable
  /-- How far the probabilities of a choice may be from summing to one. -/
  tolerance : Number
  /-- The serial number of the next element. -/
  nextSerial : Nat
  /-- The journal of the operation that is running, if it can be undone. -/
  journal : Option Journal

namespace Network

/-- The network without elements. -/
def empty (tolerance : Number) : Network := ⟨#[], #[], #[], #[], #[], #[], tolerance, 1, none⟩

/-- The network with another count of serial numbers given out. -/
def withSerial (n : Network) (nextSerial : Nat) : Network := { n with nextSerial }

/-! ## Looking elements up -/

/-- The entry of an array that a handle counts. -/
def lookup {kind : ElementKind} {α : Type} (entries : Array α) (id : Handle kind) :
    Except Fault α :=
  match entries[id.index]? with
  | some entry => .ok entry
  | none => .error (.unknown kind id.index)

/-- The event of a handle. -/
def event (n : Network) (id : EventId) : Except Fault Event := lookup n.events id

/-- The episode of a handle. -/
def episode (n : Network) (id : EpisodeId) : Except Fault Episode := lookup n.episodes id

/-- The temporal constraint of a handle. -/
def temporal (n : Network) (id : TemporalId) : Except Fault TemporalConstraint :=
  lookup n.temporals id

/-- The state constraint of a handle. -/
def state (n : Network) (id : StateConstraintId) : Except Fault StateConstraint :=
  lookup n.states id

/-- The chance constraint of a handle. -/
def chance (n : Network) (id : ChanceId) : Except Fault ChanceConstraint := lookup n.chances id

/-- The state variable of a handle. -/
def quantity (n : Network) (id : VariableId) : Except Fault StateVariable :=
  lookup n.quantities id

/-- What a choice event carries. -/
def choice (n : Network) (id : EventId) : Except Fault Choice := do
  let event ← n.event id
  match event.choice with
  | some choice => return choice
  | none => throw (.notAChoice event.identity.id)

/-- Nothing, if a constraint is there. -/
def checkConstraint (n : Network) : ConstraintId → Except Fault Unit
  | .temporal id => (n.temporal id).map fun _ => ()
  | .state id => (n.state id).map fun _ => ()
  | .chance id => (n.chance id).map fun _ => ()

/-! ## Guards -/

/-- The guard of an element. -/
def guard (n : Network) : Guarded → Except Fault Guard
  | .event id => (n.event id).map (·.guard)
  | .episode id => (n.episode id).map (·.guard)
  | .temporal id => (n.temporal id).map (·.guard)
  | .state id => (n.state id).map (·.guard)

/-- The support of an element. -/
def support (n : Network) (element : Guarded) : Except Fault Support :=
  (n.guard element).map (·.support)

/-- The network with another guard for an element that is there. -/
def setGuard (n : Network) (element : Guarded) (guard : Guard) : Network :=
  match element with
  | .event id => { n with events := n.events.modify id.index ({ · with guard }) }
  | .episode id => { n with episodes := n.episodes.modify id.index ({ · with guard }) }
  | .temporal id => { n with temporals := n.temporals.modify id.index ({ · with guard }) }
  | .state id => { n with states := n.states.modify id.index ({ · with guard }) }

/-- Turn a clash of supports into a fault. -/
def refuseClash {α : Type} : Except Clash α → Except Fault α
  | .ok a => .ok a
  | .error clash => .error (.inconsistent clash)

/-- The support under which two events exist together. -/
def endpointSupport (n : Network) (start finish : EventId) : Except Fault Support := do
  let first ← n.support (.event start)
  let second ← n.support (.event finish)
  refuseClash (first.tryAnd second)

/-! ## Undoing operations -/

/-- Start a journal. -/
def checkpoint (n : Network) : Network :=
  { n with journal := some ⟨n.events.size, n.episodes.size, n.temporals.size, n.states.size,
      n.chances.size, n.quantities.size, []⟩ }

/-- Drop the journal; what was done stays done. -/
def commit (n : Network) : Network := { n with journal := none }

/-- Note the guard of an element that is about to be changed. New elements need
no note, for they will be gone, nor do elements whose old guard is known. -/
def note (n : Network) (element : Guarded) (guard : Guard) : Network :=
  match n.journal with
  | none => n
  | some j =>
    if j.predates element && !j.records element then
      { n with journal := some { j with guards := (element, guard) :: j.guards } }
    else n

/-- The network without the elements that are newer than the journal. -/
def truncate (n : Network) (j : Journal) : Network :=
  { n with
    events := n.events.take j.events
    episodes := n.episodes.take j.episodes
    temporals := n.temporals.take j.temporals
    states := n.states.take j.states
    chances := n.chances.take j.chances
    quantities := n.quantities.take j.quantities }

/-- Go back to where the journal started: new elements go, old guards return.
Serial numbers given out meanwhile stay given out. -/
def rollback (n : Network) : Network :=
  match n.journal with
  | none => n
  | some j => (j.guards.foldl (fun n entry => n.setGuard entry.1 entry.2) (n.truncate j)).commit

/-! ## Replacing elements -/

/-- The network with an episode changed. -/
def modifyEpisode (n : Network) (id : EpisodeId) (change : Episode → Episode) : Network :=
  { n with episodes := n.episodes.modify id.index change }

/-- The network with a temporal constraint changed. -/
def modifyTemporal (n : Network) (id : TemporalId)
    (change : TemporalConstraint → TemporalConstraint) : Network :=
  { n with temporals := n.temporals.modify id.index change }

end Network

end PlanNetwork
