/-
# Editing a network

The steps that all operations on a network are made of: numbering an element,
putting one behind the others, changing a guard, and running several steps so
that either all of them take effect or none.
-/

import PlanNetwork.Attempt
import PlanNetwork.Network.Basic

namespace PlanNetwork

/-- An operation on a network. -/
abbrev Edit (α : Type) : Type := Attempt Network α

namespace Edit

/-- All steps of the operation, or none. Inside another such operation the
journal of the outer one is enough. -/
def atomically {α : Type} (op : Edit α) : Edit α := fun n =>
  if n.journal.isSome then op n
  else op.bracket Network.checkpoint Network.commit Network.rollback n

/-- The identity of a new element of the kind. -/
def allocate (kind : String) : Edit Identity := do
  let n ← get
  set (n.withSerial (n.nextSerial + 1))
  return .fresh kind n.nextSerial

/-- The identity of a new element, with id and name if they are given. -/
def allocateAs (kind : String) (id name : Option String) : Edit Identity := do
  let identity ← allocate kind
  return identity.override id name

/-! ## Guards -/

/-- Change the guard of an element, unless the change is refused. -/
def changeGuard (element : Guarded) (change : Guard → Except Clash Guard) : Edit Unit := do
  let guard ← Attempt.read (·.guard element)
  modify (·.note element guard)
  let changed ← Attempt.ofExcept (Network.refuseClash (change guard))
  modify (·.setGuard element changed)

/-- Let the element exist only where the support holds as well. -/
def narrow (element : Guarded) (support : Support) : Edit Unit :=
  changeGuard element (·.and support)

/-- Replace the support of the element by one that is not empty. -/
def setSupport (element : Guarded) (support : Support) : Edit Unit :=
  changeGuard element (·.set support)

/-- Add a literal to every conjunction of the element's support. -/
def addLiteral (element : Guarded) (literal : Literal) : Edit Unit :=
  changeGuard element fun guard => .ok (guard.addLiteral literal)

/-- Replace the support of the element by one conjunction. -/
def setConjunction (element : Guarded) (conjunction : Conjunction) : Edit Unit :=
  changeGuard element fun guard => .ok (guard.setConjunction conjunction)

/-- Let the element exist always. -/
def clearSupport (element : Guarded) : Edit Unit :=
  changeGuard element fun guard => .ok guard.clear

/-! ## New elements -/

/-- Put an event behind the others. -/
def pushEvent (event : Event) : Edit EventId := do
  let n ← get
  set { n with events := n.events.push event }
  return ⟨n.events.size⟩

/-- Put an episode behind the others. -/
def pushEpisode (episode : Episode) : Edit EpisodeId := do
  let n ← get
  set { n with episodes := n.episodes.push episode }
  return ⟨n.episodes.size⟩

/-- Put a temporal constraint behind the others. -/
def pushTemporal (constraint : TemporalConstraint) : Edit TemporalId := do
  let n ← get
  set { n with temporals := n.temporals.push constraint }
  return ⟨n.temporals.size⟩

/-- Put a state constraint behind the others. -/
def pushState (constraint : StateConstraint) : Edit StateConstraintId := do
  let n ← get
  set { n with states := n.states.push constraint }
  return ⟨n.states.size⟩

/-- Put a chance constraint behind the others. -/
def pushChance (constraint : ChanceConstraint) : Edit ChanceId := do
  let n ← get
  set { n with chances := n.chances.push constraint }
  return ⟨n.chances.size⟩

/-- Put a state variable behind the others. -/
def pushQuantity (quantity : StateVariable) : Edit VariableId := do
  let n ← get
  set { n with quantities := n.quantities.push quantity }
  return ⟨n.quantities.size⟩

end Edit

end PlanNetwork
