/-
# Guards

A guard holds the support of one element of a network and offers the ways of
changing it. A change that would leave no conjunction is refused, and a guard
that refuses stays as it is.

Beside the support a guard keeps which variables its conjunctions speak of. These
lists are made anew with every write, so they can be read off a guard at any time.
-/

import PlanNetwork.Support.Basic

namespace PlanNetwork

namespace Guard

/-- What a guard keeps: the condition, and for each of its conjunctions in order
the variables that are decided and those that are observed. -/
structure Record where
  /-- The condition. -/
  support : Support
  /-- The variables that are decided. -/
  decisions : List (OrdSet ChoiceVariable)
  /-- The variables that are observed. -/
  observations : List (OrdSet ChoiceVariable)

/-- A write to what a guard keeps, which may be refused. -/
abbrev Write : Type := EStateM Clash Record Unit

namespace Record

/-- The variables of a conjunction that are decided, or those that are observed. -/
def subjectsOf (observed : Bool) (c : Conjunction) : OrdSet ChoiceVariable :=
  .ofList ((c.toList.map Literal.choice).filter (·.kind.isObservation == observed))

/-- Make the lists anew from the condition. -/
def recompute (r : Record) : Record where
  support := r.support
  decisions := r.support.toList.map (subjectsOf false)
  observations := r.support.toList.map (subjectsOf true)

/-- What is kept of a condition. -/
def ofSupport (s : Support) : Record := recompute ⟨s, [], []⟩

/-- What is kept of an element that always exists. -/
def always : Record := ofSupport .always

/-- Whether no conjunction has a literal. -/
def isUnconditional (r : Record) : Bool := r.support.literalCount == 0

/-- All variables spoken of. -/
def subjects (r : Record) : OrdSet ChoiceVariable :=
  .ofList (r.support.toList.flatMap fun c => c.toList.map Literal.choice)

end Record

namespace Write

/-- Replace the condition, and make the lists anew. -/
def put (s : Support) : Write := modify fun r => Record.recompute { r with support := s }

/-- Replace the support by one that is not empty. -/
def set (s : Support) : Write := do
  let r ← get
  if s.isEmpty then throw ⟨r.support, s⟩ else put s

/-- Narrow the guard. -/
def and (s : Support) : Write := do
  let r ← get
  match r.support.tryAnd s with
  | .ok narrowed => put narrowed
  | .error clash => throw clash

/-- Widen the guard. -/
def or (s : Support) : Write := do
  let r ← get
  put (r.support.or s)

/-- Add a literal to every conjunction, consistent with it or not. -/
def addLiteral (a : Literal) : Write := do
  let r ← get
  put (r.support.withLiteral a)

/-- Replace the support by one conjunction. -/
def setConjunction (c : Conjunction) : Write := put (.ofConjunction c)

/-- Let the element exist always. -/
def clear : Write := modify fun _ => .always

/-- Let the element exist where one of the literals holds, or always if there
are none. -/
def setDisjunction (items : List Literal) : Write :=
  let s := Support.ofList (items.map .single)
  if s.isEmpty then clear else put s

/-- What a write leaves behind, be it refused or not. -/
def left (op : Write) (r : Record) : Record :=
  match op r with
  | .ok _ t | .error _ t => t

/-- A write makes everything anew, or it is refused and leaves everything as it was. -/
def Proper (op : Write) : Prop := ∀ r : Record,
  (∃ s, op r = .ok () (.ofSupport s)) ∨ ∃ clash, op r = .error clash r

variable {op : Write} {r : Record} {s : Support}

theorem set_apply : set s r =
    if s.isEmpty then .error ⟨r.support, s⟩ r else .ok () (.ofSupport s) := by
  show (if s.isEmpty then throw ⟨r.support, s⟩ else put s : Write) r = _
  split <;> rfl

theorem and_apply : and s r =
    match r.support.tryAnd s with
    | .ok narrowed => .ok () (.ofSupport narrowed)
    | .error clash => .error clash r := by
  show (match r.support.tryAnd s with
    | .ok narrowed => put narrowed
    | .error clash => throw clash : Write) r = _
  cases r.support.tryAnd s <;> rfl

theorem setDisjunction_apply {items : List Literal} : setDisjunction items r = .ok ()
    (.ofSupport (if (Support.ofList (items.map .single)).isEmpty then .always
      else .ofList (items.map .single))) := by
  show (if (Support.ofList (items.map .single)).isEmpty then clear else put _ : Write) r = _
  split <;> rfl

theorem proper_set (s : Support) : (set s).Proper := by
  intro r
  rw [set_apply]
  split
  · exact .inr ⟨_, rfl⟩
  · exact .inl ⟨s, rfl⟩

theorem proper_and (s : Support) : (and s).Proper := by
  intro r
  rw [and_apply]
  split
  · exact .inl ⟨_, rfl⟩
  · exact .inr ⟨_, rfl⟩

theorem proper_or (s : Support) : (or s).Proper := fun _ => .inl ⟨_, rfl⟩

theorem proper_addLiteral (a : Literal) : (addLiteral a).Proper := fun _ => .inl ⟨_, rfl⟩

theorem proper_setConjunction (c : Conjunction) : (setConjunction c).Proper :=
  fun _ => .inl ⟨_, rfl⟩

theorem proper_clear : clear.Proper := fun _ => .inl ⟨_, rfl⟩

theorem proper_setDisjunction (items : List Literal) : (setDisjunction items).Proper :=
  fun _ => .inl ⟨_, setDisjunction_apply⟩

/-- The lists that a write leaves behind are those of the condition. -/
theorem Proper.recompute_left (h : op.Proper) (current : r.recompute = r) :
    (op.left r).recompute = op.left r := by
  unfold left
  rcases h r with ⟨s, done⟩ | ⟨clash, refused⟩
  · rw [done]
    rfl
  · rw [refused]
    exact current

end Write

end Guard

/-- When an element of the network exists. The lists are always those of the condition. -/
structure Guard extends Guard.Record where
  /-- Making the lists anew would change nothing. -/
  current : toRecord.recompute = toRecord

namespace Guard

/-- The guard with a support. -/
def ofSupport (s : Support) : Guard := ⟨.ofSupport s, rfl⟩

/-- The guard of an element that always exists. -/
def always : Guard := ⟨.always, rfl⟩

instance : Inhabited Guard := ⟨always⟩

/-- The guard that a write leaves behind. -/
def after (g : Guard) (op : Write) (proper : op.Proper) : Guard :=
  ⟨op.left g.toRecord, proper.recompute_left g.current⟩

/-- The written guard, unless the write is refused. -/
def write (g : Guard) (op : Write) (proper : op.Proper) : Except Clash Guard :=
  match op g.toRecord with
  | .ok _ _ => .ok (g.after op proper)
  | .error clash _ => .error clash

/-- Replace the support by one that is not empty. -/
def set (g : Guard) (s : Support) : Except Clash Guard := g.write (.set s) (Write.proper_set s)

/-- Narrow the guard. -/
def and (g : Guard) (s : Support) : Except Clash Guard := g.write (.and s) (Write.proper_and s)

/-- Widen the guard. -/
def or (g : Guard) (s : Support) : Guard := g.after (.or s) (Write.proper_or s)

/-- Add a literal to every conjunction, consistent with it or not. -/
def addLiteral (g : Guard) (a : Literal) : Guard :=
  g.after (.addLiteral a) (Write.proper_addLiteral a)

/-- Replace the support by one conjunction. -/
def setConjunction (g : Guard) (c : Conjunction) : Guard :=
  g.after (.setConjunction c) (Write.proper_setConjunction c)

/-- Let the element exist always. -/
def clear (g : Guard) : Guard := g.after .clear Write.proper_clear

/-- Let the element exist where one of the literals holds, or always if there
are none. -/
def setDisjunction (g : Guard) (items : List Literal) : Guard :=
  g.after (.setDisjunction items) (Write.proper_setDisjunction items)

end Guard

end PlanNetwork
