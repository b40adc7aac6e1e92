/-
# What operations do to a network

However an operation ends, what it has done to the network by then is a trail
of elementary changes: serial numbers are given out, elements are put behind
the others, and guards are written after they have been noted in the journal.

A guard is written only with a support that the network gives rise to: one that
some element has, an intersection of two that is not empty, or one conjunction
that can be met. Callers may bring supports of their own, and a trail says which
of these it admits. New constraints are valid.
-/

import Mathlib.Logic.Relation
import PlanNetwork.Network.Revision
import PlanNetwork.Proofs.Attempt
import PlanNetwork.Proofs.Network.Validity

namespace PlanNetwork

namespace Network

/-- The supports that a network gives rise to. -/
inductive Derives (n : Network) : Support → Prop where
  /-- An element has it. -/
  | held {element : Guarded} {s : Support} (found : n.support element = .ok s) : n.Derives s
  /-- It is what two supports leave of each other. -/
  | both {s t u : Support} (narrowed : s.tryAnd t = .ok u) : n.Derives u
  /-- It is one conjunction that can be met. -/
  | single {c : Conjunction} (passes : c.isSatisfiable = true) : n.Derives (.ofConjunction c)

/-- Whether a support may be written, given those that callers may bring. -/
def Admits (brought : Support → Prop) (n : Network) (s : Support) : Prop :=
  n.Derives s ∨ brought s

/-- One elementary change. -/
inductive Change (brought : Support → Prop) : Network → Network → Prop where
  /-- Serial numbers are given out. -/
  | count (n : Network) {nextSerial : Nat} (later : n.nextSerial ≤ nextSerial) :
      Change brought n (n.withSerial nextSerial)
  /-- There is a new event. -/
  | event (n : Network) (e : Event) (fits : n.Admits brought e.guard.support) :
      Change brought n { n with events := n.events.push e }
  /-- There is a new episode. -/
  | episode (n : Network) (e : Episode) (fits : n.Admits brought e.guard.support) :
      Change brought n { n with episodes := n.episodes.push e }
  /-- There is a new temporal constraint. -/
  | temporal (n : Network) (c : TemporalConstraint) (fits : n.Admits brought c.guard.support)
      (valid : c.bounds.Valid) : Change brought n { n with temporals := n.temporals.push c }
  /-- There is a new state constraint. -/
  | state (n : Network) (c : StateConstraint) (fits : n.Admits brought c.guard.support)
      (valid : c.Valid n) : Change brought n { n with states := n.states.push c }
  /-- There is a new chance constraint. -/
  | chance (n : Network) (c : ChanceConstraint) (valid : c.Valid) :
      Change brought n { n with chances := n.chances.push c }
  /-- There is a new state variable. -/
  | quantity (n : Network) (v : StateVariable) :
      Change brought n { n with quantities := n.quantities.push v }
  /-- A guard is noted, but not written. -/
  | note {n : Network} {element : Guarded} {old : Guard} (found : n.guard element = .ok old) :
      Change brought n (n.note element old)
  /-- A guard is noted and written. -/
  | guard {n : Network} {element : Guarded} {old new : Guard}
      (found : n.guard element = .ok old) (fits : n.Admits brought new.support) :
      Change brought n ((n.note element old).setGuard element new)

/-- Elementary changes one after the other. -/
abbrev Trail (brought : Support → Prop) : Network → Network → Prop :=
  Relation.ReflTransGen (Change brought)

theorem derives_always (n : Network) : n.Derives .always := .single rfl

end Network

open Network

namespace Edit

variable {α β : Type} {brought : Support → Prop} {n : Network}

/-- Whatever the outcome, the operation leaves a trail. -/
def Follows (brought : Support → Prop) (op : Edit α) (n : Network) : Prop :=
  Trail brought n (op.after n)

/-! ## Putting operations together -/

theorem Follows.of_unchanged {op : Edit α} (same : op.after n = n) : Follows brought op n := by
  rw [Follows, same]

theorem Follows.of_change {op : Edit α} (change : Change brought n (op.after n)) :
    Follows brought op n :=
  .single change

theorem Follows.of_ok {op : Edit α} {a : α} {m : Network} (h : Follows brought op n)
    (result : op n = .ok a m) : Trail brought n m := by
  rwa [Follows, Attempt.after_of_ok result] at h

theorem Follows.of_error {op : Edit α} {fault : Fault} {m : Network} (h : Follows brought op n)
    (result : op n = .error fault m) : Trail brought n m := by
  rwa [Follows, Attempt.after_of_error result] at h

theorem follows_pure (a : α) : Follows brought (pure a : Edit α) n := .of_unchanged rfl

theorem follows_throw (fault : Fault) : Follows brought (throw fault : Edit α) n :=
  .of_unchanged rfl

theorem Follows.bind {op : Edit α} {next : α → Edit β} (first : Follows brought op n)
    (rest : ∀ a m, op n = .ok a m → Follows brought (next a) m) :
    Follows brought (op >>= next) n :=
  Attempt.after_bind (R := Trail brought) Relation.ReflTransGen.trans first rest

/-- Nothing happens before a read, and it is refused or gives its value. -/
theorem follows_read {view : Network → Except Fault α} {next : α → Edit β}
    (rest : ∀ a, view n = .ok a → Follows brought (next a) n) :
    Follows brought (Attempt.read view >>= next) n :=
  .bind (.of_unchanged (Attempt.after_read view)) fun a m result => by
    obtain ⟨value, rfl⟩ := Attempt.read_eq_ok_iff.mp result
    exact rest a value

theorem follows_ofExcept {result : Except Fault α} {next : α → Edit β}
    (rest : ∀ a, result = .ok a → Follows brought (next a) n) :
    Follows brought (Attempt.ofExcept result >>= next) n :=
  follows_read rest

theorem follows_each {op : β → Edit Unit} (each : ∀ b n, Follows brought (op b) n)
    (items : List β) : Follows brought (Attempt.each op items) n := by
  induction items generalizing n with
  | nil => exact follows_pure ()
  | cons item rest ih => exact (each item n).bind fun _ _ _ => ih

/-! ## Elementary operations -/

theorem follows_allocate (kind : String) : Follows brought (allocate kind) n :=
  .of_change (.count n (Nat.le_succ _))

theorem follows_allocateAs (kind : String) (id name : Option String) :
    Follows brought (allocateAs kind id name) n :=
  (follows_allocate kind).bind fun _ _ _ => follows_pure _

/-- A change of a guard follows if what it writes is admitted. -/
theorem follows_changeGuard {element : Guarded} {change : Guard → Except Clash Guard}
    (fits : ∀ old new, n.guard element = .ok old → change old = .ok new →
      n.Admits brought new.support) :
    Follows brought (changeGuard element change) n := by
  refine follows_read fun old found => ?_
  -- the note and the write are one change if the write comes about
  cases result : change old with
  | error clash => exact .of_change (.note found)
  | ok new => exact .of_change (.guard found (fits old new found result))

theorem follows_narrow (element : Guarded) (s : Support) :
    Follows brought (narrow element s) n := by
  refine follows_changeGuard fun old new _ result => ?_
  obtain ⟨u, narrowed, rfl⟩ := Guard.and_eq_ok_iff.mp result
  exact .inl (.both narrowed)

theorem follows_setSupport {element : Guarded} {s : Support} (fits : n.Admits brought s) :
    Follows brought (setSupport element s) n := by
  refine follows_changeGuard fun old new _ result => ?_
  obtain ⟨_, rfl⟩ := Guard.set_eq_ok_iff.mp result
  exact fits

theorem follows_clearSupport (element : Guarded) :
    Follows brought (clearSupport element) n := by
  refine follows_changeGuard fun old new _ result => ?_
  obtain rfl := (Except.ok.inj result).symm.trans old.clear_eq
  exact .inl n.derives_always

end Edit

end PlanNetwork
