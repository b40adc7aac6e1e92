/-
# How callers conduct themselves

A discipline says which calls may be made, whatever has come about so far. Callers may
keep to more than that: they speak of choices that they have been given, or they make
an event with an identity that nothing else has. Whether they do so shows when the call
is made, so their conduct is said of the call and of what it is made to.

Callers conduct themselves towards networks, be it by themselves or through programs. A
program takes serial numbers, makes calls to its network on its own, and takes
constraints away. On such a course it identifies no event, and guards speak of nothing
that has not been spoken of but for new choices. So it is enough to know what the calls
do that are made to the network itself.
-/

import PlanNetwork.Proofs.Composition.Course
import PlanNetwork.Proofs.Network.Serials
import PlanNetwork.Proofs.Program.Literals

namespace PlanNetwork

open Network

variable {n m : Network} {p : Program} {waiting : List Program}

/-! ## Conduct towards programs -/

/-- Which calls callers make, by the program that they make them to. -/
abbrev Conduct : Type 1 := ∀ ⦃α : Type⦄, Program → Call α → Prop

/-- The programs that come about by calls that callers make if they conduct themselves
so, each with the programs that wait for the bodies of fragments to end, innermost
first. -/
inductive Conducted (conduct : Conduct) : Program → List Program → Prop where
  /-- A program starts without elements. -/
  | fresh {config : Config} {p : Program} (valid : Program.new config = .ok p) :
      Conducted conduct p []
  /-- A call is made, and succeeds or is refused. -/
  | call {p : Program} {waiting : List Program} {α : Type} (call : Call α) (may : conduct p call)
      (before : Conducted conduct p waiting) : Conducted conduct (call.run.after p) waiting
  /-- The body of a fragment starts. -/
  | enter {p : Program} {waiting : List Program} (before : Conducted conduct p waiting) :
      Conducted conduct (Session.setAside p) (p :: waiting)
  /-- The body of a fragment ends. -/
  | leave {p q : Program} {waiting : List Program}
      (before : Conducted conduct q (p :: waiting)) :
      Conducted conduct (Session.takeBack p q) waiting

/-- A program that comes about by such conduct. -/
def Program.ComesBy (conduct : Conduct) (p : Program) : Prop := ∃ waiting, Conducted conduct p waiting

variable {conduct other : Conduct}

theorem Conducted.mono (h : Conducted conduct p waiting)
    (implies : ∀ {α : Type} (p : Program) (call : Call α), conduct p call → other p call) :
    Conducted other p waiting := by
  induction h with
  | fresh valid => exact .fresh valid
  | call call may _ ih => exact ih.call call (implies _ call may)
  | enter _ ih => exact ih.enter
  | leave _ ih => exact ih.leave

theorem conducted_of_config {config : Config} (valid : config.validate.isOk = true) :
    Conducted conduct (.ofConfig config) [] :=
  .fresh (Program.new_eq_ok valid)

/-- Calls that callers make in any case do not need to be looked at one by one. -/
theorem Conducted.afterCalls {calls : List ((α : Type) × Call α)}
    (before : Conducted conduct p waiting) (may : ∀ call ∈ calls, ∀ p, conduct p call.2) :
    Conducted conduct (p.afterCalls calls) waiting := by
  induction calls generalizing p with
  | nil => exact before
  | cons call rest ih =>
    obtain ⟨first, others⟩ := List.forall_mem_cons.mp may
    exact ih (before.call call.2 (first p)) others

/-! ## Conduct towards networks -/

/-- Which calls callers make to a network, by what it is. -/
abbrev NetworkConduct : Type 1 := ∀ ⦃α : Type⦄, Network → NetworkCall α → Prop

/-- The networks that come about by calls that callers make if they conduct themselves
so. Others may take serial numbers in between. -/
inductive Network.ComesBy (conduct : NetworkConduct) : Network → Prop where
  /-- A network starts without elements. -/
  | empty (tolerance : Number) : ComesBy conduct (.empty tolerance)
  /-- Serial numbers are given out elsewhere. -/
  | count {n : Network} {later : Nat} (more : n.nextSerial ≤ later) (before : ComesBy conduct n) :
      ComesBy conduct (n.withSerial later)
  /-- A call is made, and succeeds or is refused. -/
  | call {n : Network} {α : Type} (call : NetworkCall α) (may : conduct n call)
      (before : ComesBy conduct n) : ComesBy conduct (call.run.after n)

/-- Callers of a program conduct themselves so towards its network. -/
def Call.Through (conduct : NetworkConduct) : Conduct := fun _ p call =>
  match call with
  | .edit call => conduct p.network call
  | _ => True

/-- A network that comes about so, by itself or in a program. -/
def Network.Arises (conduct : NetworkConduct) (n : Network) : Prop :=
  n.ComesBy conduct ∨ ∃ p : Program, p.ComesBy (Call.Through conduct) ∧ p.network = n

theorem Network.Reachable.comesBy (h : n.Reachable) : n.ComesBy fun _ _ _ => True := by
  induction h with
  | empty tolerance => exact .empty tolerance
  | count more _ ih => exact ih.count more
  | call call _ ih => exact ih.call call trivial

theorem Reached.conducted {allowed : Discipline} (h : Reached allowed p waiting) :
    Conducted (Call.Through fun _ _ _ => True) p waiting := by
  induction h with
  | fresh valid => exact .fresh valid
  | call call _ _ ih => exact ih.call call (by cases call <;> trivial)
  | enter _ ih => exact ih.enter
  | leave _ ih => exact ih.leave

/-- Whatever the calls were, a conduct that allows all calls has allowed them. -/
theorem Network.arises_of_reachable
    (reachable : n.Reachable ∨ ∃ p : Program, p.Reachable .free ∧ p.network = n) :
    n.Arises fun _ _ _ => True := by
  rcases reachable with built | ⟨p, ⟨waiting, built⟩, same⟩
  · exact .inl built.comesBy
  · exact .inr ⟨p, ⟨waiting, built.conducted⟩, same⟩

/-! ## What holds whatever the calls were -/

theorem Build.network_after_edit {α : Type} (op : Edit α) :
    ((edit op).after p).network = op.after p.network := by
  show ((onNetwork op).after p.stale).network = op.after p.network
  unfold onNetwork
  rw [Attempt.after_focus]
  rfl

/-- Callers may do anything but identify events. -/
def Licence.unidentified : Licence := ⟨fun _ => False, fun _ => True, fun _ _ => True⟩

section Kept

variable {conduct : NetworkConduct} (holds : Network → Prop)
  (start : ∀ tolerance, holds (.empty tolerance))
  (own : ∀ {n m}, Course .unidentified n m → (∀ known, Echoes known n m) → holds n → holds m)
  (call : ∀ {α : Type} {n} {call : NetworkCall α}, conduct n call → holds n →
    holds (call.run.after n))

include start own call

theorem Network.ComesBy.holds_network (h : n.ComesBy conduct) : holds n := by
  induction h with
  | empty tolerance => exact start tolerance
  | @count n later more _ ih =>
    exact own (.single (.count more)) (fun _ => .withSerial n later) ih
  | call _ may _ ih => exact call may ih

theorem Conducted.holds_network (h : Conducted (Call.Through conduct) p waiting) :
    holds p.network := by
  induction h with
  | fresh valid =>
    obtain ⟨_, _, rfl⟩ := map_eq_ok_iff.mp valid
    exact start _
  | @call p waiting α asked may _ ih =>
    have alone (asks : asked.AsksFor fun _ call => call.Within .unidentified)
        (brings : ∀ known, asked.Brings (.speaking known)) :
        holds (asked.run.after p).network :=
      own (asked.respects_run_under (respectedUnder_course _) asks p).network
        (fun known => (asked.respects_run respected_echoes (brings known) p).network) ih
    cases asked with
    | edit asked => exact Build.network_after_edit asked.run ▸ call may ih
    | decide => exact alone (fun _ => trivial) fun _ => trivial
    | _ => exact alone trivial fun _ => trivial
  | enter _ ih => exact ih
  | leave _ ih => exact ih

/-- What holds at the start, and is kept by what programs do on their own and by the calls
that callers make to networks, holds in the end. -/
theorem Network.Arises.holds_network (h : n.Arises conduct) : holds n := by
  obtain made | ⟨p, ⟨waiting, made⟩, rfl⟩ := h
  · exact made.holds_network holds start own call
  · exact made.holds_network holds start own call

end Kept

end PlanNetwork
