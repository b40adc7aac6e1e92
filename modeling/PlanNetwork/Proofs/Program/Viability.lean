/-
# No element is ruled out by its own guard

A support is viable if it has a conjunction and all its conjunctions can be met.
All guards of a network are viable, however it has come about, as long as callers
who write a guard without a check write a viable support. What the network writes
by itself is viable because it comes from viable supports, or from the check.

Callers who take no such care can rule elements out, but they cannot leave a guard
without conjunctions: a support that has none is refused.
-/

import PlanNetwork.Proofs.Network.Heritage
import PlanNetwork.Proofs.Program.Reachability

namespace PlanNetwork

open Network

/-- There is a conjunction, and each one can be met. -/
structure Support.Viable (s : Support) : Prop where
  /-- There is a conjunction. -/
  some : s.toList ≠ []
  /-- Each conjunction passes the check. -/
  all : ∀ c ∈ s.toList, c.isSatisfiable = true

theorem Support.viable_of_tryAnd {s t u : Support} (narrowed : s.tryAnd t = .ok u) : u.Viable := by
  obtain ⟨left, rfl⟩ := Support.tryAnd_eq_ok_iff.mp narrowed
  refine ⟨fun empty => ?_, fun c => Support.isSatisfiable_of_mem_and⟩
  rw [Support.isEmpty_iff.mpr empty] at left
  cases left

theorem Support.viable_ofConjunction {c : Conjunction} (passes : c.isSatisfiable = true) :
    (Support.ofConjunction c).Viable := by
  refine ⟨List.cons_ne_nil _ _, fun d member => ?_⟩
  rwa [List.mem_singleton.mp member]

namespace Network

variable {n m : Network}

/-- Every guard is viable. -/
def Viable (n : Network) : Prop := ∀ element g, n.guard element = .ok g → g.support.Viable

theorem viable_empty (tolerance : Number) : (Network.empty tolerance).Viable :=
  Guards.empty Support.Viable tolerance

/-- What a network writes by itself is viable. -/
theorem native_viable : Native Support.Viable :=
  ⟨Support.viable_of_tryAnd, Support.viable_ofConjunction⟩

theorem Viable.evolution (h : n.Viable) (evolution : Evolution Support.Viable n m) : m.Viable :=
  Guards.evolution h native_viable evolution

end Network

/-- Callers write a guard without a check only if they write a viable support. -/
def NetworkCall.IsCareful {α : Type} : NetworkCall α → Prop
  | setSupport _ support => support.Viable
  | addLiteral .. | setConjunction .. => False
  | _ => True

/-- Callers write guards only in ways that are checked, or by replacing them with
viable supports. -/
def Discipline.careful : Discipline
  | _, .edit call => call.IsCareful
  | _, _ => True

theorem Call.brings_viable {α : Type} (call : Call α) (careful : Discipline.careful call) :
    call.Brings (.writing Support.Viable) := by
  cases call with
  | edit call =>
    cases call with
    | setSupport => exact careful
    | addLiteral | setConjunction => exact careful.elim
    | _ => trivial
  | _ => trivial

/-- A careful caller can use loops. -/
theorem Session.loops_careful : Loops .careful :=
  ⟨fun _ => trivial, fun _ _ => trivial, fun _ _ _ => trivial⟩

/-- No element is ruled out by its own guard. Whatever careful calls a program has
come about by, in whatever order, whether they succeeded or were refused, inside
fragments and loops and outside, every guard has a conjunction, and all its
conjunctions can be met. -/
theorem Program.every_guard_is_viable {p : Program} (reachable : p.Reachable .careful) :
    (∀ e ∈ p.network.events, e.guard.support.Viable) ∧
    (∀ e ∈ p.network.episodes, e.guard.support.Viable) ∧
    (∀ c ∈ p.network.temporals, c.guard.support.Viable) ∧
    (∀ c ∈ p.network.states, c.guard.support.Viable) := by
  obtain ⟨waiting, reached⟩ := reachable
  obtain ⟨tolerance, evolution⟩ := reached.evolution Call.brings_viable
  exact forall_guard_iff.mp ((viable_empty tolerance).evolution evolution)

/-- A decision whose second branch ends the execution. The common end exists
where the second value is ruled out. -/
theorem Program.every_guard_is_viable_terminal_branch :
    let first := (Call.addEpisode {}).run.after (.ofConfig {})
    let second := (Call.addEpisode { terminal := true }).run.after first
    let p := (Call.decide { domain := ["A", "B"] } [.episode ⟨0⟩, .episode ⟨1⟩] {}).run.after second
    p.Reachable .careful ∧ p.network.episodes.size = 3 ∧
    (∀ e ∈ p.network.events, e.guard.support.Viable) ∧
    (∀ e ∈ p.network.episodes, e.guard.support.Viable) ∧
    (∀ c ∈ p.network.temporals, c.guard.support.Viable) ∧
    (∀ c ∈ p.network.states, c.guard.support.Viable) := by
  intro first second p
  have reachable : p.Reachable .careful :=
    (((reachable_of_config (by decide +kernel)).call (.addEpisode {}) trivial).call
      (.addEpisode { terminal := true }) trivial).call
      (.decide { domain := ["A", "B"] } [.episode ⟨0⟩, .episode ⟨1⟩] {}) trivial
  exact ⟨reachable, by decide +kernel, every_guard_is_viable reachable⟩

/-! ## Without care -/

/-- There is a conjunction. -/
def Support.Filled (s : Support) : Prop := s.isEmpty = false

theorem Support.filled_iff {s : Support} : s.Filled ↔ s.toList ≠ [] := by
  rw [Filled, ← Bool.not_eq_true, Support.isEmpty_iff]

theorem Support.Filled.withLiteral {s : Support} (h : s.Filled) (a : Literal) :
    (s.withLiteral a).Filled := by
  obtain ⟨c, member⟩ := List.exists_mem_of_ne_nil _ (filled_iff.mp h)
  have added : c.insert a ∈ s.toList.map (·.insert a) := List.mem_map_of_mem member
  obtain ⟨d, there, _⟩ := OrdSet.exists_mem_ofList added
  exact filled_iff.mpr (List.ne_nil_of_mem there)

namespace Network

variable {n : Network}

theorem native_filled : Native Support.Filled :=
  ⟨Support.isEmpty_eq_false_of_tryAnd, fun _ => rfl⟩

theorem Guards.changeGuard {kind : Support → Prop} {element : Guarded}
    {change : Guard → Except Clash Guard} (h : n.Guards kind)
    (keeps : ∀ old new, kind old.support → change old = .ok new → kind new.support) :
    ((Edit.changeGuard element change).after n).Guards kind := by
  cases result : Edit.changeGuard element change n with
  | ok _ m =>
    obtain ⟨old, new, found, changed, rfl⟩ := Edit.changeGuard_eq_ok_iff.mp result
    rw [Attempt.after_of_ok result]
    exact h.note.setGuard (guard_note.trans found) (keeps old new (h _ _ found) changed)
  | error fault m =>
    rw [Attempt.after_of_error result]
    -- by then the guard that was there may have been noted
    rcases Attempt.bind_eq_error_iff.mp result with missing | ⟨_, _, read, rest⟩
    · exact (Attempt.read_eq_error_iff.mp missing).2 ▸ h
    obtain ⟨_, rfl⟩ := Attempt.read_eq_ok_iff.mp read
    rcases Attempt.bind_eq_error_iff.mp rest with ⟨⟨⟩⟩ | ⟨_, _, noted, rest⟩
    obtain rfl := Attempt.modify_eq_ok_iff.mp noted
    rcases Attempt.bind_eq_error_iff.mp rest with stopped | ⟨_, _, _, ⟨⟨⟩⟩⟩
    exact (Attempt.read_eq_error_iff.mp stopped).2 ▸ h.note

/-- Every guard has a conjunction after a call, whatever the caller brings. -/
theorem Guards.filled_run {α : Type} (call : NetworkCall α) (h : n.Guards Support.Filled) :
    (call.run.after n).Guards Support.Filled := by
  have native (brings : call.Brings (.writing Support.Filled)) :
      (call.run.after n).Guards Support.Filled :=
    h.evolution native_filled (call.evolves_run brings n)
  cases call with
  | setSupport element s =>
    refine h.changeGuard fun _ _ _ changed => ?_
    obtain ⟨filled, rfl⟩ := Guard.set_eq_ok_iff.mp changed
    exact filled
  | addLiteral element literal =>
    refine h.changeGuard fun _ _ filled changed => ?_
    obtain rfl := Except.ok.inj changed
    rw [Guard.addLiteral_eq]
    exact filled.withLiteral literal
  | setConjunction element c =>
    refine h.changeGuard fun _ _ _ changed => ?_
    obtain rfl := Except.ok.inj changed
    rfl
  | _ => exact native trivial

theorem respected_filled :
    Respected .any fun n m => n.Guards Support.Filled → m.Guards Support.Filled where
  refl _ := id
  trans first second := second ∘ first
  count n _ _ h := h.of_guards fun element => by cases element <;> rfl
  whole _ kept start :=
    (kept (start.of_guards fun element => by cases element <;> rfl)).of_guards fun _ => guard_commit
  call call _ _ h := h.filled_run call
  event _ h := h.evolution native_filled Edit.follows_addEvent.evolves
  refresh id _ h := h.evolution native_filled (Edit.follows_refreshTemporal id).evolves
  bounds lower upper _ kind h := h.evolution native_filled (Edit.evolves_setBounds kind lower upper)
  detach id _ h := h.evolution native_filled (Edit.evolves_detachTemporal id)

/-- Every guard has a conjunction, however the network has come about. -/
theorem filled_of_reachable
    (reachable : n.Reachable ∨ ∃ p : Program, p.Reachable .free ∧ p.network = n) :
    n.Guards Support.Filled := by
  rcases reachable with built | ⟨p, ⟨waiting, reached⟩, rfl⟩
  · induction built with
    | empty tolerance => exact .empty _ tolerance
    | count more _ ih => exact respected_filled.count _ more ih
    | call call _ ih => exact ih.filled_run call
  · obtain ⟨tolerance, kept⟩ := reached.respects respected_filled fun call _ => call.brings_any
    exact kept (.empty _ tolerance)

end Network

end PlanNetwork
