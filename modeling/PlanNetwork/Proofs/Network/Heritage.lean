/-
# What all guards are

There are kinds of supports that a network does not leave by itself: what two supports
leave of each other is of the kind, and so is one conjunction that can be met. If all
guards are of such a kind, they remain so for as long as callers who write a guard
without a check write supports of the kind.
-/

import PlanNetwork.Proofs.Network.Bare
import PlanNetwork.Proofs.Network.Evolution

namespace PlanNetwork

open Network

variable {kind : Support → Prop} {n m : Network} {s : Support}

namespace Network

/-- Every guard is of the kind. -/
def Guards (kind : Support → Prop) (n : Network) : Prop :=
  ∀ element g, n.guard element = .ok g → kind g.support

/-- A kind that everything belongs to that comes about by narrowing or passes the check. -/
structure Native (kind : Support → Prop) : Prop where
  /-- What two supports leave of each other is of the kind. -/
  both : ∀ {s t u : Support}, s.tryAnd t = .ok u → kind u
  /-- One conjunction that can be met is of the kind. -/
  single : ∀ {c : Conjunction}, c.isSatisfiable = true → kind (.ofConjunction c)

namespace Guards

theorem support {element : Guarded} (h : n.Guards kind) (found : n.support element = .ok s) :
    kind s :=
  h element _ (support_eq_ok_iff.mp found)

theorem empty (kind : Support → Prop) (tolerance : Number) : (Network.empty tolerance).Guards kind := by
  refine forall_guard_iff.mpr ⟨?_, ?_, ?_, ?_⟩ <;> simp [Network.empty]

/-- Nothing but guards matters. -/
theorem of_guards (h : n.Guards kind) (same : ∀ element, m.guard element = n.guard element) :
    m.Guards kind :=
  fun element g found => h element g ((same element).symm.trans found)

/-- What the network gives rise to is of the kind. -/
theorem of_admits (h : n.Guards kind) (native : Native kind) (admitted : n.Admits kind s) :
    kind s := by
  rcases admitted with derived | brought
  · cases derived with
    | held found => exact h.support found
    | both narrowed => exact native.both narrowed
    | single passes => exact native.single passes
  · exact brought

theorem note {element : Guarded} {old : Guard} (h : n.Guards kind) :
    (n.note element old).Guards kind :=
  h.of_guards fun _ => guard_note

theorem setGuard {element : Guarded} {old new : Guard} (h : n.Guards kind)
    (found : n.guard element = .ok old) (fits : kind new.support) :
    (n.setGuard element new).Guards kind := by
  intro other g there
  by_cases same : element = other
  · subst same
    rw [guard_setGuard_self found] at there
    cases there
    exact fits
  · rw [guard_setGuard_of_ne same] at there
    exact h other g there

/-- An elementary change keeps guards of the kind. -/
theorem change (h : n.Guards kind) (native : Native kind) (change : Change kind n m) :
    m.Guards kind := by
  obtain ⟨events, episodes, temporals, states⟩ := forall_guard_iff.mp h
  cases change with
  | count | chance | quantity =>
    exact forall_guard_iff.mpr ⟨events, episodes, temporals, states⟩
  | event e fits =>
    have all := forall_mem_push (P := fun x : Event => kind x.guard.support) events
      (h.of_admits native fits)
    exact forall_guard_iff.mpr ⟨all, episodes, temporals, states⟩
  | episode e fits =>
    have all := forall_mem_push (P := fun x : Episode => kind x.guard.support) episodes
      (h.of_admits native fits)
    exact forall_guard_iff.mpr ⟨events, all, temporals, states⟩
  | temporal c fits =>
    have all := forall_mem_push (P := fun c : TemporalConstraint => kind c.guard.support)
      temporals (h.of_admits native fits)
    exact forall_guard_iff.mpr ⟨events, episodes, all, states⟩
  | state c fits =>
    have all := forall_mem_push (P := fun x : StateConstraint => kind x.guard.support) states
      (h.of_admits native fits)
    exact forall_guard_iff.mpr ⟨events, episodes, temporals, all⟩
  | note => exact h.note
  | guard found fits => exact h.note.setGuard (guard_note.trans found) (h.of_admits native fits)

theorem evolution (h : n.Guards kind) (native : Native kind) (evolution : Evolution kind n m) :
    m.Guards kind := by
  induction evolution with
  | refl => exact h
  | tail _ step ih =>
    rcases step with change | alike
    · exact ih.change native change
    · exact ih.of_guards alike.guards

end Guards

end Network

end PlanNetwork
