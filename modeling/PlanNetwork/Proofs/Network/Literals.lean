/-
# What guards speak of

Say which literals are known. If the choices of a network have known literals only,
and its guards have been written with these, then whatever is done to the network,
its guards still have known literals only: an operation takes the literals of what
it writes from other guards, from the choice that it branches on, or from its
caller.

It does not matter which literals are known. If those about the choices of a
network are, then the guards speak of nothing but these choices.
-/

import PlanNetwork.Proofs.Network.Evolution
import PlanNetwork.Proofs.Network.Retention
import PlanNetwork.Proofs.Support.Literals

namespace PlanNetwork

open Network

variable {known : Literal → Prop} {n m : Network} {s t u : Support}

namespace Network

/-- What a choice can be said to be or not to be is known. -/
def Offers (known : Literal → Prop) (n : Network) : Prop :=
  ∀ {id data}, n.choice id = .ok data → ∀ value ∈ data.subject.domain,
    known (.is data.subject value) ∧ known (.isNot data.subject value)

/-- The choices of a network are those that its events carry. -/
theorem mem_choices {id : EventId} {data : Choice} (found : n.choice id = .ok data) :
    data ∈ n.events.toList.filterMap (·.choice) := by
  obtain ⟨event, there, carried⟩ := choice_eq_ok_iff.mp found
  exact List.mem_filterMap.mpr ⟨event, Array.mem_toList_iff.mpr
    (Array.mem_of_getElem? (lookup_eq_ok_iff.mp there)), carried⟩

/-- The choices have known literals only, and so do the guards. -/
structure Uses (known : Literal → Prop) (n : Network) : Prop where
  /-- The literals about choices are known. -/
  choice : n.Offers known
  /-- The literals of guards are known. -/
  guard : ∀ element g, n.guard element = .ok g → g.support.Only known

theorem uses_empty (tolerance : Number) : (Network.empty tolerance).Uses known := by
  refine ⟨fun found => ?_, forall_guard_iff.mpr ⟨?_, ?_, ?_, ?_⟩⟩
  · obtain ⟨e, there, _⟩ := choice_eq_ok_iff.mp found
    cases there
  all_goals simp [Network.empty]

namespace Uses

/-- The literal that takes a branch is known. -/
theorem is_of_mem_zip {choice : EventId} {data : Choice} {ids : List EpisodeId} (h : n.Uses known)
    (chosen : n.choice choice = .ok data) {entry : String × EpisodeId}
    (member : entry ∈ data.subject.domain.zip ids) : known (.is data.subject entry.1) :=
  (h.choice chosen entry.1 (List.of_mem_zip (b := entry.2) member).1).1

theorem support {element : Guarded} (h : n.Uses known) (found : n.support element = .ok s) :
    s.Only known :=
  h.guard element _ (support_eq_ok_iff.mp found)

theorem endpointSupport {start finish : EventId} (h : n.Uses known)
    (found : n.endpointSupport start finish = .ok s) : s.Only known := by
  obtain ⟨_, _, starts, finishes, both⟩ := endpointSupport_eq_ok_iff.mp found
  exact (h.support starts).tryAnd (h.support finishes) both

/-- Nothing but guards matters as long as no choice is new. -/
theorem of_guards (h : n.Uses known)
    (choices : ∀ {id data}, m.choice id = .ok data → n.choice id = .ok data)
    (guards : ∀ element, m.guard element = n.guard element) : m.Uses known :=
  ⟨fun found => h.choice (choices found), fun element g found =>
    h.guard element g ((guards element).symm.trans found)⟩

theorem of_same (h : n.Uses known) (same : Same n m) : m.Uses known := by
  refine h.of_guards (fun found => ?_) same.guards
  obtain ⟨e, there, carried⟩ := choice_eq_ok_iff.mp found
  obtain ⟨g, there'⟩ := event_of_bare same.bare.symm there
  exact choice_eq_ok_iff.mpr ⟨_, there', carried⟩

theorem withSerial (h : n.Uses known) (later : Nat) : (n.withSerial later).Uses known :=
  h.of_guards id fun element => by cases element <;> rfl

theorem note {element : Guarded} {g : Guard} (h : n.Uses known) : (n.note element g).Uses known := by
  refine h.of_guards (fun found => ?_) fun _ => guard_note
  obtain ⟨e, there, carried⟩ := choice_eq_ok_iff.mp found
  obtain ⟨g, there'⟩ := event_of_bare bare_note.symm there
  exact choice_eq_ok_iff.mpr ⟨_, there', carried⟩

theorem setGuard {element : Guarded} {old new : Guard} (h : n.Uses known)
    (found : n.guard element = .ok old) (only : new.support.Only known) :
    (n.setGuard element new).Uses known := by
  refine ⟨fun chosen => ?_, fun other g there => ?_⟩
  · obtain ⟨e, there, carried⟩ := choice_eq_ok_iff.mp chosen
    obtain ⟨g, there'⟩ := event_of_bare bare_setGuard.symm there
    exact h.choice (choice_eq_ok_iff.mpr ⟨_, there', carried⟩)
  · by_cases same : element = other
    · subst same
      rw [guard_setGuard_self found] at there
      cases there
      exact only
    · rw [guard_setGuard_of_ne same] at there
      exact h.guard other g there

/-- A new event that carries a choice makes its literals known. -/
theorem pushEvent {e : Event} (h : n.Uses known) (only : e.guard.support.Only known)
    (carried : ∀ data, e.choice = some data → ∀ value ∈ data.subject.domain,
      known (.is data.subject value) ∧ known (.isNot data.subject value)) :
    ({ n with events := n.events.push e } : Network).Uses known := by
  obtain ⟨events, rest⟩ := forall_guard_iff.mp h.guard
  refine ⟨fun {id data} chosen => ?_, forall_guard_iff.mpr ⟨forall_mem_push
    (P := fun e : Event => e.guard.support.Only known) events only, rest⟩⟩
  obtain ⟨e', there, carries⟩ := choice_eq_ok_iff.mp chosen
  have there := lookup_eq_ok_iff.mp there
  by_cases old : id.index < n.events.size
  · rw [Array.getElem?_push, if_neg (Nat.ne_of_lt old)] at there
    exact h.choice (choice_eq_ok_iff.mpr ⟨e', lookup_eq_ok_iff.mpr there, carries⟩)
  · rw [Array.getElem?_push] at there
    split at there
    · obtain rfl := Option.some.inj there
      exact carried data carries
    · rw [Array.getElem?_eq_none (Nat.le_of_not_lt old)] at there
      cases there

theorem pushEpisode {e : Episode} (h : n.Uses known) (only : e.guard.support.Only known) :
    ({ n with episodes := n.episodes.push e } : Network).Uses known := by
  obtain ⟨events, episodes, rest⟩ := forall_guard_iff.mp h.guard
  exact ⟨h.choice, forall_guard_iff.mpr ⟨events, forall_mem_push
    (P := fun e : Episode => e.guard.support.Only known) episodes only, rest⟩⟩

theorem pushTemporal {c : TemporalConstraint} (h : n.Uses known)
    (only : c.guard.support.Only known) :
    ({ n with temporals := n.temporals.push c } : Network).Uses known := by
  obtain ⟨events, episodes, temporals, states⟩ := forall_guard_iff.mp h.guard
  exact ⟨h.choice, forall_guard_iff.mpr ⟨events, episodes, forall_mem_push
    (P := fun c : TemporalConstraint => c.guard.support.Only known) temporals only, states⟩⟩

theorem pushState {c : StateConstraint} (h : n.Uses known) (only : c.guard.support.Only known) :
    ({ n with states := n.states.push c } : Network).Uses known := by
  obtain ⟨events, episodes, temporals, states⟩ := forall_guard_iff.mp h.guard
  exact ⟨h.choice, forall_guard_iff.mpr ⟨events, episodes, temporals, forall_mem_push
    (P := fun c : StateConstraint => c.guard.support.Only known) states only⟩⟩

theorem checkpoint (h : n.Uses known) : n.checkpoint.Uses known := h.of_same (same_checkpoint n)

theorem commit (h : n.Uses known) : n.commit.Uses known := h.of_same (same_commit n)

end Uses

end Network

namespace Edit

variable {α β : Type}

/-- Whatever the outcome, the network uses known literals only if it did before. -/
def Repeats (known : Literal → Prop) (op : Edit α) (n : Network) : Prop :=
  n.Uses known → (op.after n).Uses known

/-! ## Putting operations together -/

theorem Repeats.of_unchanged {op : Edit α} (same : op.after n = n) : Repeats known op n := by
  rw [Repeats, same]
  exact id

theorem Repeats.of_ok {op : Edit α} {a : α} (h : Repeats known op n) (done : op n = .ok a m)
    (uses : n.Uses known) : m.Uses known := by
  have after := h uses
  rwa [Attempt.after_of_ok done] at after

theorem Repeats.bind {op : Edit α} {next : α → Edit β} (first : Repeats known op n)
    (rest : ∀ a m, op n = .ok a m → m.Uses known → Repeats known (next a) m) :
    Repeats known (op >>= next) n := by
  intro uses
  cases result : op n with
  | ok a m =>
    have after : m.Uses known := Attempt.after_of_ok result ▸ first uses
    have same : (op >>= next).after n = (next a).after m := by
      rw [Attempt.after, Attempt.bind_of_ok result, Attempt.after]
    rw [same]
    exact rest a m result after after
  | error fault m =>
    rw [Attempt.after_of_error (Attempt.bind_eq_error_iff.mpr (.inl result)),
      ← Attempt.after_of_error result]
    exact first uses

theorem repeats_pure (a : α) : Repeats known (pure a : Edit α) n := id

theorem repeats_throw (fault : Fault) : Repeats known (throw fault : Edit α) n := id

theorem repeats_read {view : Network → Except Fault α} {next : α → Edit β}
    (rest : ∀ a, view n = .ok a → n.Uses known → Repeats known (next a) n) :
    Repeats known (Attempt.read view >>= next) n := by
  refine (Repeats.of_unchanged (Attempt.after_read view)).bind fun a m result uses => ?_
  obtain ⟨value, rfl⟩ := Attempt.read_eq_ok_iff.mp result
  exact rest a value uses

theorem repeats_ofExcept {result : Except Fault α} {next : α → Edit β}
    (rest : ∀ a, result = .ok a → n.Uses known → Repeats known (next a) n) :
    Repeats known (Attempt.ofExcept result >>= next) n :=
  repeats_read rest

theorem repeats_each {op : β → Edit Unit} (each : ∀ b n, Repeats known (op b) n) (items : List β) :
    Repeats known (Attempt.each op items) n := by
  induction items generalizing n with
  | nil => exact repeats_pure ()
  | cons item rest ih => exact (each item n).bind fun _ _ _ _ => ih

/-- Undoing takes back the guards that were written, so only the steps matter. -/
theorem repeats_atomically {op : Edit α}
    (refused : ∀ {fault k}, op n.checkpoint = .error fault k →
      Trail (fun _ => True) n.checkpoint k)
    (steps : ∀ k, k.bare = n.bare → Repeats known op k) : Repeats known (atomically op) n :=
  after_atomically (R := fun n m : Network => n.Uses known → m.Uses known) refused
    (fun left right => right ∘ left) steps (fun _ => .checkpoint) (fun _ => .commit)
    fun _ later uses => uses.withSerial later

/-! ## Elementary operations -/

theorem repeats_allocate (kind : String) : Repeats known (allocate kind) n :=
  fun uses => uses.withSerial _

theorem repeats_allocateAs (kind : String) (id name : Option String) :
    Repeats known (allocateAs kind id name) n :=
  (repeats_allocate kind).bind fun _ _ _ _ => repeats_pure _

theorem repeats_changeGuard {element : Guarded} {change : Guard → Except Clash Guard}
    (only : ∀ old new, old.support.Only known → change old = .ok new → new.support.Only known) :
    Repeats known (changeGuard element change) n := by
  refine repeats_read fun old found _ => ?_
  cases result : change old with
  | error clash => exact fun uses => uses.note
  | ok new => exact fun uses =>
      uses.note.setGuard (guard_note.trans found) (only old new (uses.guard _ _ found) result)

theorem repeats_narrow (element : Guarded) (only : s.Only known) :
    Repeats known (narrow element s) n := by
  refine repeats_changeGuard fun old new before result => ?_
  obtain ⟨_, narrowed, rfl⟩ := Guard.and_eq_ok_iff.mp result
  exact before.tryAnd only narrowed

theorem repeats_setSupport (element : Guarded) (only : s.Only known) :
    Repeats known (setSupport element s) n := by
  refine repeats_changeGuard fun _ _ _ result => ?_
  obtain ⟨_, rfl⟩ := Guard.set_eq_ok_iff.mp result
  exact only

theorem repeats_addLiteral (element : Guarded) {literal : Literal} (h : known literal) :
    Repeats known (addLiteral element literal) n := by
  refine repeats_changeGuard fun old _ before result => ?_
  obtain rfl := Except.ok.inj result
  rw [Guard.addLiteral_eq]
  exact before.withLiteral h

theorem repeats_setConjunction (element : Guarded) {conjunction : Conjunction}
    (only : ∀ a ∈ conjunction.toList, known a) :
    Repeats known (setConjunction element conjunction) n := by
  refine repeats_changeGuard fun _ _ _ result => ?_
  obtain rfl := Except.ok.inj result
  exact Support.only_ofConjunction only

theorem repeats_clearSupport (element : Guarded) : Repeats known (clearSupport element) n := by
  refine repeats_changeGuard fun old _ _ result => ?_
  obtain rfl := (Except.ok.inj result).symm.trans old.clear_eq
  exact Support.only_always

/-! ## New elements -/

theorem repeats_addEventAs (identity : Identity) : Repeats known (addEventAs identity) n :=
  fun uses => uses.pushEvent Support.only_always nofun

theorem repeats_addEvent : Repeats known addEvent n :=
  (repeats_allocate _).bind fun _ _ _ _ => repeats_addEventAs _

theorem repeats_eventOrNew (given : Option EventId) : Repeats known (eventOrNew given) n := by
  cases given with
  | some id => exact repeats_pure id
  | none => exact repeats_addEvent

theorem repeats_addQuantity (name : String) (domain : StateDomain) :
    Repeats known (addQuantity name domain) n :=
  repeats_ofExcept fun _ _ _ => (repeats_allocate _).bind fun _ _ _ _ uses =>
    uses.of_guards id fun element => by cases element <;> rfl

theorem repeats_linkUnder (start finish : EventId) (bounds : Bounds) (only : s.Only known) :
    Repeats known (linkUnder start finish bounds s) n := by
  refine repeats_ofExcept fun guard made _ => (repeats_allocate _).bind fun _ _ _ _ uses => ?_
  obtain ⟨_, rfl⟩ := Guard.set_eq_ok_iff.mp (refuseClash_eq_ok_iff.mp made)
  exact uses.pushTemporal only

theorem repeats_link (start finish : EventId) (bounds : Bounds) :
    Repeats known (link start finish bounds) n :=
  repeats_read fun _ found uses => repeats_linkUnder _ _ _ (uses.endpointSupport found)

theorem repeats_addTemporal (start finish : EventId) (spec : DurationSpec) :
    Repeats known (addTemporal start finish spec) n :=
  repeats_ofExcept fun _ _ _ => repeats_link _ _ _

theorem repeats_addDuration (start finish : EventId) (spec : DurationSpec) :
    Repeats known (addDuration start finish spec) n := by
  refine repeats_ofExcept fun _ _ _ => repeats_read fun _ both uses =>
    repeats_read fun _ last _ => repeats_ofExcept fun _ narrowed _ => ?_
  exact repeats_linkUnder _ _ _ ((uses.endpointSupport both).tryAnd (uses.support last)
    (refuseClash_eq_ok_iff.mp narrowed))

theorem repeats_addStateConstraint (scope : List VariableId) (condition : StateCondition) :
    Repeats known (addStateConstraint scope condition) n :=
  (repeats_allocate _).bind fun _ _ _ _ uses => uses.pushState Support.only_always

theorem repeats_addAssignmentConstraint (scope : List VariableId) (values : List StateValue) :
    Repeats known (addAssignmentConstraint scope values) n := by
  refine repeats_read fun _ _ _ => ?_
  by_cases mismatch : scope.length ≠ values.length
  · rw [if_pos mismatch]
    exact repeats_throw _
  · rw [if_neg mismatch]
    exact repeats_read fun _ _ _ => repeats_addStateConstraint _ _

theorem repeats_addLinearConstraint (scope : List VariableId) (coefficients : List Number)
    (relation : Relation) (bound : Number) :
    Repeats known (addLinearConstraint scope coefficients relation bound) n := by
  refine repeats_read fun _ _ _ => ?_
  by_cases mismatch : scope.length ≠ coefficients.length
  · rw [if_pos mismatch]
    exact repeats_throw _
  · rw [if_neg mismatch]
    exact repeats_addStateConstraint _ _

theorem repeats_addChance (constraints : List ConstraintId) (risk : Number) :
    Repeats known (addChance constraints risk) n := by
  unfold addChance
  split
  · exact repeats_read fun _ _ _ => (repeats_allocate _).bind fun _ _ _ _ uses =>
      uses.of_guards id fun element => by cases element <;> rfl
  · exact repeats_throw _

theorem repeats_addDraft (draft : EpisodeDraft) {finishing : Episode → Episode}
    (keeps : ∀ e, (finishing e).guard = e.guard) : Repeats known (addDraft draft finishing) n := by
  refine repeats_read fun _ _ _ => repeats_read fun _ _ _ => ?_
  refine (repeats_addDuration _ _ _).bind fun duration m _ _ uses => uses.pushEpisode ?_
  rw [keeps]
  exact Support.only_always

theorem repeats_addEpisode (spec : EpisodeSpec) : Repeats known (addEpisode spec) n := by
  refine repeats_read fun _ _ _ => repeats_read fun _ _ _ => repeats_read fun _ _ _ =>
    repeats_read fun _ _ _ => repeats_read fun _ _ _ => ?_
  refine repeats_atomically (Follows.of_error ?_) fun k _ => ?_
  · refine (follows_eventOrNew _).bind fun _ _ _ => (follows_eventOrNew _).bind fun _ _ _ => ?_
    exact (follows_allocateAs ..).bind fun _ _ _ => follows_addDraft _ fun _ => rfl
  · refine (repeats_eventOrNew _).bind fun _ _ _ _ => (repeats_eventOrNew _).bind fun _ _ _ _ => ?_
    exact (repeats_allocateAs _ _ _).bind fun _ _ _ _ => repeats_addDraft _ fun _ => rfl

/-! ## Changes -/

theorem repeats_refreshTemporal (id : TemporalId) : Repeats known (refreshTemporal id) n :=
  repeats_read fun _ _ _ => repeats_read fun _ found uses =>
    repeats_setSupport _ (uses.endpointSupport found)

theorem repeats_replacementDurations (ids : List EpisodeId) :
    Repeats known (replacementDurations ids) n := by
  induction ids generalizing n with
  | nil => exact repeats_pure []
  | cons id rest ih =>
    exact repeats_read fun _ _ _ => (repeats_addDuration _ _ _).bind fun _ _ _ _ =>
      ih.bind fun _ _ _ _ => repeats_pure _

end Edit

end PlanNetwork
