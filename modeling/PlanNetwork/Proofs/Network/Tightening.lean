/-
# What becomes of guards

An operation that makes elements or narrows guards leaves of the guard of an old
element at least what it said before. Operations that put a guard in the place
of another are the exception, so a statement on what an operation does to a
network names the elements it may narrow and those it may give another guard.
The guards of all other old elements are what they were.
-/

import PlanNetwork.Proofs.Network.Success
import PlanNetwork.Proofs.Support.Refinement

namespace PlanNetwork

variable {narrowed replaced : Guarded → Prop} {n m k : Network} {element x y : Guarded}
  {s t : Support}

namespace Network

/-- The network has grown, and old guards have been narrowed or replaced only
where this is allowed. -/
structure Tightened (narrowed replaced : Guarded → Prop) (n m : Network) : Prop extends
    Grows (fun element => narrowed element ∨ replaced element) n m where
  /-- A guard that has not been replaced says what it said, or more. -/
  refines : ∀ {element s}, ¬ replaced element → n.support element = .ok s →
    ∃ t, m.support element = .ok t ∧ t.Refines s

/-- The one element exists only where the other does. -/
def Presupposes (n : Network) (x y : Guarded) : Prop :=
  ∃ s t, n.support x = .ok s ∧ n.support y = .ok t ∧ s.Entails t

namespace Tightened

/-- Where old guards have not been touched at all, they say what they said. -/
theorem of_grows (h : Grows (fun _ => False) n m) : Tightened narrowed replaced n m :=
  ⟨h.mono fun _ _ => False.elim, fun _ found => ⟨_, h.support not_false found, .refl _⟩⟩

theorem of_same (h : Same n m) : Tightened narrowed replaced n m := .of_grows h.adds.toGrows

theorem refl (n : Network) : Tightened narrowed replaced n n := .of_grows (.refl n)

theorem trans (first : Tightened narrowed replaced n k) (second : Tightened narrowed replaced k m) :
    Tightened narrowed replaced n m := by
  refine ⟨first.toGrows.trans second.toGrows, fun kept found => ?_⟩
  obtain ⟨t, found, less⟩ := first.refines kept found
  obtain ⟨u, found, lesser⟩ := second.refines kept found
  exact ⟨u, found, lesser.trans less⟩

/-- More may be allowed, and what is allowed of new elements does not matter. -/
theorem mono {narrowed' replaced' : Guarded → Prop} (h : Tightened narrowed replaced n m)
    (narrows : ∀ element, n.Has element → narrowed element → narrowed' element ∨ replaced' element)
    (replaces : ∀ element, n.Has element → replaced element → replaced' element) :
    Tightened narrowed' replaced' n m := by
  refine ⟨h.toGrows.mono fun element there => ?_, fun kept found => ?_⟩
  · rintro (allowed | allowed)
    · exact narrows element there allowed
    · exact .inr (replaces element there allowed)
  · exact h.refines (fun allowed => kept (replaces _ (has_of_support found) allowed)) found

/-- Where nothing may be narrowed or replaced, all that is asked of what may be is met. -/
theorem widen (h : Tightened (fun _ => False) (fun _ => False) n m) :
    Tightened narrowed replaced n m :=
  h.mono (fun _ _ => False.elim) fun _ _ => False.elim

/-- New elements may be given any guard. -/
theorem of_new (h : Tightened narrowed (fun element => n.Has element → replaced element) n m) :
    Tightened narrowed replaced n m :=
  h.mono (fun _ _ => .inl) fun _ there allowed => allowed there

/-- A guard that may be neither narrowed nor replaced is what it was. -/
theorem support (h : Tightened narrowed replaced n m) (untouched : ¬ narrowed element)
    (kept : ¬ replaced element) (found : n.support element = .ok s) :
    m.support element = .ok s :=
  h.toGrows.support (not_or.mpr ⟨untouched, kept⟩) found

/-- One guard has been written. -/
theorem write {g : Guard} (found : n.support element = .ok s)
    (allowed : narrowed element ∧ t.Refines s ∨ replaced element) :
    Tightened narrowed replaced n ((n.note element g).setGuard element (.ofSupport t)) := by
  have others {other : Guarded} (differ : element ≠ other) :
      ((n.note element g).setGuard element (.ofSupport t)).guard other = n.guard other :=
    (guard_setGuard_of_ne differ).trans guard_note
  refine ⟨.of_bare (bare_setGuard.trans bare_note) fun other apart => others ?_,
    fun {other s'} kept there => ?_⟩
  · rintro rfl
    exact apart (allowed.imp And.left id)
  · by_cases same : element = other
    · subst same
      obtain rfl : s' = s := Except.ok.inj (there.symm.trans found)
      obtain ⟨_, less⟩ := allowed.resolve_right kept
      exact ⟨t, support_eq_ok_iff.mpr (guard_setGuard_self
        (guard_note.trans (support_eq_ok_iff.mp found))), less⟩
    · exact ⟨s', support_eq_ok_iff.mpr ((others same).trans (support_eq_ok_iff.mp there)), .refl _⟩

end Tightened

/-- The one element still exists only where the other does, if its guard has at
most been narrowed and that of the other is what it was. -/
theorem Presupposes.tightened (h : n.Presupposes x y) (step : Tightened narrowed replaced n m)
    (kept : ¬ replaced x) (same : ∀ {t}, n.support y = .ok t → m.support y = .ok t) :
    m.Presupposes x y := by
  obtain ⟨s, t, found, there, entails⟩ := h
  obtain ⟨u, found', less⟩ := step.refines kept found
  exact ⟨u, t, found', same there, less.entails.trans entails⟩

end Network

open Network

namespace Edit

variable {α β : Type}

/-- If it succeeds, the operation narrows and replaces guards only where this is
allowed. -/
structure Tightens (narrowed replaced : Guarded → Prop) (op : Edit α) (n : Network) : Prop where
  /-- What the network is then. -/
  of_ok : ∀ {a m}, op n = .ok a m → Tightened narrowed replaced n m

/-! ## Putting operations together -/

theorem Tightens.of_after {op : Edit α} (h : Tightened narrowed replaced n (op.after n)) :
    Tightens narrowed replaced op n := by
  refine ⟨fun done => ?_⟩
  rwa [Attempt.after_of_ok done] at h

theorem tightens_pure (a : α) : Tightens narrowed replaced (pure a : Edit α) n :=
  .of_after (.refl n)

theorem tightens_throw (fault : Fault) : Tightens narrowed replaced (throw fault : Edit α) n :=
  .of_after (.refl n)

theorem Tightens.bind {op : Edit α} {next : α → Edit β} (first : Tightens narrowed replaced op n)
    (rest : ∀ a m, op n = .ok a m → Tightens narrowed replaced (next a) m) :
    Tightens narrowed replaced (op >>= next) n := by
  refine ⟨fun done => ?_⟩
  obtain ⟨a, k, start, later⟩ := Attempt.bind_eq_ok_iff.mp done
  exact (first.of_ok start).trans ((rest a k start).of_ok later)

theorem tightens_read {view : Network → Except Fault α} {next : α → Edit β}
    (rest : ∀ a, view n = .ok a → Tightens narrowed replaced (next a) n) :
    Tightens narrowed replaced (Attempt.read view >>= next) n := by
  refine ⟨fun done => ?_⟩
  obtain ⟨a, _, start, later⟩ := Attempt.bind_eq_ok_iff.mp done
  obtain ⟨value, rfl⟩ := Attempt.read_eq_ok_iff.mp start
  exact (rest a value).of_ok later

theorem tightens_ofExcept {result : Except Fault α} {next : α → Edit β}
    (rest : ∀ a, result = .ok a → Tightens narrowed replaced (next a) n) :
    Tightens narrowed replaced (Attempt.ofExcept result >>= next) n :=
  tightens_read rest

theorem tightens_each {op : β → Edit Unit} {items : List β}
    (each : ∀ item ∈ items, ∀ n, Tightens narrowed replaced (op item) n) :
    Tightens narrowed replaced (Attempt.each op items) n := by
  induction items generalizing n with
  | nil => exact tightens_pure ()
  | cons item rest ih =>
    obtain ⟨first, others⟩ := List.forall_mem_cons.mp each
    exact (first n).bind fun _ _ _ => ih others

theorem tightens_atomically {op : Edit α}
    (steps : ∀ k, Same n k → Tightens narrowed replaced op k) :
    Tightens narrowed replaced (atomically op) n := by
  refine ⟨fun done => ?_⟩
  obtain ⟨n', m', start, inner, finish⟩ := exists_same_of_atomically_eq_ok done
  exact ((Tightened.of_same start).trans ((steps n' start).of_ok inner)).trans (.of_same finish)

/-! ## Elementary operations -/

theorem tightens_allocate (kind : String) : Tightens narrowed replaced (allocate kind) n :=
  .of_after (.of_grows (adds_withSerial (Nat.le_succ _)).toGrows)

theorem tightens_allocateAs (kind : String) (id name : Option String) :
    Tightens narrowed replaced (allocateAs kind id name) n :=
  (tightens_allocate kind).bind fun _ _ _ => tightens_pure _

theorem tightens_changeGuard {change : Guard → Except Clash Guard}
    (allowed : ∀ {old new}, n.guard element = .ok old → change old = .ok new →
      narrowed element ∧ new.support.Refines old.support ∨ replaced element) :
    Tightens narrowed replaced (changeGuard element change) n := by
  refine ⟨fun done => ?_⟩
  obtain ⟨old, new, found, changed, rfl⟩ := changeGuard_eq_ok_iff.mp done
  have there : n.support element = .ok old.support := map_eq_ok_iff.mpr ⟨old, found, rfl⟩
  rw [new.eq_ofSupport]
  exact .write there (allowed found changed)

theorem tightens_narrow {s : Support} (allowed : narrowed element ∨ replaced element) :
    Tightens narrowed replaced (narrow element s) n := by
  refine tightens_changeGuard fun _ changed => allowed.imp_left fun narrows => ⟨narrows, ?_⟩
  obtain ⟨_, result, rfl⟩ := Guard.and_eq_ok_iff.mp changed
  exact Support.refines_left_of_tryAnd result

theorem tightens_addLiteral {literal : Literal} (allowed : narrowed element ∨ replaced element) :
    Tightens narrowed replaced (addLiteral element literal) n := by
  refine tightens_changeGuard fun _ changed => allowed.imp_left fun narrows => ⟨narrows, ?_⟩
  obtain rfl := Except.ok.inj changed
  exact Support.refines_withLiteral _ _

theorem tightens_setSupport {s : Support} (allowed : replaced element) :
    Tightens narrowed replaced (setSupport element s) n :=
  tightens_changeGuard fun _ _ => .inr allowed

theorem tightens_setConjunction {c : Conjunction} (allowed : replaced element) :
    Tightens narrowed replaced (setConjunction element c) n :=
  tightens_changeGuard fun _ _ => .inr allowed

theorem tightens_eventOrNew (given : Option EventId) :
    Tightens narrowed replaced (eventOrNew given) n := by
  cases given with
  | some id => exact tightens_pure id
  | none =>
    exact (tightens_allocate _).bind fun _ m _ =>
      .of_after (.of_grows (adds_pushEvent m _).toGrows)

theorem tightens_addEventAs (identity : Identity) :
    Tightens narrowed replaced (addEventAs identity) n :=
  .of_after (.of_grows (adds_pushEvent n _).toGrows)

theorem tightens_addChoice (spec : ChoiceSpec) : Tightens narrowed replaced (addChoice spec) n :=
  tightens_read fun _ _ => (tightens_allocateAs ..).bind fun _ m _ =>
    .of_after (.of_grows (adds_pushEvent m _).toGrows)

theorem tightens_addQuantity (name : String) (domain : StateDomain) :
    Tightens narrowed replaced (addQuantity name domain) n :=
  tightens_ofExcept fun _ _ => (tightens_allocate _).bind fun _ _ _ =>
    .of_after (.of_grows (.of_lookups id id id id (Nat.le_refl _)))

theorem tightens_linkUnder (start finish : EventId) (bounds : Bounds) (s : Support) :
    Tightens narrowed replaced (linkUnder start finish bounds s) n :=
  tightens_ofExcept fun _ _ => (tightens_allocate _).bind fun _ m _ =>
    .of_after (.of_grows (adds_pushTemporal m _).toGrows)

theorem tightens_link (start finish : EventId) (bounds : Bounds) :
    Tightens narrowed replaced (link start finish bounds) n :=
  tightens_read fun _ _ => tightens_linkUnder ..

theorem tightens_addTemporal (start finish : EventId) (spec : DurationSpec) :
    Tightens narrowed replaced (addTemporal start finish spec) n :=
  tightens_ofExcept fun _ _ => tightens_link ..

theorem tightens_addDuration (start finish : EventId) (spec : DurationSpec) :
    Tightens narrowed replaced (addDuration start finish spec) n :=
  tightens_ofExcept fun _ _ => tightens_read fun _ _ => tightens_read fun _ _ =>
    tightens_ofExcept fun _ _ => tightens_linkUnder ..

theorem tightens_addStateConstraint (scope : List VariableId) (condition : StateCondition) :
    Tightens narrowed replaced (addStateConstraint scope condition) n :=
  (tightens_allocate _).bind fun _ _ _ =>
    .of_after (.of_grows (.of_lookups id id id lookup_push (Nat.le_refl _)))

theorem tightens_addAssignmentConstraint (scope : List VariableId) (values : List StateValue) :
    Tightens narrowed replaced (addAssignmentConstraint scope values) n := by
  refine tightens_read fun _ _ => ?_
  by_cases mismatch : scope.length ≠ values.length
  · rw [if_pos mismatch]
    exact tightens_throw _
  · rw [if_neg mismatch]
    exact tightens_read fun _ _ => tightens_addStateConstraint ..

theorem tightens_addLinearConstraint (scope : List VariableId) (coefficients : List Number)
    (relation : Relation) (bound : Number) :
    Tightens narrowed replaced (addLinearConstraint scope coefficients relation bound) n := by
  refine tightens_read fun _ _ => ?_
  by_cases mismatch : scope.length ≠ coefficients.length
  · rw [if_pos mismatch]
    exact tightens_throw _
  · rw [if_neg mismatch]
    exact tightens_addStateConstraint ..

theorem tightens_addChance (constraints : List ConstraintId) (risk : Number) :
    Tightens narrowed replaced (addChance constraints risk) n := by
  unfold addChance
  split
  · exact tightens_read fun _ _ => (tightens_allocate _).bind fun _ _ _ =>
      .of_after (.of_grows (.of_lookups id id id id (Nat.le_refl _)))
  · exact tightens_throw _

theorem tightens_addDraft (draft : EpisodeDraft) (finishing : Episode → Episode) :
    Tightens narrowed replaced (addDraft draft finishing) n :=
  tightens_read fun _ _ => tightens_read fun _ _ => (tightens_addDuration ..).bind fun _ _ _ =>
    .of_after (.of_grows (.of_lookups id lookup_push id id (Nat.le_refl _)))

end Edit

end PlanNetwork
