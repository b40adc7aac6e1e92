/-
# Making elements

An element that is made comes in behind those of its kind, and the others are exactly what
they were, with all their fields. So it is with whatever makes elements, and whether it
succeeds or is refused.
-/

import PlanNetwork.Proofs.Network.Bare
import PlanNetwork.Proofs.Network.Operations

namespace PlanNetwork

variable {n m k : Network}

namespace Network

/-- Every element that was there is exactly what it was. -/
structure Preserves (n m : Network) : Prop where
  /-- Events are what they were. -/
  event : ∀ {id e}, n.event id = .ok e → m.event id = .ok e
  /-- Episodes are what they were. -/
  episode : ∀ {id e}, n.episode id = .ok e → m.episode id = .ok e
  /-- Temporal constraints are what they were. -/
  temporal : ∀ {id c}, n.temporal id = .ok c → m.temporal id = .ok c
  /-- State constraints are what they were. -/
  state : ∀ {id c}, n.state id = .ok c → m.state id = .ok c
  /-- Chance constraints are what they were. -/
  chance : ∀ {id c}, n.chance id = .ok c → m.chance id = .ok c
  /-- State variables are what they were. -/
  quantity : ∀ {id v}, n.quantity id = .ok v → m.quantity id = .ok v

namespace Preserves

theorem refl (n : Network) : Preserves n n := ⟨id, id, id, id, id, id⟩

theorem trans (first : Preserves n m) (second : Preserves m k) : Preserves n k :=
  ⟨second.event ∘ first.event, second.episode ∘ first.episode, second.temporal ∘ first.temporal,
    second.state ∘ first.state, second.chance ∘ first.chance, second.quantity ∘ first.quantity⟩

theorem withSerial (n : Network) (later : Nat) : Preserves n (n.withSerial later) :=
  ⟨id, id, id, id, id, id⟩

theorem checkpoint (n : Network) : Preserves n n.checkpoint := ⟨id, id, id, id, id, id⟩

theorem commit (n : Network) : Preserves n n.commit := ⟨id, id, id, id, id, id⟩

/-- An element exists when it did. -/
theorem guard (h : Preserves n m) {element : Guarded} {g : Guard}
    (found : n.guard element = .ok g) : m.guard element = .ok g := by
  cases element with
  | event id =>
    obtain ⟨e, there, same⟩ := map_eq_ok_iff.mp found
    exact map_eq_ok_iff.mpr ⟨e, h.event there, same⟩
  | episode id =>
    obtain ⟨e, there, same⟩ := map_eq_ok_iff.mp found
    exact map_eq_ok_iff.mpr ⟨e, h.episode there, same⟩
  | temporal id =>
    obtain ⟨c, there, same⟩ := map_eq_ok_iff.mp found
    exact map_eq_ok_iff.mpr ⟨c, h.temporal there, same⟩
  | state id =>
    obtain ⟨c, there, same⟩ := map_eq_ok_iff.mp found
    exact map_eq_ok_iff.mpr ⟨c, h.state there, same⟩

end Preserves

end Network

open Network

namespace Edit

variable {α β : Type}

/-- A relation that neither journals nor serial numbers matter to holds of an
operation that takes effect as a whole if it holds of the steps. -/
theorem after_atomically {R : Network → Network → Prop} {op : Edit α}
    (refused : ∀ {fault k}, op n.checkpoint = .error fault k →
      Trail (fun _ => True) n.checkpoint k)
    (trans : ∀ {a b c}, R a b → R b c → R a c)
    (steps : ∀ k, k.bare = n.bare → R k (op.after k)) (checkpoint : ∀ n : Network, R n n.checkpoint)
    (commit : ∀ n : Network, R n n.commit) (count : ∀ (n : Network) (later : Nat),
      R n (n.withSerial later)) : R n ((atomically op).after n) := by
  cases result : atomically op n with
  | ok a m =>
    rw [Attempt.after_of_ok result]
    rcases of_atomically_eq_ok result with plain | ⟨k, inner, rfl⟩
    · exact Attempt.after_of_ok plain ▸ steps n rfl
    · exact trans (trans (checkpoint n) (Attempt.after_of_ok inner ▸ steps _ rfl)) (commit k)
  | error fault m =>
    by_cases nested : n.journal.isSome = true
    · have same : (atomically op).after n = op.after n := by
        rw [Attempt.after, atomically_of_nested nested, Attempt.after]
      rw [same]
      exact steps n rfl
    · rw [Attempt.after_of_error result]
      obtain ⟨later, _, rfl⟩ := atomically_eq_error (by simpa using nested)
        (fun _ => refused) result
      exact count n later

/-- Whatever the outcome, every element that was there is exactly what it was. -/
def Preserves (op : Edit α) (n : Network) : Prop := Network.Preserves n (op.after n)

theorem Preserves.of_ok {op : Edit α} {a : α} (h : Preserves op n) (result : op n = .ok a m) :
    Network.Preserves n m :=
  Attempt.after_of_ok result ▸ h

theorem Preserves.of_error {op : Edit α} {fault : Fault} (h : Preserves op n)
    (result : op n = .error fault m) : Network.Preserves n m :=
  Attempt.after_of_error result ▸ h

theorem preserves_of_unchanged {op : Edit α} (same : op.after n = n) : Preserves op n := by
  rw [Preserves, same]
  exact .refl n

theorem preserves_pure (a : α) : Preserves (pure a : Edit α) n := preserves_of_unchanged rfl

theorem preserves_throw (fault : Fault) : Preserves (throw fault : Edit α) n :=
  preserves_of_unchanged rfl

theorem Preserves.bind {op : Edit α} {next : α → Edit β} (first : Preserves op n)
    (rest : ∀ a m, Preserves (next a) m) : Preserves (op >>= next) n :=
  Attempt.after_bind (R := Network.Preserves) Network.Preserves.trans first fun a m _ => rest a m

theorem preserves_read (view : Network → Except Fault α) : Preserves (Attempt.read view) n :=
  preserves_of_unchanged (Attempt.after_read view)

theorem preserves_ofExcept (result : Except Fault α) :
    Preserves (Attempt.ofExcept result : Edit α) n :=
  preserves_read _

theorem preserves_atomically {op : Edit α} (steps : ∀ n, Preserves op n)
    (trails : ∀ n, Follows (fun _ => True) op n) : Preserves (atomically op) n :=
  after_atomically (trails _).of_error .trans (fun k _ => steps k) .checkpoint .commit .withSerial

theorem preserves_allocate (kind : String) : Preserves (allocate kind) n := .withSerial n _

theorem preserves_allocateAs (kind : String) (id name : Option String) :
    Preserves (allocateAs kind id name) n :=
  (preserves_allocate kind).bind fun _ _ => preserves_pure _

/-! ## Elements that come in -/

theorem preserves_pushEvent (e : Event) : Preserves (pushEvent e) n :=
  ⟨lookup_push, id, id, id, id, id⟩

theorem preserves_pushEpisode (e : Episode) : Preserves (pushEpisode e) n :=
  ⟨id, lookup_push, id, id, id, id⟩

theorem preserves_pushTemporal (c : TemporalConstraint) : Preserves (pushTemporal c) n :=
  ⟨id, id, lookup_push, id, id, id⟩

theorem preserves_pushState (c : StateConstraint) : Preserves (pushState c) n :=
  ⟨id, id, id, lookup_push, id, id⟩

theorem preserves_pushChance (c : ChanceConstraint) : Preserves (pushChance c) n :=
  ⟨id, id, id, id, lookup_push, id⟩

theorem preserves_pushQuantity (v : StateVariable) : Preserves (pushQuantity v) n :=
  ⟨id, id, id, id, id, lookup_push⟩

theorem preserves_addEvent : Preserves addEvent n :=
  (preserves_allocate _).bind fun _ _ => preserves_pushEvent _

theorem preserves_eventOrNew (given : Option EventId) : Preserves (eventOrNew given) n := by
  cases given with
  | some id => exact preserves_pure id
  | none => exact preserves_addEvent

theorem preserves_addChoice (spec : ChoiceSpec) : Preserves (addChoice spec) n :=
  (preserves_read _).bind fun _ _ => (preserves_allocateAs ..).bind fun _ _ =>
    preserves_pushEvent _

theorem preserves_addQuantity (name : String) (domain : StateDomain) :
    Preserves (addQuantity name domain) n :=
  (preserves_ofExcept _).bind fun _ _ => (preserves_allocate _).bind fun _ _ =>
    preserves_pushQuantity _

theorem preserves_linkUnder (start finish : EventId) (bounds : Bounds) (s : Support) :
    Preserves (linkUnder start finish bounds s) n :=
  (preserves_ofExcept _).bind fun _ _ => (preserves_allocate _).bind fun _ _ =>
    preserves_pushTemporal _

theorem preserves_addTemporal (start finish : EventId) (spec : DurationSpec) :
    Preserves (addTemporal start finish spec) n :=
  (preserves_ofExcept _).bind fun _ _ => (preserves_read _).bind fun _ _ => preserves_linkUnder ..

theorem preserves_addDuration (start finish : EventId) (spec : DurationSpec) :
    Preserves (addDuration start finish spec) n :=
  (preserves_ofExcept _).bind fun _ _ => (preserves_read _).bind fun _ _ =>
    (preserves_read _).bind fun _ _ => (preserves_ofExcept _).bind fun _ _ =>
    preserves_linkUnder ..

theorem preserves_replacementDurations (ids : List EpisodeId) :
    Preserves (replacementDurations ids) n := by
  induction ids generalizing n with
  | nil => exact preserves_pure []
  | cons id rest ih =>
    exact (preserves_read _).bind fun _ _ => (preserves_addDuration ..).bind fun _ _ =>
      ih.bind fun _ _ => preserves_pure _

theorem preserves_addStateConstraint (scope : List VariableId) (condition : StateCondition) :
    Preserves (addStateConstraint scope condition) n :=
  (preserves_allocate _).bind fun _ _ => preserves_pushState _

theorem preserves_addAssignmentConstraint (scope : List VariableId) (values : List StateValue) :
    Preserves (addAssignmentConstraint scope values) n := by
  refine (preserves_read _).bind fun _ _ => ?_
  split
  · exact preserves_throw _
  · exact (preserves_read _).bind fun _ _ => preserves_addStateConstraint ..

theorem preserves_addLinearConstraint (scope : List VariableId) (coefficients : List Number)
    (relation : Relation) (bound : Number) :
    Preserves (addLinearConstraint scope coefficients relation bound) n := by
  refine (preserves_read _).bind fun _ _ => ?_
  split
  · exact preserves_throw _
  · exact preserves_addStateConstraint ..

theorem preserves_addChance (constraints : List ConstraintId) (risk : Number) :
    Preserves (addChance constraints risk) n := by
  unfold addChance
  split
  · exact (preserves_read _).bind fun _ _ => (preserves_allocate _).bind fun _ _ =>
      preserves_pushChance _
  · exact preserves_throw _

theorem preserves_addDraft (draft : EpisodeDraft) (finishing : Episode → Episode) :
    Preserves (addDraft draft finishing) n :=
  (preserves_read _).bind fun _ _ => (preserves_read _).bind fun _ _ =>
    (preserves_addDuration ..).bind fun _ _ => preserves_pushEpisode _

theorem preserves_addEpisode (spec : EpisodeSpec) : Preserves (addEpisode spec) n := by
  refine (preserves_read _).bind fun _ _ => (preserves_read _).bind fun _ _ =>
    (preserves_read _).bind fun _ _ => (preserves_read _).bind fun _ _ =>
    (preserves_read _).bind fun _ n => ?_
  refine preserves_atomically (fun n => ?_) fun n => ?_
  · refine (preserves_eventOrNew _).bind fun _ _ => (preserves_eventOrNew _).bind fun _ _ => ?_
    exact (preserves_allocateAs ..).bind fun _ _ => preserves_addDraft ..
  · refine (follows_eventOrNew _).bind fun _ _ _ => (follows_eventOrNew _).bind fun _ _ _ => ?_
    exact (follows_allocateAs ..).bind fun _ _ _ => follows_addDraft _ fun _ => rfl

end Edit

end PlanNetwork
