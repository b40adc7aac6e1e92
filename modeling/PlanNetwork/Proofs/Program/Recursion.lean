/-
# Following internal episodes

What recurs over the episodes inside an episode comes to an end in a well-formed
network, for it goes to older and older episodes. The walks that the operations
make leave out internal episodes that are not older. In a well-formed network
there are none, so a walk over an episode is the visit to it and then the walks
over what is directly inside it, with nothing left out.

All that is met on the way is there. An operation that is given handles of
elements that are there can still be refused, but never for the want of one.
-/

import PlanNetwork.Proofs.Program.Reachability
import PlanNetwork.Proofs.Program.Traversal

namespace PlanNetwork

open Network

variable {n m : Network} {α β : Type}

/-- Whether a fault is about something else than a handle without an element. -/
def Fault.OfKnown (fault : Fault) : Prop := ∀ kind index, fault ≠ .unknown kind index

/-- A fault that something is met for the second time. -/
inductive Fault.OfRepetition : Fault → Prop where
  /-- A primitive episode is. -/
  | episode (name : String) : OfRepetition (.episodeTwice name)
  /-- A temporal constraint is. -/
  | constraint (name : String) : OfRepetition (.constraintTwice name)

theorem Fault.OfRepetition.ofKnown {fault : Fault} (h : fault.OfRepetition) : fault.OfKnown := by
  cases h <;> exact fun _ _ => Fault.noConfusion

theorem Fault.OfRepetition.category_eq {fault : Fault} (h : fault.OfRepetition) :
    fault.category = .duplicateElement := by
  cases h <;> rfl

namespace Network

/-- An episode is directly inside another one. -/
def Inside (n : Network) (child id : EpisodeId) : Prop :=
  ∃ e, n.episode id = .ok e ∧ child ∈ e.composition.episodes

/-- Following internal episodes goes through, with nothing left out. -/
structure Navigable (n : Network) : Prop where
  /-- It comes to an end. -/
  founded : WellFounded n.Inside
  /-- The episodes inside an episode are those inside the ones directly inside it. -/
  unfolding : ∀ {id e}, n.episode id = .ok e →
    n.unfolding id = id :: e.composition.episodes.flatMap n.unfolding
  /-- A visit goes to the episode and then through each one directly inside it. -/
  visit : ∀ {β : Type} (visit : β → EpisodeId → Except Fault β) {id e} (b : β),
    n.episode id = .ok e → n.visitUnfolding visit b id =
      visit b id >>= fun b => e.composition.episodes.foldlM (n.visitUnfolding visit) b
  /-- Narrowing goes to the parts of the episode and then to those of each one
  directly inside it. -/
  parts : ∀ {id e}, n.episode id = .ok e →
    n.parts id = n.ownParts id ++ e.composition.episodes.flatMap n.parts
  /-- Narrowing an episode as a whole misses no element. -/
  propagate : ∀ {id e} (s : Support) {fault m}, n.episode id = .ok e →
    Edit.propagate id s n = .error fault m → fault.OfKnown
  /-- Traversing a plan with the user's constraints misses no element. -/
  collect : ∀ {plan : Option EpisodeId} {user : OrdSet TemporalId} {fault},
    (∀ id, plan = some id → id.index < n.episodes.size) →
    (∀ c ∈ user.toList, c.index < n.temporals.size) →
    Traversal.collect n plan user = .error fault → fault.OfKnown
  /-- The temporal constraints inside an episode can be listed. -/
  temporals : ∀ {id e}, n.episode id = .ok e → ∃ found, n.allTemporals id = .ok found
  /-- The state constraints inside an episode can be listed. -/
  states : ∀ {id e}, n.episode id = .ok e → ∃ found, n.allStates id = .ok found
  /-- A state constraint can be attached to an episode and to those inside it. -/
  attach : ∀ (span : Edit.Span) {id e constraint c}, n.episode id = .ok e →
    n.state constraint = .ok c → ∃ m, Edit.attachState span id constraint n = .ok () m

/-! ## What is inside an episode -/

namespace WellFormed

theorem internalEpisodes_eq (h : n.WellFormed) {id : EpisodeId} {e : Episode}
    (found : n.episode id = .ok e) : n.internalEpisodes id = e.composition.episodes :=
  Network.internalEpisodes_eq found (h.episode found).children

theorem wellFounded_inside (h : n.WellFormed) : WellFounded n.Inside := by
  have older : Subrelation n.Inside (InvImage (· < ·) Handle.index) := by
    rintro child id ⟨e, found, inside⟩
    exact (h.episode found).children child inside
  exact older.wf (InvImage.wf _ Nat.lt_wfRel.wf)

/-- A visit with nothing left out. -/
theorem visitUnfolding_eq (h : n.WellFormed) (visit : β → EpisodeId → Except Fault β) (b : β)
    {id : EpisodeId} {e : Episode} (found : n.episode id = .ok e) :
    n.visitUnfolding visit b id =
      visit b id >>= fun b => e.composition.episodes.foldlM (n.visitUnfolding visit) b := by
  have walk (id : EpisodeId) (b : β) :
      n.visitUnfolding visit b id = (n.unfolding id).foldlM visit b := visitTo_eq_foldlM ..
  have inside (children : List EpisodeId) (b : β) :
      (children.flatMap n.unfolding).foldlM visit b =
        children.foldlM (n.visitUnfolding visit) b := by
    induction children generalizing b with
    | nil => rfl
    | cons child rest ih =>
      rw [List.flatMap_cons, List.foldlM_append, List.foldlM_cons, walk, funext ih]
  rw [walk, unfolding_eq, List.foldlM_cons, h.internalEpisodes_eq found, funext (inside _)]

theorem has_event {id : EventId} (there : id.index < n.events.size) : n.Has (.event id) :=
  ⟨_, guard_event.mpr ⟨_, Array.getElem?_eq_getElem there, rfl⟩⟩

theorem has_temporal {id : TemporalId} (there : id.index < n.temporals.size) :
    n.Has (.temporal id) :=
  ⟨_, guard_temporal.mpr ⟨_, Array.getElem?_eq_getElem there, rfl⟩⟩

/-- The parts of an episode are there. -/
theorem has_of_mem_parts (h : n.WellFormed) {id : EpisodeId} {element : Guarded}
    (part : element ∈ n.parts id) : n.Has element := by
  obtain ⟨e, found⟩ := exists_episode_of_mem_parts part
  obtain ⟨x, inside, own⟩ := List.mem_flatMap.mp part
  obtain ⟨f, there⟩ := exists_of_mem_unfolding found inside
  have fits := h.episode there
  unfold ownParts at own
  rw [lookup_eq_ok_iff.mp there] at own
  rcases List.mem_append.mp own with first | internal
  · simp only [List.mem_cons, List.not_mem_nil, or_false] at first
    rcases first with rfl | rfl | rfl | rfl
    · exact ⟨_, guard_episode.mpr ⟨f, lookup_eq_ok_iff.mp there, rfl⟩⟩
    · exact has_event fits.start
    · exact has_event fits.finish
    · exact has_temporal (h.duration_lt there)
  · split at internal
    · exact absurd internal List.not_mem_nil
    · obtain ⟨c, member, rfl⟩ := List.mem_map.mp internal
      exact has_temporal (fits.constraints c member)

end WellFormed

end Network

namespace Edit

/-- What is there can be refused only for a clash of supports. -/
theorem ofKnown_of_narrow {element : Guarded} {s : Support} {fault : Fault} (there : n.Has element)
    (refused : narrow element s n = .error fault m) : fault.OfKnown := by
  obtain ⟨_, _, _, _, rfl⟩ := of_narrow_eq_error there refused
  exact fun _ _ => Fault.noConfusion

theorem ofKnown_of_each {parts : List Guarded} {s : Support} {fault : Fault}
    (there : ∀ element ∈ parts, n.Has element)
    (refused : Attempt.each (narrow · s) parts n = .error fault m) : fault.OfKnown := by
  induction parts generalizing n with
  | nil => cases refused
  | cons part rest ih =>
    obtain ⟨first, others⟩ := List.forall_mem_cons.mp there
    rcases Attempt.bind_eq_error_iff.mp refused with failed | ⟨_, k, done, later⟩
    · exact ofKnown_of_narrow first failed
    · have same : k.bare = n.bare := Attempt.after_of_ok done ▸ bare_changeGuard _ _ n
      exact ih (fun element member => Grows.has_of_bare same (others element member)) later

theorem ofKnown_of_propagate (whole : n.WellFormed) {id : EpisodeId} {e : Episode} {s : Support}
    {fault : Fault} (found : n.episode id = .ok e)
    (refused : propagate id s n = .error fault m) : fault.OfKnown := by
  have there {element : Guarded} (part : element ∈ n.parts id) : n.Has element :=
    whole.has_of_mem_parts part
  rw [propagate_eq found] at refused
  by_cases nested : n.journal.isSome = true
  · rw [atomically_of_nested nested] at refused
    exact ofKnown_of_each (fun _ part => there part) refused
  · rw [atomically_of_idle (by simpa using nested)] at refused
    obtain ⟨k, failed, _⟩ := Attempt.bracket_eq_error_iff.mp refused
    exact ofKnown_of_each (fun _ part => Grows.has_of_bare bare_checkpoint (there part)) failed

end Edit

namespace Traversal

/-- A fold is refused only for what its steps are refused for. -/
theorem foldlM_eq_error {f : β → α → Except Fault β} {P : Fault → Prop} {items : List α}
    (step : ∀ item ∈ items, ∀ b fault, f b item = .error fault → P fault) {b : β} {fault : Fault}
    (refused : items.foldlM f b = .error fault) : P fault := by
  induction items generalizing b with
  | nil => cases refused
  | cons item rest ih =>
    obtain ⟨first, others⟩ := List.forall_mem_cons.mp step
    rw [List.foldlM_cons] at refused
    cases result : f b item with
    | error other =>
      rw [result] at refused
      obtain rfl := Except.error.inj refused
      exact first b other result
    | ok b' =>
      rw [result] at refused
      exact ih others refused

theorem ofRepetition_of_meetConstraint {t : Traversal} {id : TemporalId} {fault : Fault}
    (there : id.index < n.temporals.size) (refused : meetConstraint n t id = .error fault) :
    fault.OfRepetition := by
  have found : n.temporal id = .ok n.temporals[id.index] :=
    lookup_eq_ok_iff.mpr (Array.getElem?_eq_getElem there)
  unfold meetConstraint at refused
  split at refused
  · rw [found] at refused
    obtain rfl := Except.error.inj refused
    exact .constraint _
  · cases refused

theorem ofRepetition_of_meetEpisode (whole : n.WellFormed) {t : Traversal} {id : EpisodeId}
    {e : Episode} {fault : Fault} (found : n.episode id = .ok e)
    (refused : meetEpisode n t id = .error fault) : fault.OfRepetition := by
  unfold meetEpisode at refused
  rw [found] at refused
  change (if _ then _ else _) = _ at refused
  split at refused
  · obtain rfl := Except.error.inj refused
    exact .episode _
  · refine foldlM_eq_error (fun c member t fault => ofRepetition_of_meetConstraint ?_) refused
    rcases OrdSet.mem_insert_iff.mp member with rfl | member
    · exact whole.duration_lt found
    · exact (whole.episode found).constraints c member

theorem ofRepetition_of_ofEpisode (whole : n.WellFormed) {id : EpisodeId} {e : Episode}
    {fault : Fault} (found : n.episode id = .ok e) (refused : ofEpisode n id = .error fault) :
    fault.OfRepetition := by
  have walk : ofEpisode n id = (n.unfolding id).foldlM (meetEpisode n) .empty :=
    visitTo_eq_foldlM ..
  rw [walk] at refused
  refine foldlM_eq_error (fun x inside t fault failed => ?_) refused
  obtain ⟨f, there⟩ := exists_of_mem_unfolding found inside
  exact ofRepetition_of_meetEpisode whole there failed

theorem meetEndpoints_ne_error {t : Traversal} {id : TemporalId} {fault : Fault}
    (there : id.index < n.temporals.size) : meetEndpoints n t id ≠ .error fault := by
  have found : n.temporal id = .ok n.temporals[id.index] :=
    lookup_eq_ok_iff.mpr (Array.getElem?_eq_getElem there)
  rw [meetEndpoints, found]
  exact fun failed => nomatch failed

/-- A walk over elements that are there is refused only for a repetition. -/
theorem ofRepetition_of_collect (whole : n.WellFormed) {plan : Option EpisodeId}
    {user : OrdSet TemporalId} {fault : Fault}
    (planned : ∀ id, plan = some id → id.index < n.episodes.size)
    (constrained : ∀ c ∈ user.toList, c.index < n.temporals.size)
    (refused : collect n plan user = .error fault) : fault.OfRepetition := by
  have rest {t : Traversal} (failed : user.toList.foldlM (meetEndpoints n) t = .error fault) :
      fault.OfRepetition :=
    foldlM_eq_error (fun c member _ _ failed =>
      absurd failed (meetEndpoints_ne_error (constrained c member))) failed
  cases plan with
  | none => exact rest refused
  | some id =>
    obtain ⟨e, found⟩ := exists_episode (planned id rfl)
    change (ofEpisode n id >>= _) = _ at refused
    cases result : ofEpisode n id with
    | error other =>
      rw [result] at refused
      obtain rfl := Except.error.inj refused
      exact ofRepetition_of_ofEpisode whole found result
    | ok t =>
      rw [result] at refused
      exact rest refused

end Traversal

namespace Network

/-- What is gathered from episodes that are there can be gathered. -/
theorem exists_visitUnfolding (view : β → Episode → β) {id : EpisodeId} {e : Episode}
    (found : n.episode id = .ok e) (b : β) :
    ∃ b', n.visitUnfolding (fun b x => (n.episode x).map (view b)) b id = .ok b' := by
  have gather (ids : List EpisodeId) (there : ∀ x ∈ ids, ∃ f, n.episode x = .ok f) (b : β) :
      ∃ b', ids.foldlM (fun b x => (n.episode x).map (view b)) b = .ok b' := by
    induction ids generalizing b with
    | nil => exact ⟨b, rfl⟩
    | cons x rest ih =>
      obtain ⟨⟨f, first⟩, others⟩ := List.forall_mem_cons.mp there
      rw [List.foldlM_cons, first]
      exact ih others _
  rw [visitUnfolding, visitTo_eq_foldlM]
  exact gather _ (fun x inside => exists_of_mem_unfolding found inside) b

theorem WellFormed.navigable (h : n.WellFormed) : n.Navigable where
  founded := h.wellFounded_inside
  unfolding {id e} found := by rw [unfolding_eq, h.internalEpisodes_eq found]
  visit visit _ _ b found := h.visitUnfolding_eq visit b found
  parts {id e} found := by rw [parts_eq, h.internalEpisodes_eq found]
  propagate _ _ _ found refused := Edit.ofKnown_of_propagate h found refused
  collect planned constrained refused :=
    (Traversal.ofRepetition_of_collect h planned constrained refused).ofKnown
  temporals found := exists_visitUnfolding (fun (met : OrdSet TemporalId) e =>
    met.union e.constraintsAndDuration) found ∅
  states found := exists_visitUnfolding (fun (met : OrdSet StateConstraintId) e =>
    met.union e.stateConstraints) found ∅
  attach span id e constraint c found attached := by
    refine ⟨_, Attempt.bind_eq_ok_iff.mpr ⟨c, n, ?_, Attempt.bind_eq_ok_iff.mpr ⟨e, n, ?_, rfl⟩⟩⟩
    · exact Attempt.read_eq_ok_iff.mpr ⟨attached, rfl⟩
    · exact Attempt.read_eq_ok_iff.mpr ⟨found, rfl⟩

/-- Whatever calls a network or a program has come about by, in whatever order, and
whether they succeeded or were refused and undone, the network is well-formed:
what its elements refer to is there, internal episodes are older than the
composite they are in, durations are between the events of their episode and
belong to no other, and branchings start at their choice. So what recurs over
internal episodes comes to an end and never misses an element. -/
theorem handles_always_resolve
    (reachable : n.Reachable ∨ ∃ p : Program, p.Reachable .free ∧ p.network = n) :
    n.WellFormed ∧ n.Navigable := by
  have whole : n.WellFormed := by
    rcases reachable with built | ⟨p, built, rfl⟩
    · exact built.wellFormed
    · exact built.wellFormed
  exact ⟨whole, whole.navigable⟩

/-- A decision between two episodes, made after a composition was refused for the
want of a third one and undone. -/
theorem handles_always_resolve_decision :
    let p := (Program.ofConfig {}).afterCalls [⟨_, .addEpisode {}⟩, ⟨_, .addEpisode {}⟩,
      ⟨_, .decide { domain := ["A", "B", "C"] } [.episode ⟨0⟩, .episode ⟨1⟩] {}⟩,
      ⟨_, .decide { domain := ["A", "B"] } [.episode ⟨0⟩, .episode ⟨1⟩] {}⟩]
    p.Reachable .free ∧ p.network.episodes.size = 3 ∧ p.network.WellFormed ∧
      p.network.Navigable := by
  intro p
  have reachable : p.Reachable .free :=
    (reachable_of_config (by decide +kernel)).afterCalls fun _ _ => trivial
  exact ⟨reachable, by decide +kernel, handles_always_resolve (.inr ⟨p, reachable, rfl⟩)⟩

end Network

end PlanNetwork
