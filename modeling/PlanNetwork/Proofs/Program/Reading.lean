/-
# What reading a program does to it

Reads go through a traversal of the plan. One that is made anew registers the
episodes that it meets and derives the guards of the user's constraints. A read
does nothing else to a program, whether it succeeds or is refused: the plan and
the user's constraints are what they were, and so are the events, the episodes,
and the bounds of temporal constraints.
-/

import PlanNetwork.Proofs.OrdMap
import PlanNetwork.Proofs.Program.Evolution
import PlanNetwork.Proofs.Program.Traversal

namespace PlanNetwork

open Network

variable {p q r : Program} {α β : Type} {fault : Fault} {t : Traversal}

namespace Program

/-- What a program looks like to a traversal has not changed. -/
structure Looks (p q : Program) : Prop where
  /-- The plan is the same. -/
  plan : q.plan = p.plan
  /-- The user's constraints are the same. -/
  userConstraints : q.userConstraints = p.userConstraints
  /-- Nothing but guards of temporal constraints has changed in the network. -/
  network : p.network.Reguards q.network

theorem Looks.refl (p : Program) : Looks p p := ⟨rfl, rfl, .refl _⟩

theorem Looks.trans (first : Looks p q) (second : Looks q r) : Looks p r :=
  ⟨second.plan.trans first.plan, second.userConstraints.trans first.userConstraints,
    first.network.trans second.network⟩

/-- The episode is found by its id. -/
def Registered (p : Program) (id : EpisodeId) : Prop :=
  ∃ e, p.network.episode id = .ok e ∧ p.registry.get? e.identity.id = some id

/-- Some episodes have been registered, and no id names another episode than
before. -/
structure Enrolled (ids : List EpisodeId) (p q : Program) : Prop where
  /-- Nothing but the registry has changed. -/
  same : q = { p with registry := q.registry }
  /-- What an id names, it still names. -/
  older : ∀ {name known}, p.registry.get? name = some known → q.registry.get? name = some known
  /-- The episodes are found. -/
  inside : ∀ id ∈ ids, q.Registered id

/-- The result of the last traversal is what a traversal would meet now, with
the user's constraints derived and the episodes registered. -/
structure Current (p : Program) (t : Traversal) : Prop where
  /-- It is the result that is kept. -/
  cached : p.traversal = some t
  /-- A traversal would meet the same. -/
  collected : Traversal.collect p.network p.plan p.userConstraints = .ok t
  /-- The user's constraints apply where their events exist. -/
  derived : ∀ id ∈ p.userConstraints.toList, p.network.Derived id
  /-- The episodes are found by their ids. -/
  registered : ∀ id ∈ t.episodes.toList, p.Registered id

end Program

namespace Build

/-- Whatever the outcome, the program looks the same. -/
def Looks (op : Build α) (p : Program) : Prop := p.Looks (op.after p)

theorem looks_of_unchanged {op : Build α} (same : op.after p = p) : Looks op p := by
  rw [Looks, same]
  exact .refl p

theorem looks_pure (a : α) : Looks (pure a : Build α) p := looks_of_unchanged rfl

theorem looks_read (view : Program → Except Fault α) : Looks (Attempt.read view) p :=
  looks_of_unchanged (Attempt.after_read view)

theorem looks_get : Looks (get : Build Program) p := looks_of_unchanged rfl

theorem Looks.bind {op : Build α} {next : α → Build β} (first : Looks op p)
    (rest : ∀ a q, Looks (next a) q) : Looks (op >>= next) p :=
  Attempt.after_bind (R := Program.Looks) Program.Looks.trans first fun a q _ => rest a q

theorem Looks.of_ok {op : Build α} {a : α} (h : Looks op p) (result : op p = .ok a q) :
    p.Looks q := by
  rwa [Looks, Attempt.after_of_ok result] at h

theorem looks_each {op : β → Build Unit} (each : ∀ b p, Looks (op b) p) (items : List β) :
    Looks (Attempt.each op items) p := by
  induction items generalizing p with
  | nil => exact looks_pure ()
  | cons item rest ih => exact (each item p).bind fun _ _ => ih

/-! ## Registering -/

theorem enrolled_of_register {id : EpisodeId} {u : Unit} (done : register id p = .ok u q) :
    p.Enrolled [id] q := by
  obtain ⟨e, found, ⟨free, rfl⟩ | ⟨held, rfl⟩⟩ := register_eq_ok done
  · refine ⟨rfl, OrdMap.get?_insert_of_get?_eq_none free, fun other member => ?_⟩
    obtain rfl := List.mem_singleton.mp member
    exact ⟨e, found, OrdMap.get?_insert_self⟩
  · refine ⟨rfl, fun held => held, fun other member => ?_⟩
    obtain rfl := List.mem_singleton.mp member
    exact ⟨e, found, held⟩

theorem enrolled_each {ids : List EpisodeId} {u : Unit}
    (done : Attempt.each register ids p = .ok u q) : p.Enrolled ids q := by
  induction ids generalizing p with
  | nil =>
    obtain ⟨_, rfl⟩ := Attempt.pure_eq_ok_iff.mp done
    exact ⟨rfl, id, nofun⟩
  | cons first rest ih =>
    obtain ⟨_, k, once, later⟩ := Attempt.bind_eq_ok_iff.mp done
    have here := enrolled_of_register once
    have there := ih later
    refine ⟨there.same.trans (by rw [here.same]), there.older ∘ here.older, fun id member => ?_⟩
    rcases List.mem_cons.mp member with rfl | member
    · obtain ⟨e, found, held⟩ := here.inside id (List.mem_singleton.mpr rfl)
      refine ⟨e, ?_, there.older held⟩
      rw [there.same]
      exact found
    · exact there.inside id member

theorem looks_register (id : EpisodeId) : Looks (register id) p := by
  cases result : register id p with
  | ok u q =>
    rw [Looks, Attempt.after_of_ok result, (enrolled_of_register result).same]
    exact ⟨rfl, rfl, .refl _⟩
  | error fault q =>
    obtain rfl := register_eq_error result
    exact looks_of_unchanged (Attempt.after_of_error result)

/-! ## Traversing -/

theorem looks_refresh (ids : List TemporalId) :
    Looks (onNetwork (Edit.atomically (Attempt.each Edit.refreshTemporal ids))) p := by
  unfold Looks onNetwork
  rw [Attempt.after_focus]
  exact ⟨rfl, rfl, Edit.reguards_atomically ids⟩

theorem looks_traverse : Looks traverse p :=
  (looks_read _).bind fun _ _ => (looks_each (fun id _ => looks_register id) _).bind fun _ _ =>
    looks_get.bind fun _ _ => (looks_refresh _).bind fun _ _ => looks_pure _

/-- What has been traversed is what there was to meet. -/
theorem traverse_eq_ok (done : traverse p = .ok t q) :
    Traversal.collect p.network p.plan p.userConstraints = .ok t ∧
      (∀ id ∈ p.userConstraints.toList, q.network.Derived id) ∧
      (∀ id ∈ t.episodes.toList, q.Registered id) ∧
      ∀ {name known}, p.registry.get? name = some known → q.registry.get? name = some known := by
  obtain ⟨found, _, read, after⟩ := Attempt.bind_eq_ok_iff.mp done
  obtain ⟨collected, rfl⟩ := Attempt.read_eq_ok_iff.mp read
  obtain ⟨_, k, registered, later⟩ := Attempt.bind_eq_ok_iff.mp after
  obtain ⟨_, _, got, last⟩ := Attempt.bind_eq_ok_iff.mp later
  obtain ⟨rfl, rfl⟩ := Attempt.get_eq_ok_iff.mp got
  obtain ⟨_, _, refreshed, returned⟩ := Attempt.bind_eq_ok_iff.mp last
  obtain ⟨rfl, rfl⟩ := Attempt.pure_eq_ok_iff.mp returned
  have enrolled := enrolled_each registered
  obtain ⟨m, written, rfl⟩ := Attempt.focus_eq_ok_iff.mp refreshed
  have fresh := Edit.refreshed_atomically written
  have user := congrArg Program.userConstraints enrolled.same
  refine ⟨collected, fun id member => fresh.inside id (user ▸ member), fun id member => ?_,
    enrolled.older⟩
  obtain ⟨e, found, held⟩ := enrolled.inside id member
  exact ⟨e, fresh.reads.episode found, held⟩

/-- An episode that is found by its id already is not registered again. -/
theorem yields_register_again {id : EpisodeId} (registered : p.Registered id) :
    (register id).Yields p fun _ q => q = p := by
  obtain ⟨e, found, known⟩ := registered
  refine Attempt.yields_read found (Attempt.yields_get ?_)
  rw [known]
  simp only [if_pos]
  exact Attempt.yields_pure rfl

/-- A traversal that comes to an end changes nothing if the episodes are found by
their ids and the user's constraints are derived. -/
theorem yields_traverse (collected : Traversal.collect p.network p.plan p.userConstraints = .ok t)
    (registered : ∀ id ∈ t.episodes.toList, p.Registered id)
    (derived : ∀ id ∈ p.userConstraints.toList, p.network.Derived id) :
    traverse.Yields p fun found q => found = t ∧ q = p.withNetwork q.network ∧
      Same p.network q.network := by
  have registering : (Attempt.each register t.episodes.toList).Yields p fun _ q => q = p := by
    refine Attempt.yields_each (fun id member q same => ?_) rfl
    subst same
    exact yields_register_again (registered id member)
  refine Attempt.yields_read collected (registering.bind fun _ q same => ?_)
  subst same
  refine Attempt.yields_get ?_
  obtain ⟨_, m, done, same⟩ := Edit.yields_refresh derived
  exact ⟨t, _, Attempt.bind_eq_ok_iff.mpr ⟨(), _, Attempt.focus_eq_ok_iff.mpr ⟨m, done, rfl⟩, rfl⟩,
    rfl, rfl, same⟩

/-- The result is kept by the view that asked for it. -/
theorem traversal_after_traverse : (traverse.after p).traversal = p.traversal := by
  let Keeps (p q : Program) : Prop := q.traversal = p.traversal
  have trans : ∀ {p q r : Program}, Keeps p q → Keeps q r → Keeps p r :=
    fun first second => second.trans first
  have registering (ids : List EpisodeId) (p : Program) :
      Keeps p ((Attempt.each register ids).after p) := by
    induction ids generalizing p with
    | nil => rfl
    | cons id rest ih =>
      refine Attempt.after_bind (R := Keeps) trans ?_ fun _ q _ => ih q
      cases result : register id p with
      | ok u q =>
        rw [Attempt.after_of_ok result, (enrolled_of_register result).same]
      | error fault q =>
        rw [Attempt.after_of_error result, register_eq_error result]
  have start : Keeps p ((Attempt.read fun p =>
      Traversal.collect p.network p.plan p.userConstraints).after p) :=
    congrArg Program.traversal (Attempt.after_read _)
  refine Attempt.after_bind (R := Keeps) trans start fun t q _ => ?_
  refine Attempt.after_bind (R := Keeps) trans (registering _ q) fun _ r _ => ?_
  refine Attempt.after_bind (R := Keeps) trans rfl fun now s _ => ?_
  have refreshing : Keeps s ((onNetwork (Edit.atomically
      (Attempt.each Edit.refreshTemporal now.userConstraints.toList))).after s) := by
    unfold onNetwork
    show Program.traversal _ = _
    rw [Attempt.after_focus]
    rfl
  exact Attempt.after_bind (R := Keeps) trans refreshing fun _ _ _ => rfl

/-! ## Viewing -/

theorem looks_view : Looks view p := by
  refine looks_get.bind fun now q => ?_
  split
  · exact looks_pure _
  · refine looks_traverse.bind fun traversal q => Looks.bind ?_ fun _ _ => looks_pure _
    exact ⟨rfl, rfl, .refl _⟩

theorem view_of_cached (cached : p.traversal = some t) : view p = .ok t p := by
  rw [view, Attempt.bind_of_ok (Attempt.get_eq_ok_iff.mpr ⟨rfl, rfl⟩), cached]
  rfl

/-- A view is of the traversal that is kept, or of a new one. -/
theorem view_eq_ok (done : view p = .ok t q) :
    p.traversal = some t ∧ q = p ∨ p.traversal = none ∧ q.Current t := by
  obtain ⟨_, _, got, rest⟩ := Attempt.bind_eq_ok_iff.mp done
  obtain ⟨rfl, rfl⟩ := Attempt.get_eq_ok_iff.mp got
  generalize Program.traversal _ = kept at rest
  cases kept with
  | some traversal =>
    obtain ⟨rfl, rfl⟩ := Attempt.pure_eq_ok_iff.mp rest
    exact .inl ⟨rfl, rfl⟩
  | none =>
    obtain ⟨found, k, traversed, later⟩ := Attempt.bind_eq_ok_iff.mp rest
    obtain ⟨_, _, kept, last⟩ := Attempt.bind_eq_ok_iff.mp later
    obtain rfl := Attempt.modify_eq_ok_iff.mp kept
    obtain ⟨rfl, rfl⟩ := Attempt.pure_eq_ok_iff.mp last
    obtain ⟨plan, user, network⟩ := looks_traverse.of_ok traversed
    obtain ⟨collected, derived, registered, _⟩ := traverse_eq_ok traversed
    refine .inr ⟨rfl, rfl, ?_, fun id member => derived id (user ▸ member), registered⟩
    show Traversal.collect k.network k.plan k.userConstraints = _
    rw [plan, user]
    exact Traversal.collect_of_reads network.reads collected

theorem yields_view (stale : p.traversal = none)
    (collected : Traversal.collect p.network p.plan p.userConstraints = .ok t)
    (registered : ∀ id ∈ t.episodes.toList, p.Registered id)
    (derived : ∀ id ∈ p.userConstraints.toList, p.network.Derived id) :
    view.Yields p fun found q => found = t ∧
      q = { p with network := q.network, traversal := some t } ∧ Same p.network q.network := by
  obtain ⟨_, k, done, rfl, same, network⟩ := yields_traverse collected registered derived
  refine Attempt.yields_get ?_
  rw [stale]
  refine ⟨_, _, Attempt.bind_eq_ok_iff.mpr ⟨_, k, done, rfl⟩, rfl, ?_, network⟩
  rw [same]
  rfl

theorem view_eq_error (refused : view p = .error fault q) :
    p.traversal = none ∧ q.traversal = none := by
  rcases Attempt.bind_eq_error_iff.mp refused with ⟨⟨⟩⟩ | ⟨_, _, got, rest⟩
  obtain ⟨rfl, rfl⟩ := Attempt.get_eq_ok_iff.mp got
  generalize cached : Program.traversal _ = kept at rest
  cases kept with
  | some traversal => cases rest
  | none =>
    refine ⟨rfl, ?_⟩
    rcases Attempt.bind_eq_error_iff.mp rest with stopped | ⟨_, _, _, settled⟩
    · rw [← Attempt.after_of_error stopped, traversal_after_traverse, cached]
    · exact absurd settled Attempt.modify_return_ne_error

/-- The constraints are those that were met and those of the user. -/
theorem constraints_eq_ok_iff {found : OrdSet TemporalId} : constraints p = .ok found q ↔
    ∃ walk, view p = .ok walk q ∧ found = walk.constraints.union q.userConstraints := by
  unfold constraints
  simp only [Attempt.bind_eq_ok_iff, Attempt.get_eq_ok_iff, Attempt.pure_eq_ok_iff]
  constructor
  · rintro ⟨walk, _, viewed, _, _, ⟨rfl, rfl⟩, rfl, rfl⟩
    exact ⟨walk, viewed, rfl⟩
  · rintro ⟨walk, viewed, rfl⟩
    exact ⟨walk, q, viewed, q, q, ⟨rfl, rfl⟩, rfl, rfl⟩

theorem choicesWhere_eq_ok_iff {keep : Controllability → Bool} {found : OrdSet EventId} :
    choicesWhere keep p = .ok found q ↔ ∃ walk, view p = .ok walk q ∧
      walk.events.toList.foldlM (choiceEvents q.network keep) ∅ = .ok found := by
  unfold choicesWhere
  simp only [Attempt.bind_eq_ok_iff, Attempt.read_eq_ok_iff]
  constructor
  · rintro ⟨walk, _, viewed, found, rfl⟩
    exact ⟨walk, viewed, found⟩
  · rintro ⟨walk, viewed, found⟩
    exact ⟨walk, q, viewed, found, rfl⟩

end Build

end PlanNetwork
