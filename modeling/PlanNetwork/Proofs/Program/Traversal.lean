/-
# What a traversal meets

A traversal visits the episodes of the unfolding in order. It comes to an end if
all of them are there, no primitive one comes twice, and no temporal constraint
belongs to two of them, and then it has met what belongs to the episodes, and
the events of the user's constraints.

None of this depends on guards or on the bounds of constraints.
-/

import PlanNetwork.Program.Traversal
import PlanNetwork.Proofs.Composition.Parts
import PlanNetwork.Proofs.Network.Retention

namespace PlanNetwork

variable {n m : Network} {α β : Type}

theorem foldlM_eq_ok_of_forall {ε : Type} {f g : β → α → Except ε β}
    (same : ∀ b a b', f b a = .ok b' → g b a = .ok b') {items : List α} {b b' : β}
    (done : items.foldlM f b = .ok b') : items.foldlM g b = .ok b' := by
  induction items generalizing b with
  | nil => exact done
  | cons item rest ih =>
    rw [List.foldlM_cons] at done ⊢
    obtain ⟨mid, first, later⟩ := Network.bind_eq_ok_iff.mp done
    exact Network.bind_eq_ok_iff.mpr ⟨mid, same _ _ _ first, ih later⟩

namespace Network

/-! ## Unfolding -/

/-- The episodes inside the plan, if there is one. -/
def unfoldingOf (n : Network) : Option EpisodeId → List EpisodeId
  | none => []
  | some id => n.unfolding id

/-- Visiting is going through the unfolding. -/
theorem visitTo_eq_foldlM (visit : β → EpisodeId → Except Fault β) (depth : Nat) (b : β)
    (id : EpisodeId) :
    n.visitTo visit depth b id = (n.unfoldingTo depth id).foldlM visit b := by
  induction depth generalizing b id with
  | zero => simp [visitTo, unfoldingTo]
  | succ depth ih =>
    have inside (children : List EpisodeId) (b : β) : children.foldlM (n.visitTo visit depth) b =
        (children.flatMap (n.unfoldingTo depth)).foldlM visit b := by
      induction children generalizing b with
      | nil => rfl
      | cons child rest more =>
        rw [List.foldlM_cons, List.flatMap_cons, List.foldlM_append, ih, funext more]
    rw [visitTo, unfoldingTo, List.foldlM_cons]
    exact congrArg (visit b id >>= ·) (funext (inside _))

/-- What is inside an episode is decided by the episodes inside it. -/
theorem unfoldingTo_congr {depth : Nat} {id : EpisodeId}
    (same : ∀ x ∈ n.unfoldingTo depth id, m.internalEpisodes x = n.internalEpisodes x) :
    m.unfoldingTo depth id = n.unfoldingTo depth id := by
  induction depth generalizing id with
  | zero => rfl
  | succ depth ih =>
    rw [unfoldingTo, unfoldingTo, same id (List.mem_cons_self ..)]
    refine congrArg (id :: ·) (List.flatMap_congr fun child inside => ih fun x member => ?_)
    exact same x (List.mem_cons_of_mem _ (List.mem_flatMap.mpr ⟨child, inside, member⟩))

theorem internalEpisodes_congr {id : EpisodeId} {e e' : Episode} (found : n.episode id = .ok e)
    (found' : m.episode id = .ok e') (same : e'.composition = e.composition) :
    m.internalEpisodes id = n.internalEpisodes id := by
  unfold internalEpisodes
  rw [lookup_eq_ok_iff.mp found, lookup_eq_ok_iff.mp found']
  simp only [same]

/-- The constraints of an episode, its duration among them. -/
def ownConstraints (n : Network) (id : EpisodeId) : List TemporalId :=
  match n.episodes[id.index]? with
  | none => []
  | some e => e.constraintsAndDuration.toList

theorem mem_ownConstraints_iff {id : EpisodeId} {e : Episode} (found : n.episode id = .ok e)
    {c : TemporalId} : c ∈ n.ownConstraints id ↔ c = e.duration ∨ c ∈ e.constraints.toList := by
  unfold ownConstraints
  rw [lookup_eq_ok_iff.mp found]
  exact OrdSet.mem_insert_iff

/-- No constraint belongs to both episodes. -/
def Apart (n : Network) (a b : EpisodeId) : Prop :=
  ∀ c ∈ n.ownConstraints a, c ∉ n.ownConstraints b

/-- What it takes to go through the episodes of a list. -/
structure Walkable (n : Network) (ids : List EpisodeId) : Prop where
  /-- They are there. -/
  there : ∀ id ∈ ids, ∃ e, n.episode id = .ok e
  /-- No constraint belongs to two of them. -/
  apart : ids.Pairwise n.Apart

end Network

namespace Traversal

variable {t t' : Traversal} {plan : Option EpisodeId} {user : OrdSet TemporalId}

/-- What has been met after one more episode. -/
def withEpisode (t : Traversal) (id : EpisodeId) (e : Episode) : Traversal where
  episodes := t.episodes.insert id
  primitives := if e.isPrimitive then t.primitives.insert id else t.primitives
  constraints := t.constraints.insertAll e.constraintsAndDuration.toList
  states := t.states.union e.stateConstraints
  events := (t.events.insert e.start).insert e.finish

theorem meetConstraint_eq_ok_iff {id : TemporalId} :
    meetConstraint n t id = .ok t' ↔ id ∉ t.constraints.toList ∧
      t' = { t with constraints := t.constraints.insert id } := by
  unfold meetConstraint
  by_cases met : t.constraints.contains id = true
  · rw [if_pos met]
    have old := OrdSet.contains_iff_mem.mp met
    cases n.temporal id <;> simp [bind, Except.bind, old, throw, throwThe, MonadExceptOf.throw]
  · rw [if_neg met]
    have new := OrdSet.contains_iff_mem.not.mp met
    simp [new, eq_comm]

theorem meetConstraints_eq_ok_iff {ids : List TemporalId} :
    ids.foldlM (meetConstraint n) t = .ok t' ↔ ids.Nodup ∧
      (∀ id ∈ ids, id ∉ t.constraints.toList) ∧
      t' = { t with constraints := t.constraints.insertAll ids } := by
  induction ids generalizing t with
  | nil => simp [pure, Except.pure, OrdSet.insertAll, eq_comm]
  | cons id rest ih =>
    rw [List.foldlM_cons, Network.bind_eq_ok_iff]
    constructor
    · rintro ⟨_, first, later⟩
      obtain ⟨new, rfl⟩ := meetConstraint_eq_ok_iff.mp first
      obtain ⟨nodup, apart, rfl⟩ := ih.mp later
      simp only [OrdSet.mem_insert_iff, not_or] at apart
      refine ⟨List.nodup_cons.mpr ⟨fun again => (apart id again).1 rfl, nodup⟩, ?_, rfl⟩
      intro other member
      rcases List.mem_cons.mp member with rfl | member
      · exact new
      · exact (apart other member).2
    · rintro ⟨nodup, apart, rfl⟩
      obtain ⟨new, nodup⟩ := List.nodup_cons.mp nodup
      refine ⟨_, meetConstraint_eq_ok_iff.mpr ⟨apart id (List.mem_cons_self ..), rfl⟩,
        ih.mpr ⟨nodup, fun other member => ?_, rfl⟩⟩
      simp only [OrdSet.mem_insert_iff, not_or]
      exact ⟨fun same => new (same ▸ member), apart other (List.mem_cons_of_mem _ member)⟩

theorem meetEpisode_eq_ok_iff {id : EpisodeId} :
    meetEpisode n t id = .ok t' ↔ ∃ e, n.episode id = .ok e ∧
      (e.isPrimitive = true → id ∉ t.primitives.toList) ∧
      (∀ c ∈ e.constraintsAndDuration.toList, c ∉ t.constraints.toList) ∧
      t' = t.withEpisode id e := by
  unfold meetEpisode
  rw [Network.bind_eq_ok_iff]
  refine exists_congr fun e => and_congr_right fun _ => ?_
  by_cases again : (e.isPrimitive && t.primitives.contains id) = true
  · rw [if_pos again]
    obtain ⟨primitive, met⟩ := Bool.and_eq_true_iff.mp again
    have old := OrdSet.contains_iff_mem.mp met
    simp [bind, Except.bind, throw, throwThe, MonadExceptOf.throw, primitive, old]
  · rw [if_neg again]
    have new : e.isPrimitive = true → id ∉ t.primitives.toList := fun primitive old =>
      again (Bool.and_eq_true_iff.mpr ⟨primitive, OrdSet.contains_iff_mem.mpr old⟩)
    show List.foldlM _ _ _ = _ ↔ _
    rw [meetConstraints_eq_ok_iff]
    exact ⟨fun ⟨_, apart, same⟩ => ⟨new, apart, same⟩,
      fun ⟨_, apart, same⟩ => ⟨OrdSet.nodup _, apart, same⟩⟩

theorem exists_of_meetEpisodes {ids : List EpisodeId}
    (done : ids.foldlM (meetEpisode n) t = .ok t') : ∀ id ∈ ids, ∃ e, n.episode id = .ok e := by
  induction ids generalizing t with
  | nil => nofun
  | cons id rest ih =>
    rw [List.foldlM_cons] at done
    obtain ⟨_, first, later⟩ := Network.bind_eq_ok_iff.mp done
    obtain ⟨e, found, _⟩ := meetEpisode_eq_ok_iff.mp first
    intro other member
    rcases List.mem_cons.mp member with rfl | member
    · exact ⟨e, found⟩
    · exact ih later other member

/-- What the episodes of a list have has been met. -/
structure Met (n : Network) (ids : List EpisodeId) (t t' : Traversal) : Prop where
  /-- The constraints are theirs. -/
  constraints : ∀ c, c ∈ t'.constraints.toList ↔
    c ∈ t.constraints.toList ∨ ∃ id ∈ ids, c ∈ n.ownConstraints id
  /-- The episodes are those of the list. -/
  episodes : ∀ id, id ∈ t'.episodes.toList ↔ id ∈ t.episodes.toList ∨ id ∈ ids

theorem mem_constraints_withEpisode {id : EpisodeId} {e : Episode} (found : n.episode id = .ok e)
    {c : TemporalId} : c ∈ (t.withEpisode id e).constraints.toList ↔
      c ∈ t.constraints.toList ∨ c ∈ n.ownConstraints id := by
  rw [Network.mem_ownConstraints_iff found]
  simp [withEpisode, Episode.constraintsAndDuration]

theorem met_of_meetEpisodes {ids : List EpisodeId}
    (done : ids.foldlM (meetEpisode n) t = .ok t') : Met n ids t t' := by
  induction ids generalizing t with
  | nil =>
    obtain rfl := Except.ok.inj done
    constructor <;> simp
  | cons id rest ih =>
    rw [List.foldlM_cons] at done
    obtain ⟨_, first, later⟩ := Network.bind_eq_ok_iff.mp done
    obtain ⟨e, found, _, _, rfl⟩ := meetEpisode_eq_ok_iff.mp first
    obtain ⟨constraints, episodes⟩ := ih later
    constructor
    · intro c
      rw [constraints, mem_constraints_withEpisode found]
      simp [or_assoc]
    · intro other
      rw [episodes]
      simp [withEpisode, or_assoc, or_left_comm]

/-- The events that have been met are those of the episodes. -/
theorem mem_events_of_meetEpisodes {ids : List EpisodeId}
    (done : ids.foldlM (meetEpisode n) t = .ok t') {event : EventId} :
    event ∈ t'.events.toList ↔ event ∈ t.events.toList ∨
      ∃ id ∈ ids, ∃ e, n.episode id = .ok e ∧ (event = e.start ∨ event = e.finish) := by
  induction ids generalizing t with
  | nil =>
    obtain rfl := Except.ok.inj done
    simp
  | cons id rest ih =>
    rw [List.foldlM_cons] at done
    obtain ⟨_, first, later⟩ := Network.bind_eq_ok_iff.mp done
    obtain ⟨e, found, _, _, rfl⟩ := meetEpisode_eq_ok_iff.mp first
    rw [ih later]
    simp only [withEpisode, OrdSet.mem_insert_iff, List.mem_cons, exists_eq_or_imp, found,
      Except.ok.injEq, exists_eq_left', or_assoc, or_left_comm]

/-- The primitive episodes that have been met are those of the list. -/
theorem mem_primitives_of_meetEpisodes {ids : List EpisodeId}
    (done : ids.foldlM (meetEpisode n) t = .ok t') {id : EpisodeId} :
    id ∈ t'.primitives.toList ↔ id ∈ t.primitives.toList ∨
      id ∈ ids ∧ ∃ e, n.episode id = .ok e ∧ e.isPrimitive = true := by
  induction ids generalizing t with
  | nil =>
    obtain rfl := Except.ok.inj done
    simp
  | cons first rest ih =>
    rw [List.foldlM_cons] at done
    obtain ⟨_, met, later⟩ := Network.bind_eq_ok_iff.mp done
    obtain ⟨e, found, _, _, rfl⟩ := meetEpisode_eq_ok_iff.mp met
    have here : id ∈ (t.withEpisode first e).primitives.toList ↔ id ∈ t.primitives.toList ∨
        id = first ∧ ∃ e, n.episode id = .ok e ∧ e.isPrimitive = true := by
      unfold withEpisode
      by_cases primitive : e.isPrimitive = true
      · simp only [primitive, if_true, OrdSet.mem_insert_iff]
        rw [or_comm]
        refine or_congr_right ⟨?_, And.left⟩
        rintro rfl
        exact ⟨rfl, e, found, primitive⟩
      · simp only [primitive]
        refine ⟨.inl, fun h => h.resolve_right ?_⟩
        rintro ⟨rfl, e', found', primitive'⟩
        obtain rfl := Except.ok.inj (found.symm.trans found')
        exact primitive primitive'
    rw [ih later, here, List.mem_cons, or_and_right, or_assoc]

/-- The state constraints that have been met are those of the episodes. -/
theorem mem_states_of_meetEpisodes {ids : List EpisodeId}
    (done : ids.foldlM (meetEpisode n) t = .ok t') {c : StateConstraintId} :
    c ∈ t'.states.toList ↔ c ∈ t.states.toList ∨
      ∃ id ∈ ids, ∃ e, n.episode id = .ok e ∧ c ∈ e.stateConstraints.toList := by
  induction ids generalizing t with
  | nil =>
    obtain rfl := Except.ok.inj done
    simp
  | cons id rest ih =>
    rw [List.foldlM_cons] at done
    obtain ⟨_, first, later⟩ := Network.bind_eq_ok_iff.mp done
    obtain ⟨e, found, _, _, rfl⟩ := meetEpisode_eq_ok_iff.mp first
    rw [ih later]
    simp only [withEpisode, OrdSet.mem_union_iff, List.mem_cons, exists_eq_or_imp, found,
      Except.ok.injEq, exists_eq_left', or_assoc]

/-- What it takes to go on through the episodes of a list. -/
structure CanMeet (n : Network) (t : Traversal) (ids : List EpisodeId) : Prop
    extends n.Walkable ids where
  /-- Their constraints have not been met. -/
  new : ∀ id ∈ ids, ∀ c ∈ n.ownConstraints id, c ∉ t.constraints.toList
  /-- Nor have those that are primitive. -/
  unmet : ∀ id ∈ ids, ∀ e, n.episode id = .ok e → e.isPrimitive = true → id ∉ t.primitives.toList

theorem mem_primitives_withEpisode {id other : EpisodeId} {e : Episode} (differ : other ≠ id) :
    other ∈ (t.withEpisode id e).primitives.toList ↔ other ∈ t.primitives.toList := by
  unfold withEpisode
  cases e.isPrimitive <;> simp [differ]

variable {id : EpisodeId} {rest : List EpisodeId} {e : Episode}

/-- Episodes without common constraints are two, for each has its duration. -/
theorem ne_of_apart (found : n.episode id = .ok e) {other : EpisodeId} (apart : n.Apart id other) :
    other ≠ id := by
  rintro rfl
  have own := (Network.mem_ownConstraints_iff found).mpr (.inl rfl)
  exact apart _ own own

theorem CanMeet.cons (found : n.episode id = .ok e)
    (once : e.isPrimitive = true → id ∉ t.primitives.toList)
    (new : ∀ c ∈ n.ownConstraints id, c ∉ t.constraints.toList)
    (h : CanMeet n (t.withEpisode id e) rest) : CanMeet n t (id :: rest) := by
  have later : ∀ b ∈ rest, ∀ c ∈ n.ownConstraints b,
      c ∉ t.constraints.toList ∧ c ∉ n.ownConstraints id := by
    simpa only [mem_constraints_withEpisode found, not_or] using h.new
  have first : ∀ b ∈ rest, n.Apart id b := fun b member c own own' =>
    (later b member c own').2 own
  refine ⟨⟨List.forall_mem_cons.mpr ⟨⟨e, found⟩, h.there⟩, List.pairwise_cons.mpr ⟨first, h.apart⟩⟩,
    List.forall_mem_cons.mpr ⟨new, fun b member c own => (later b member c own).1⟩,
    List.forall_mem_cons.mpr ⟨fun e' found' => ?_, fun b member e' found' primitive => ?_⟩⟩
  · obtain rfl := Except.ok.inj (found.symm.trans found')
    exact once
  · have := h.unmet b member e' found' primitive
    rwa [mem_primitives_withEpisode (ne_of_apart found (first b member))] at this

theorem CanMeet.tail (found : n.episode id = .ok e) (h : CanMeet n t (id :: rest)) :
    CanMeet n (t.withEpisode id e) rest := by
  obtain ⟨first, apart⟩ := List.pairwise_cons.mp h.apart
  refine ⟨⟨(List.forall_mem_cons.mp h.there).2, apart⟩, fun b member c own => ?_,
    fun b member e' found' primitive => ?_⟩
  · rw [mem_constraints_withEpisode found]
    exact not_or.mpr ⟨h.new b (List.mem_cons_of_mem _ member) c own,
      fun own' => first b member c own' own⟩
  · rw [mem_primitives_withEpisode (ne_of_apart found (first b member))]
    exact h.unmet b (List.mem_cons_of_mem _ member) e' found' primitive

/-- A walk comes to an end if the episodes are there, have not been met, and have
no constraint in common. -/
theorem exists_meetEpisodes_iff {ids : List EpisodeId} :
    (∃ t', ids.foldlM (meetEpisode n) t = .ok t') ↔ CanMeet n t ids := by
  induction ids generalizing t with
  | nil => exact ⟨fun _ => ⟨⟨nofun, .nil⟩, nofun, nofun⟩, fun _ => ⟨t, rfl⟩⟩
  | cons id rest ih =>
    have own {e : Episode} (found : n.episode id = .ok e) (c : TemporalId) :
        c ∈ n.ownConstraints id ↔ c ∈ e.constraintsAndDuration.toList :=
      (Network.mem_ownConstraints_iff found).trans OrdSet.mem_insert_iff.symm
    simp only [List.foldlM_cons, Network.bind_eq_ok_iff, meetEpisode_eq_ok_iff]
    constructor
    · rintro ⟨t', _, ⟨e, found, once, new, rfl⟩, later⟩
      exact (ih.mp ⟨t', later⟩).cons found once fun c member => new c ((own found c).mp member)
    · intro h
      obtain ⟨e, found⟩ := h.there id (List.mem_cons_self ..)
      obtain ⟨t', later⟩ := ih.mpr (h.tail found)
      refine ⟨t', _, ⟨e, found, h.unmet id (List.mem_cons_self ..) e found, ?_, rfl⟩, later⟩
      exact fun c member => h.new id (List.mem_cons_self ..) c ((own found c).mpr member)

theorem meetEndpoints_eq_ok_iff {id : TemporalId} :
    meetEndpoints n t id = .ok t' ↔ ∃ c, n.temporal id = .ok c ∧
      t' = { t with events := (t.events.insert c.start).insert c.finish } := by
  unfold meetEndpoints
  rw [Network.bind_eq_ok_iff]
  exact exists_congr fun c => and_congr_right fun _ => by simp [pure, Except.pure, eq_comm]

/-- A traversal goes through the unfolding of the plan and then through the
user's constraints. -/
theorem collect_eq_ok_iff : collect n plan user = .ok t ↔
    ∃ inner, (n.unfoldingOf plan).foldlM (meetEpisode n) empty = .ok inner ∧
      user.toList.foldlM (meetEndpoints n) inner = .ok t := by
  cases plan with
  | none => simp [collect, Network.unfoldingOf, Network.bind_eq_ok_iff, pure, Except.pure]
  | some id =>
    have walk : ofEpisode n id = (n.unfolding id).foldlM (meetEpisode n) empty :=
      Network.visitTo_eq_foldlM ..
    show (ofEpisode n id >>= _) = _ ↔ _
    rw [Network.bind_eq_ok_iff, walk]
    rfl

theorem meetEndpoints_keeps {ids : List TemporalId}
    (done : ids.foldlM (meetEndpoints n) t = .ok t') :
    t'.constraints = t.constraints ∧ t'.episodes = t.episodes ∧ t'.states = t.states ∧
      t'.primitives = t.primitives := by
  induction ids generalizing t with
  | nil =>
    obtain rfl := Except.ok.inj done
    exact ⟨rfl, rfl, rfl, rfl⟩
  | cons id rest ih =>
    rw [List.foldlM_cons] at done
    obtain ⟨_, first, later⟩ := Network.bind_eq_ok_iff.mp done
    obtain ⟨c, _, rfl⟩ := meetEndpoints_eq_ok_iff.mp first
    have kept := ih later
    exact kept

/-- The events that are met at the ends of constraints are those of the constraints. -/
theorem mem_events_of_meetEndpoints {ids : List TemporalId}
    (done : ids.foldlM (meetEndpoints n) t = .ok t') {event : EventId} :
    event ∈ t'.events.toList ↔ event ∈ t.events.toList ∨
      ∃ id ∈ ids, ∃ c, n.temporal id = .ok c ∧ (event = c.start ∨ event = c.finish) := by
  induction ids generalizing t with
  | nil =>
    obtain rfl := Except.ok.inj done
    simp
  | cons id rest ih =>
    rw [List.foldlM_cons] at done
    obtain ⟨_, first, later⟩ := Network.bind_eq_ok_iff.mp done
    obtain ⟨c, found, rfl⟩ := meetEndpoints_eq_ok_iff.mp first
    rw [ih later]
    simp only [OrdSet.mem_insert_iff, List.mem_cons, exists_eq_or_imp, found, Except.ok.injEq,
      exists_eq_left', or_assoc, or_left_comm]

theorem exists_meetEndpoints {ids : List TemporalId}
    (there : ∀ id ∈ ids, ∃ c, n.temporal id = .ok c) :
    ∃ t', ids.foldlM (meetEndpoints n) t = .ok t' := by
  induction ids generalizing t with
  | nil => exact ⟨t, rfl⟩
  | cons id rest ih =>
    obtain ⟨⟨c, found⟩, others⟩ := List.forall_mem_cons.mp there
    obtain ⟨t', later⟩ := ih others
    refine ⟨t', ?_⟩
    rw [List.foldlM_cons]
    exact Network.bind_eq_ok_iff.mpr ⟨_, meetEndpoints_eq_ok_iff.mpr ⟨c, found, rfl⟩, later⟩

/-- A traversal meets the constraints and the episodes of the plan. -/
theorem met_of_collect (done : collect n plan user = .ok t) :
    n.Walkable (n.unfoldingOf plan) ∧ Met n (n.unfoldingOf plan) empty t := by
  obtain ⟨inner, planned, rest⟩ := collect_eq_ok_iff.mp done
  obtain ⟨constraints, episodes, _, _⟩ := meetEndpoints_keeps rest
  obtain ⟨meets, visits⟩ := met_of_meetEpisodes planned
  exact ⟨(exists_meetEpisodes_iff.mp ⟨inner, planned⟩).toWalkable, constraints ▸ meets,
    episodes ▸ visits⟩

/-- A traversal comes to an end if no constraint belongs to two episodes of the
plan, and the user's constraints are there. -/
theorem exists_collect (walk : n.Walkable (n.unfoldingOf plan))
    (there : ∀ id ∈ user.toList, ∃ c, n.temporal id = .ok c) :
    ∃ t, collect n plan user = .ok t := by
  have start : CanMeet n empty (n.unfoldingOf plan) :=
    ⟨walk, fun _ _ _ _ => OrdSet.not_mem_empty, fun _ _ _ _ _ => OrdSet.not_mem_empty⟩
  obtain ⟨inner, planned⟩ := exists_meetEpisodes_iff.mpr start
  obtain ⟨t, rest⟩ := exists_meetEndpoints (t := inner) there
  exact ⟨t, collect_eq_ok_iff.mpr ⟨inner, planned, rest⟩⟩

/-- A traversal meets the same again as long as what it reads is there. -/
theorem collect_of_reads (reads : n.Reads m) (done : collect n plan user = .ok t) :
    collect m plan user = .ok t := by
  obtain ⟨inner, planned, rest⟩ := collect_eq_ok_iff.mp done
  have inside : m.unfoldingOf plan = n.unfoldingOf plan := by
    cases plan with
    | none => rfl
    | some id =>
      refine Network.unfoldingTo_congr fun x member => ?_
      obtain ⟨e, found⟩ := exists_of_meetEpisodes planned x member
      exact Network.internalEpisodes_congr found (reads.episode found) rfl
  refine collect_eq_ok_iff.mpr ⟨inner, ?_, foldlM_eq_ok_of_forall ?_ rest⟩
  · rw [inside]
    refine foldlM_eq_ok_of_forall (fun b id b' met => ?_) planned
    obtain ⟨e, found, rest⟩ := meetEpisode_eq_ok_iff.mp met
    exact meetEpisode_eq_ok_iff.mpr ⟨e, reads.episode found, rest⟩
  · intro b id b' met
    obtain ⟨c, found, rfl⟩ := meetEndpoints_eq_ok_iff.mp met
    obtain ⟨g, bounds, found'⟩ := reads.temporal found
    exact meetEndpoints_eq_ok_iff.mpr ⟨_, found', rfl⟩

end Traversal

end PlanNetwork
