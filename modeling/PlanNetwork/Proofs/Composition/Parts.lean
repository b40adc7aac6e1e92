/-
# The parts of an episode

The parts of an episode are its own and those of the episodes directly inside
it. A growing network leaves them alone.
-/

import Mathlib.Data.List.Basic
import Mathlib.Logic.Relation
import PlanNetwork.Proofs.Network.Growth

namespace PlanNetwork

namespace Network

variable {n m : Network} {touched : Guarded → Prop} {element : Guarded} {id : EpisodeId}
  {e : Episode}

theorem older_of_mem_internalEpisodes {child : EpisodeId} (inside : child ∈ n.internalEpisodes id) :
    child.index < id.index := by
  unfold internalEpisodes at inside
  cases there : n.episodes[id.index]? with
  | none => simp [there] at inside
  | some e =>
    rw [there] at inside
    exact of_decide_eq_true (List.mem_filter.mp inside).2

theorem mem_episodes_of_mem_internalEpisodes {child : EpisodeId} (found : n.episode id = .ok e)
    (inside : child ∈ n.internalEpisodes id) : child ∈ e.composition.episodes := by
  unfold internalEpisodes at inside
  rw [lookup_eq_ok_iff.mp found] at inside
  exact (List.mem_filter.mp inside).1

theorem internalEpisodes_eq (found : n.episode id = .ok e)
    (older : ∀ child ∈ e.composition.episodes, child.index < id.index) :
    n.internalEpisodes id = e.composition.episodes := by
  unfold internalEpisodes
  rw [lookup_eq_ok_iff.mp found]
  exact List.filter_eq_self.mpr fun child inside => decide_eq_true (older child inside)

/-- There is nothing inside the oldest episode. -/
theorem internalEpisodes_eq_nil (oldest : id.index = 0) : n.internalEpisodes id = [] := by
  refine List.eq_nil_iff_forall_not_mem.mpr fun child inside => ?_
  have := older_of_mem_internalEpisodes inside
  omega

/-- More levels than there are older episodes lead no further. -/
theorem unfoldingTo_of_le {depth : Nat} (deep : id.index ≤ depth) :
    n.unfoldingTo depth id = n.unfolding id := by
  unfold unfolding
  induction depth using Nat.strongRecOn generalizing id with
  | ind depth ih =>
    cases depth with
    | zero => rw [Nat.le_zero.mp deep]
    | succ depth =>
      cases oldest : id.index with
      | zero => rw [unfoldingTo, unfoldingTo, internalEpisodes_eq_nil oldest, List.flatMap_nil]
      | succ i =>
        rw [unfoldingTo, unfoldingTo]
        refine congrArg (id :: ·) (List.flatMap_congr fun child inside => ?_)
        have := older_of_mem_internalEpisodes inside
        rw [ih depth (by omega) (by omega), ih i (by omega) (by omega)]

theorem unfolding_eq (n : Network) (id : EpisodeId) :
    n.unfolding id = id :: (n.internalEpisodes id).flatMap n.unfolding := by
  cases oldest : id.index with
  | zero => rw [unfolding, oldest, unfoldingTo, internalEpisodes_eq_nil oldest, List.flatMap_nil]
  | succ i =>
    rw [unfolding, oldest, unfoldingTo]
    refine congrArg (id :: ·) (List.flatMap_congr fun child inside => unfoldingTo_of_le ?_)
    have := older_of_mem_internalEpisodes inside
    omega

theorem index_lt_size (found : n.episode id = .ok e) : id.index < n.episodes.size :=
  lookup_index_lt found

theorem exists_episode (there : id.index < n.episodes.size) : ∃ e, n.episode id = .ok e :=
  ⟨n.episodes[id.index], lookup_eq_ok_iff.mpr (Array.getElem?_eq_getElem there)⟩

/-- What is inside an episode is older. -/
theorem le_of_mem_unfolding {x id : EpisodeId} (inside : x ∈ n.unfolding id) :
    x.index ≤ id.index := by
  obtain ⟨index⟩ := id
  induction index using Nat.strongRecOn with
  | ind index ih =>
    rw [unfolding_eq] at inside
    rcases List.mem_cons.mp inside with rfl | inside
    · exact Nat.le_refl _
    · obtain ⟨child, directly, within⟩ := List.mem_flatMap.mp inside
      have older := older_of_mem_internalEpisodes directly
      exact Nat.le_trans (ih child.index older within) (Nat.le_of_lt older)

theorem exists_of_mem_unfolding {x id : EpisodeId} {e : Episode} (found : n.episode id = .ok e)
    (inside : x ∈ n.unfolding id) : ∃ f, n.episode x = .ok f :=
  exists_episode (Nat.lt_of_le_of_lt (le_of_mem_unfolding inside) (index_lt_size found))

/-- What is inside an episode is reached by going into episodes again and again. -/
theorem mem_unfolding_iff {x : EpisodeId} : x ∈ n.unfolding id ↔
    Relation.ReflTransGen (fun a b => b ∈ n.internalEpisodes a) id x := by
  constructor
  · intro inside
    obtain ⟨index⟩ := id
    induction index using Nat.strongRecOn with
    | ind index ih =>
      rw [unfolding_eq] at inside
      rcases List.mem_cons.mp inside with rfl | inside
      · exact .refl
      · obtain ⟨child, directly, within⟩ := List.mem_flatMap.mp inside
        exact .head directly (ih child.index (older_of_mem_internalEpisodes directly) within)
  · intro inside
    induction inside using Relation.ReflTransGen.head_induction_on with
    | refl =>
      rw [unfolding_eq]
      exact List.mem_cons_self ..
    | head directly _ ih =>
      rw [unfolding_eq]
      exact List.mem_cons_of_mem _ (List.mem_flatMap.mpr ⟨_, directly, ih⟩)

theorem mem_unfolding_self (n : Network) (id : EpisodeId) : id ∈ n.unfolding id :=
  mem_unfolding_iff.mpr .refl

/-- What is directly inside an episode that is inside another is inside this one. -/
theorem mem_unfolding_of_mem_internalEpisodes {child inner : EpisodeId}
    (inside : inner ∈ n.unfolding id) (directly : child ∈ n.internalEpisodes inner) :
    child ∈ n.unfolding id :=
  mem_unfolding_iff.mpr ((mem_unfolding_iff.mp inside).tail directly)

/-- The parts of an episode are its own and those of what is directly inside it. -/
theorem parts_eq (n : Network) (id : EpisodeId) :
    n.parts id = n.ownParts id ++ (n.internalEpisodes id).flatMap n.parts := by
  rw [parts, unfolding_eq, List.flatMap_cons, List.flatMap_assoc]
  rfl

theorem mem_parts_iff : element ∈ n.parts id ↔
    element ∈ n.ownParts id ∨ ∃ child ∈ n.internalEpisodes id, element ∈ n.parts child := by
  rw [parts_eq, List.mem_append, List.mem_flatMap]

/-- What is not there has no parts. -/
theorem exists_episode_of_mem_parts (part : element ∈ n.parts id) : ∃ e, n.episode id = .ok e := by
  cases there : n.episodes[id.index]? with
  | some e => exact ⟨e, lookup_eq_ok_iff.mpr there⟩
  | none =>
    rcases mem_parts_iff.mp part with own | ⟨child, inside, _⟩
    · rw [ownParts, there] at own
      cases own
    · rw [internalEpisodes, there] at inside
      cases inside

/-! ## Growth -/

theorem Grows.internalEpisodes (h : Grows touched n m) (found : n.episode id = .ok e) :
    m.internalEpisodes id = n.internalEpisodes id := by
  obtain ⟨g, found'⟩ := h.episode found
  unfold Network.internalEpisodes
  rw [lookup_eq_ok_iff.mp found, lookup_eq_ok_iff.mp found']

theorem Grows.ownParts (h : Grows touched n m) (found : n.episode id = .ok e) :
    m.ownParts id = n.ownParts id := by
  obtain ⟨g, found'⟩ := h.episode found
  unfold Network.ownParts
  rw [lookup_eq_ok_iff.mp found, lookup_eq_ok_iff.mp found']
  rfl

/-- What is inside an old episode stays inside it, and nothing else gets inside. -/
theorem Grows.unfolding (h : Grows touched n m) (found : n.episode id = .ok e) :
    m.unfolding id = n.unfolding id := by
  obtain ⟨index⟩ := id
  induction index using Nat.strongRecOn generalizing e with
  | ind index ih =>
    rw [unfolding_eq, unfolding_eq n, h.internalEpisodes found]
    refine congrArg (List.cons _) (List.flatMap_congr fun child inside => ?_)
    have older := older_of_mem_internalEpisodes inside
    obtain ⟨e', found'⟩ := exists_episode (Nat.lt_trans older (index_lt_size found))
    exact ih child.index older found'

theorem Grows.parts (h : Grows touched n m) (found : n.episode id = .ok e) :
    m.parts id = n.parts id := by
  unfold Network.parts
  rw [h.unfolding found]
  refine List.flatMap_congr fun x inside => ?_
  obtain ⟨f, there⟩ := exists_of_mem_unfolding found inside
  exact h.ownParts there

end Network

end PlanNetwork
