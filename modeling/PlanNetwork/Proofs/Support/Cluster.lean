/-
# What clusters there are

Every element is in the one cluster that has its support, and a cluster has
nothing but the elements with its support, in the order in which they were met.
Sorting the clusters does not change any of this.
-/

import Mathlib.Data.List.Pairwise
import PlanNetwork.Support.Cluster

namespace PlanNetwork

namespace Support

variable {s t u : Support}

theorem same_refl (s : Support) : s.same s = true := by
  rw [same, OrdSet.sameMembers, beq_iff_eq]
  exact Std.ReflCmp.compare_self

theorem same_comm : s.same t = true ↔ t.same s = true := by
  rw [same, same, OrdSet.sameMembers, OrdSet.sameMembers, beq_iff_eq, beq_iff_eq]
  exact Std.OrientedCmp.eq_comm

theorem same_trans (first : s.same t = true) (second : t.same u = true) : s.same u = true := by
  rw [same, OrdSet.sameMembers, beq_iff_eq] at *
  exact Std.TransCmp.eq_trans first second

end Support

namespace Cluster

variable {α : Type} {elements : List (α × Support)} {clusters : List (Cluster α)}

/-- The elements with a support, in the order in which they were met. -/
def having (elements : List (α × Support)) (s : Support) : List α :=
  (elements.filter (s.same ·.2)).map (·.1)

/-- The clusters are those of the elements. -/
structure Groups (elements : List (α × Support)) (clusters : List (Cluster α)) : Prop where
  /-- No two clusters have the same support. -/
  apart : (clusters.map support).Pairwise fun s t => ¬ s.same t = true
  /-- A cluster has the elements with its support. -/
  members : ∀ c ∈ clusters, c.members = having elements c.support
  /-- Its support is that of an element. -/
  support : ∀ c ∈ clusters, ∃ e ∈ elements, e.2 = c.support
  /-- Every element is in the cluster of its support. -/
  covers : ∀ e ∈ elements, ∃ c ∈ clusters, c.support.same e.2 = true

/-- An element joins the cluster of its support, or opens one behind the others. -/
theorem add_eq (clusters : List (Cluster α)) (a : α) (s : Support) :
    (∃ before c after, clusters = before ++ c :: after ∧ c.support.same s = true ∧
        add clusters a s = before ++ { c with members := c.members ++ [a] } :: after) ∨
      (∀ c ∈ clusters, ¬ c.support.same s = true) ∧ add clusters a s = clusters ++ [⟨s, [a]⟩] := by
  induction clusters with
  | nil => exact .inr ⟨nofun, rfl⟩
  | cons first rest ih =>
    rw [add]
    by_cases same : first.support.same s = true
    · rw [if_pos same]
      exact .inl ⟨[], first, rest, rfl, same, rfl⟩
    · rw [if_neg same]
      rcases ih with ⟨before, c, after, rfl, joined, added⟩ | ⟨none, added⟩
      · exact .inl ⟨first :: before, c, after, rfl, joined, by rw [added]; rfl⟩
      · exact .inr ⟨List.forall_mem_cons.mpr ⟨same, none⟩, by rw [added]; rfl⟩

theorem having_append_of_same {s t : Support} (same : t.same s = true) (a : α) :
    having (elements ++ [(a, s)]) t = having elements t ++ [a] := by
  simp [having, same]

theorem having_append_of_not_same {s t : Support} (other : ¬ t.same s = true) (a : α) :
    having (elements ++ [(a, s)]) t = having elements t := by
  simp [having, other]

/-- With one more element, its cluster has one more member. -/
theorem Groups.join {before after : List (Cluster α)} {c : Cluster α} {s : Support}
    (h : Groups elements (before ++ c :: after)) (joined : c.support.same s = true) (a : α) :
    Groups (elements ++ [(a, s)])
      (before ++ { c with members := c.members ++ [a] } :: after) := by
  have apart := h.apart
  rw [List.map_append, List.map_cons, List.pairwise_append, List.pairwise_cons] at apart
  obtain ⟨_, ⟨later, _⟩, earlier⟩ := apart
  -- no other cluster has the support, for then it had that of this one
  have other : ∀ d ∈ before ++ after, ¬ d.support.same s = true := by
    intro d member same
    rcases List.mem_append.mp member with member | member
    · exact earlier _ (List.mem_map_of_mem member) _ (List.mem_cons_self ..)
        (Support.same_trans same (Support.same_comm.mp joined))
    · exact later _ (List.mem_map_of_mem member)
        (Support.same_trans joined (Support.same_comm.mp same))
  have cases {d : Cluster α}
      (member : d ∈ before ++ { c with members := c.members ++ [a] } :: after) :
      d = { c with members := c.members ++ [a] } ∨ d ∈ before ++ after := by
    simpa [or_left_comm] using member
  have old {d : Cluster α} (member : d ∈ before ++ after) : d ∈ before ++ c :: after := by
    rw [List.mem_append, List.mem_cons]
    exact (List.mem_append.mp member).imp_right .inr
  have here : c ∈ before ++ c :: after := List.mem_append_right _ (List.mem_cons_self ..)
  refine ⟨by simpa using h.apart, fun d member => ?_, fun d member => ?_, fun e member => ?_⟩
  · rcases cases member with rfl | member
    · rw [having_append_of_same joined, ← h.members c here]
    · rw [having_append_of_not_same (other d member), h.members d (old member)]
  · have shared : ∃ d' ∈ before ++ c :: after, d'.support = d.support := by
      rcases cases member with rfl | member
      · exact ⟨c, here, rfl⟩
      · exact ⟨d, old member, rfl⟩
    obtain ⟨d', member', same⟩ := shared
    obtain ⟨e, among, support⟩ := h.support d' member'
    exact ⟨e, List.mem_append_left _ among, support.trans same⟩
  · have among : ∃ d ∈ before ++ c :: after, d.support.same e.2 = true := by
      rcases List.mem_append.mp member with member | member
      · exact h.covers e member
      · rw [List.mem_singleton.mp member]
        exact ⟨c, here, joined⟩
    obtain ⟨d, member, same⟩ := among
    rcases List.mem_append.mp member with member | member
    · exact ⟨d, List.mem_append_left _ member, same⟩
    · rcases List.mem_cons.mp member with rfl | member
      · exact ⟨_, List.mem_append_right _ (List.mem_cons_self ..), same⟩
      · exact ⟨d, List.mem_append_right _ (List.mem_cons_of_mem _ member), same⟩

/-- An element with another support than all before opens a cluster. -/
theorem Groups.open {s : Support} (h : Groups elements clusters)
    (new : ∀ c ∈ clusters, ¬ c.support.same s = true) (a : α) :
    Groups (elements ++ [(a, s)]) (clusters ++ [⟨s, [a]⟩]) := by
  have first : having elements s = [] := by
    rw [having, List.map_eq_nil_iff, List.filter_eq_nil_iff]
    intro e member same
    obtain ⟨c, among, same'⟩ := h.covers e member
    exact new c among (Support.same_trans same' (Support.same_comm.mp same))
  refine ⟨?_, fun c member => ?_, fun c member => ?_, fun e member => ?_⟩
  · rw [List.map_append, List.pairwise_append]
    refine ⟨h.apart, List.pairwise_singleton _ _, fun t member u last => ?_⟩
    obtain ⟨c, among, rfl⟩ := List.mem_map.mp member
    rw [List.mem_singleton.mp last]
    exact new c among
  · rcases List.mem_append.mp member with member | member
    · rw [having_append_of_not_same (new c member), h.members c member]
    · rw [List.mem_singleton.mp member, having_append_of_same (Support.same_refl s), first]
      rfl
  · rcases List.mem_append.mp member with member | member
    · obtain ⟨e, among, support⟩ := h.support c member
      exact ⟨e, List.mem_append_left _ among, support⟩
    · rw [List.mem_singleton.mp member]
      exact ⟨(a, s), List.mem_append_right _ (List.mem_singleton.mpr rfl), rfl⟩
  · rcases List.mem_append.mp member with member | member
    · obtain ⟨c, among, same⟩ := h.covers e member
      exact ⟨c, List.mem_append_left _ among, same⟩
    · rw [List.mem_singleton.mp member]
      exact ⟨_, List.mem_append_right _ (List.mem_singleton.mpr rfl), Support.same_refl s⟩

theorem Groups.add (h : Groups elements clusters) (a : α) (s : Support) :
    Groups (elements ++ [(a, s)]) (add clusters a s) := by
  rcases add_eq clusters a s with ⟨before, c, after, rfl, joined, added⟩ | ⟨none, added⟩
  · rw [added]
    exact h.join joined a
  · rw [added]
    exact h.open none a

theorem Groups.foldl {before : List (α × Support)} (h : Groups before clusters) :
    Groups (before ++ elements) (elements.foldl (fun clusters e => Cluster.add clusters e.1 e.2)
      clusters) := by
  induction elements generalizing before clusters with
  | nil => rwa [List.append_nil]
  | cons e rest ih =>
    rw [List.append_cons]
    exact ih (h.add e.1 e.2)

/-- Clusters may be put in any order. -/
theorem Groups.perm {other : List (Cluster α)} (h : Groups elements clusters)
    (same : clusters.Perm other) : Groups elements other := by
  refine ⟨?_, fun c member => h.members c (same.mem_iff.mpr member),
    fun c member => h.support c (same.mem_iff.mpr member), fun e member => ?_⟩
  · refine (List.Perm.pairwise_iff ?_ (same.map _)).mp h.apart
    exact fun differ equal => differ (Support.same_comm.mp equal)
  · obtain ⟨c, among, equal⟩ := h.covers e member
    exact ⟨c, same.mem_iff.mp among, equal⟩

/-- Grouping elements gives their clusters. -/
theorem groups_group (elements : List (α × Support)) : Groups elements (group elements) := by
  have none : @Groups α [] [] := ⟨.nil, nofun, nofun, nofun⟩
  exact none.foldl.perm (List.mergeSort_perm _ _).symm

/-- The least conditioned clusters come first. -/
theorem pairwise_group (elements : List (α × Support)) : (group elements).Pairwise
    fun a b => a.support.literalCount ≤ b.support.literalCount := by
  have sorted := @List.pairwise_mergeSort (Cluster α)
    (fun a b => decide (a.support.literalCount ≤ b.support.literalCount))
    (fun a b c first second => by simp only [decide_eq_true_eq] at *; omega)
    (fun a b => by simp only [Bool.or_eq_true, decide_eq_true_eq]; omega)
  exact (sorted _).imp of_decide_eq_true

end Cluster

end PlanNetwork
