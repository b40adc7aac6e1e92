/-
# Grouping is a stable partition

Clusters are opened in the order in which their supports are met, and sorted by how many
literals they have. Sorting leaves those with equally many in the order in which they were
opened. So the place of a cluster is told by two numbers, and no two clusters agree in both.

Only two supports have no literals: the one that always holds and the one that never does.
The cluster of what always holds is the first one for this reason, unless something that
never exists has been met before.
-/

import PlanNetwork.Proofs.OrdSet
import PlanNetwork.Proofs.Support.Cluster

namespace PlanNetwork

namespace Support

variable {s : Support}

/-- Only a support whose conjunctions are all empty has no literals. -/
theorem literalCount_eq_zero_iff : s.literalCount = 0 ↔ s = .never ∨ s = .always := by
  constructor
  · intro none
    have empty : ∀ c ∈ s.toList, c = .always := by
      intro c member
      have literals := List.flatMap_eq_nil_iff.mp (List.length_eq_zero_iff.mp none) c member
      exact congrArg Conjunction.mk (OrdSet.eq_of_toList_eq literals)
    have eq_of {t : Support} (same : s.toList = t.toList) : s = t :=
      congrArg Support.mk (OrdSet.eq_of_toList_eq same)
    have once : s.toList.Nodup := s.conjunctions.nodup
    cases conjunctions : s.toList with
    | nil => exact .inl (eq_of conjunctions)
    | cons c rest =>
      rw [conjunctions] at empty once
      obtain ⟨rfl, others⟩ := List.forall_mem_cons.mp empty
      -- a second conjunction would be the empty one again
      have last : rest = [] := by
        apply List.eq_nil_iff_forall_not_mem.mpr
        intro d member
        obtain rfl := others d member
        exact (List.nodup_cons.mp once).1 member
      exact .inr (eq_of (conjunctions.trans (congrArg (_ :: ·) last)))
  · rintro (rfl | rfl) <;> rfl

theorem eq_always_of_same (same : s.same .always = true) : s = .always := by
  have order : compare s.toList Support.always.toList = .eq := beq_iff_eq.mp same
  have none : s.literalCount = 0 := by
    rw [literalCount, List.length_eq_zero_iff, List.flatMap_eq_nil_iff]
    intro c member
    obtain ⟨d, last, equal⟩ := OrdSet.exists_mem_of_compare_eq order c member
    obtain rfl := List.mem_singleton.mp last
    apply List.eq_nil_iff_forall_not_mem.mpr
    intro a literal
    obtain ⟨_, absent, _⟩ := OrdSet.exists_mem_of_compare_eq (m := []) equal a literal
    cases absent
  refine (literalCount_eq_zero_iff.mp none).resolve_left ?_
  rintro rfl
  cases order

end Support

namespace Cluster

variable {α : Type} {elements : List (α × Support)} {clusters : List (Cluster α)} {s : Support}

/-! ## The order of clusters -/

/-- Where in the list a support is met first. -/
def firstMet (elements : List (α × Support)) (s : Support) : Nat := elements.findIdx (s.same ·.2)

/-- A cluster stands before another: it has fewer literals, or as many and has been met
earlier. -/
def Precedes (elements : List (α × Support)) (c d : Cluster α) : Prop :=
  c.support.literalCount < d.support.literalCount ∨
    c.support.literalCount = d.support.literalCount ∧
      firstMet elements c.support < firstMet elements d.support

theorem firstMet_append_of_met (more : List (α × Support))
    (met : ∃ e ∈ elements, s.same e.2 = true) :
    firstMet (elements ++ more) s = firstMet elements s := by
  rw [firstMet, List.findIdx_append, if_pos (List.findIdx_lt_length.mpr met)]
  rfl

/-- The support of a cluster has been met. -/
theorem Groups.met (h : Groups elements clusters) {c : Cluster α} (among : c ∈ clusters) :
    ∃ e ∈ elements, c.support.same e.2 = true := by
  obtain ⟨e, member, same⟩ := h.support c among
  exact ⟨e, member, same ▸ Support.same_refl _⟩

/-- The supports stand in the order in which they have been met. -/
def Opened (elements : List (α × Support)) (supports : List Support) : Prop :=
  supports.Pairwise fun s t => firstMet elements s < firstMet elements t

/-- A cluster that is opened has been met later than all the others. -/
theorem Opened.add (opened : Opened elements (clusters.map support))
    (h : Groups elements clusters) (a : α) (s : Support) :
    Opened (elements ++ [(a, s)]) ((Cluster.add clusters a s).map support) := by
  have met {t : Support} (among : t ∈ clusters.map support) :
      ∃ e ∈ elements, t.same e.2 = true := by
    obtain ⟨c, member, rfl⟩ := List.mem_map.mp among
    exact h.met member
  have kept : Opened (elements ++ [(a, s)]) (clusters.map support) := by
    refine opened.imp_of_mem fun first second earlier => ?_
    rwa [firstMet_append_of_met _ (met first), firstMet_append_of_met _ (met second)]
  rcases add_eq clusters a s with ⟨before, c, after, rfl, _, added⟩ | ⟨new, added⟩
  · simpa [added] using kept
  · rw [added, List.map_append]
    refine List.pairwise_append.mpr ⟨kept, List.pairwise_singleton _ _, fun t among u last => ?_⟩
    rw [List.mem_singleton.mp last]
    have unmet : ¬ ∃ e ∈ elements, s.same e.2 = true := by
      rintro ⟨e, member, same⟩
      obtain ⟨c, among, same'⟩ := h.covers e member
      exact new c among (Support.same_trans same' (Support.same_comm.mp same))
    calc firstMet (elements ++ [(a, s)]) t
        = firstMet elements t := firstMet_append_of_met _ (met among)
      _ < elements.length := List.findIdx_lt_length.mpr (met among)
      _ ≤ firstMet (elements ++ [(a, s)]) s := by
        rw [firstMet, List.findIdx_append, if_neg (mt List.findIdx_lt_length.mp unmet)]
        exact Nat.le_add_left _ _

/-- One more element is one more member. -/
theorem perm_flatMap_add (clusters : List (Cluster α)) (a : α) (s : Support) :
    ((Cluster.add clusters a s).flatMap members).Perm (clusters.flatMap members ++ [a]) := by
  rcases add_eq clusters a s with ⟨before, c, after, rfl, _, added⟩ | ⟨_, added⟩
  · simp only [added, List.flatMap_append, List.flatMap_cons, List.append_assoc]
    refine .append_left _ (.append_left _ ?_)
    exact List.perm_append_comm
  · simp [added]

/-- What is true of the clusters while the elements are gone through. -/
structure Gathers (elements : List (α × Support)) (clusters : List (Cluster α)) : Prop
    extends Groups elements clusters where
  /-- They stand in the order in which they have been opened. -/
  opened : Opened elements (clusters.map Cluster.support)
  /-- Nothing is lost, and nothing is there twice. -/
  perm : (clusters.flatMap Cluster.members).Perm (elements.map (·.1))

theorem Gathers.foldl {before : List (α × Support)} (h : Gathers before clusters) :
    Gathers (before ++ elements)
      (elements.foldl (fun clusters e => Cluster.add clusters e.1 e.2) clusters) := by
  induction elements generalizing before clusters with
  | nil => rwa [List.append_nil]
  | cons e rest ih =>
    rw [List.append_cons]
    refine ih ⟨h.toGroups.add e.1 e.2, h.opened.add h.toGroups e.1 e.2, ?_⟩
    rw [List.map_append]
    exact (perm_flatMap_add clusters e.1 e.2).trans (h.perm.append_right _)

/-! ## Sorting -/

/-- Among equals sorting changes nothing. -/
theorem filter_mergeSort {β : Type} (count : β → Nat) (k : Nat) (items : List β) :
    (items.mergeSort fun a b => decide (count a ≤ count b)).filter (fun a => count a = k) =
      items.filter fun a => count a = k := by
  have among : (items.filter fun a => count a = k).Sublist
      (items.mergeSort fun a b => decide (count a ≤ count b)) := by
    refine List.sublist_mergeSort (fun a b c first second => ?_) (fun a b => ?_) ?_
      List.filter_sublist
    · simp only [decide_eq_true_eq] at *
      omega
    · simp only [Bool.or_eq_true, decide_eq_true_eq]
      omega
    · refine List.pairwise_of_forall_mem_list fun a first b second => ?_
      simp only [List.mem_filter, decide_eq_true_eq] at *
      omega
  have inside := among.filter fun a => decide (count a = k)
  rw [List.filter_filter] at inside
  simp only [Bool.and_self] at inside
  exact (inside.eq_of_length ((List.mergeSort_perm _ _).filter _).length_eq.symm).symm

/-- Items that count the same stay in their order. -/
theorem pairwise_mergeSort_of_eq {β : Type} (count : β → Nat) {R : β → β → Prop} {items : List β}
    (ordered : items.Pairwise R) :
    (items.mergeSort fun a b => decide (count a ≤ count b)).Pairwise
      fun a b => count a = count b → R a b := by
  refine List.pairwise_iff_forall_sublist.mpr fun {a b} sublist equal => ?_
  have among := sublist.filter fun x => decide (count x = count b)
  rw [filter_mergeSort] at among
  have both : [a, b].filter (fun x => decide (count x = count b)) = [a, b] := by simp [equal]
  exact List.pairwise_iff_forall_sublist.mp ordered (both ▸ among.trans List.filter_sublist)

/-! ## Grouping -/

/-- The clusters are a stable partition of the elements. -/
structure Partitions (elements : List (α × Support)) (clusters : List (Cluster α)) : Prop
    extends Groups elements clusters where
  /-- The members of all clusters are the elements, each as often as it is there. -/
  perm : (clusters.flatMap Cluster.members).Perm (elements.map (·.1))
  /-- Clusters with fewer literals come first, and of those with equally many the one whose
  support has been met earlier. -/
  ordered : clusters.Pairwise (Precedes elements)
  /-- If something always exists, then its cluster is the first one, or the second one behind
  the cluster of what never exists, if that has been met earlier. -/
  unconditioned : (∃ e ∈ elements, e.2 = .always) → ∃ c rest, c.support = .always ∧
    (clusters = c :: rest ∨ ∃ d, clusters = d :: c :: rest ∧ d.support = .never ∧
      firstMet elements .never < firstMet elements .always)

/-- The only clusters before the one of what always holds have no literals either. -/
theorem never_of_precedes {c d : Cluster α} (always : c.support = .always)
    (before : Precedes elements d c) :
    d.support = .never ∧ firstMet elements .never < firstMet elements .always := by
  rw [Precedes, always] at before
  obtain ⟨equal, earlier⟩ := before.resolve_left (Nat.not_lt_zero _)
  rcases Support.literalCount_eq_zero_iff.mp equal with never | again
  · exact ⟨never, never ▸ earlier⟩
  · exact absurd earlier (again ▸ Nat.lt_irrefl _)

/-- Grouping elements by their supports is a stable partition. No two clusters have the same
support. The members of a cluster are the elements with its support, in their order and as
often as they are there, so that all clusters together have just the elements. A cluster
stands before those with more literals and before those that have as many and have been met
later. The cluster of what always exists is the first one, but for that of what never exists
if such an element has been met earlier. -/
theorem grouping_is_stable_partition (elements : List (α × Support)) :
    Partitions elements (group elements) := by
  have none : @Gathers α [] [] := ⟨⟨.nil, nofun, nofun, nofun⟩, .nil, .nil⟩
  have groups := groups_group elements
  have gathers : Gathers elements _ := none.foldl
  have ordered : (group elements).Pairwise (Precedes elements) := by
    have stable := pairwise_mergeSort_of_eq (fun c : Cluster α => c.support.literalCount)
      (List.pairwise_map.mp gathers.opened)
    refine ((pairwise_group elements).and stable).imp fun {c d} ⟨few, earlier⟩ => ?_
    exact (Nat.lt_or_eq_of_le few).imp_right fun equal => ⟨equal, earlier equal⟩
  refine ⟨groups, ?_, ordered, ?_⟩
  · exact ((List.mergeSort_perm _ _).flatMap_right _).trans gathers.perm
  · rintro ⟨e, member, always⟩
    obtain ⟨c, among, same⟩ := groups.covers e member
    have always : c.support = .always := Support.eq_always_of_same (always ▸ same)
    obtain ⟨before, rest, split⟩ := List.append_of_mem among
    have apart := groups.apart
    rw [split] at ordered apart ⊢
    have first : ∀ d ∈ before, d.support = .never ∧
        firstMet elements .never < firstMet elements .always := fun d inside =>
      never_of_precedes always ((List.pairwise_append.mp ordered).2.2 d inside c
        (List.mem_cons_self ..))
    refine ⟨c, rest, always, ?_⟩
    match before with
    | [] => exact .inl rfl
    | [d] => exact .inr ⟨d, rfl, first d (List.mem_singleton_self d)⟩
    | d :: d' :: _ =>
      -- two clusters of what never exists would have one support
      obtain ⟨never, _⟩ := first d (List.mem_cons_self ..)
      obtain ⟨never', _⟩ := first d' (by simp)
      have differ := (List.pairwise_cons.mp apart).1 d'.support (by simp)
      rw [never, never'] at differ
      exact absurd (Support.same_refl _) differ

/-- What never exists has no literals either. If it is met first, then the cluster of what
always exists is not the first one. -/
theorem unconditioned_behind_never :
    let elements : List (String × Support) := [("idle", .never), ("walk", .always)]
    (∃ e ∈ elements, e.2 = .always) ∧
      ¬ ∃ c rest, group elements = c :: rest ∧ c.support = .always := by
  intro elements
  refine ⟨⟨("walk", .always), by simp [elements], rfl⟩, ?_⟩
  rintro ⟨c, rest, first, always⟩
  have clusters : group elements = [⟨.never, ["idle"]⟩, ⟨.always, ["walk"]⟩] :=
    -- the two are opened in this order, and neither has more literals
    List.mergeSort_of_pairwise (by decide)
  rw [clusters, List.cons.injEq] at first
  obtain ⟨rfl, _⟩ := first
  cases congrArg Support.toList always

end Cluster

end PlanNetwork
