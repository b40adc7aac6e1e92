/-
# Writing a support without a check

Two ways of changing a support do not look whether it can still be met: adding
a literal to every conjunction, and replacing the support by one conjunction.
Neither does harm where it is used. A literal that every conjunction has is
added to no effect. And ruling out fewer values than a choice has can be met,
for exclusions never conflict with each other.
-/

import PlanNetwork.Proofs.Support.Intersection

namespace PlanNetwork

namespace Conjunction

/-- Values of one choice are ruled out, but not as many as there are. -/
theorem isSatisfiable_ofList_isNot {x : ChoiceVariable} (values : List String)
    (fewer : values.length < x.arity) :
    (ofList (values.map (.isNot x ·))).isSatisfiable = true := by
  have exclusion : ∀ a ∈ (ofList (values.map (.isNot x ·))).toList,
      a.negated = true ∧ a.choice = x := by
    intro a ha
    obtain ⟨value, _, rfl⟩ := List.mem_map.mp (OrdSet.mem_of_mem_ofList ha)
    exact ⟨rfl, rfl⟩
  have conflicts : hasConflict (ofList (values.map (.isNot x ·))).toList = false := by
    refine (hasConflict_eq_false_iff (ofList _).literals.increasing).mpr ?_
    refine List.pairwise_of_forall_mem_list fun a ha b hb => ?_
    simp [Literal.conflictsWith, (exclusion a ha).1, (exclusion b hb).1]
  have leaves : (ofList (values.map (.isNot x ·))).leavesValues = true := by
    refine leavesValues_iff.mpr fun a ha _ => .inr ?_
    rw [(exclusion a ha).2]
    calc ((ofList (values.map (.isNot x ·))).excluded x).size
        ≤ (ofList (values.map (.isNot x ·))).size :=
          Nat.le_trans (OrdSet.size_ofList_le _) (by
            rw [List.length_map]
            exact List.length_filter_le ..)
      _ ≤ (values.map (Literal.isNot x ·)).length := OrdSet.size_ofList_le _
      _ = values.length := List.length_map _
      _ < x.arity := fewer
  simp [isSatisfiable, conflicts, leaves]

end Conjunction

namespace Support

/-- Every conjunction has the literal, up to one that compares as equal. -/
def Requires (s : Support) (a : Literal) : Prop :=
  ∀ c ∈ s.toList, ∃ b ∈ c.toList, compare a b = .eq

theorem requires_ofLiteral (a : Literal) : (ofLiteral a).Requires a := by
  intro c hc
  obtain rfl := List.mem_singleton.mp hc
  exact ⟨a, List.mem_singleton.mpr rfl, Std.ReflCmp.compare_self⟩

/-- What one of two supports requires, their intersection requires. -/
theorem Requires.and_left {s t : Support} {a : Literal} (h : s.Requires a) :
    (s.and t).Requires a := by
  intro m hm
  obtain ⟨c, hc, d, _, rfl, _⟩ := exists_merge_of_mem_and hm
  obtain ⟨b, hb, same⟩ := h c hc
  exact ⟨b, OrdSet.mem_union_left hb, same⟩

/-- What one of two supports requires, their intersection requires. -/
theorem Requires.and_right {s t : Support} {a : Literal} (h : t.Requires a) :
    (s.and t).Requires a := by
  intro m hm
  obtain ⟨c, _, d, hd, rfl, _⟩ := exists_merge_of_mem_and hm
  obtain ⟨b, hb, same⟩ := h d hd
  obtain ⟨b', hb', same'⟩ := OrdSet.exists_mem_union_right (s := c.literals) hb
  exact ⟨b', hb', Std.TransCmp.eq_trans same same'⟩

/-- Adding a literal that is required changes nothing. -/
theorem withLiteral_eq_self {s : Support} {a : Literal} (h : s.Requires a) :
    s.withLiteral a = s := by
  have each : s.toList.map (·.insert a) = s.toList := by
    conv_rhs => rw [← List.map_id s.toList]
    refine List.map_congr_left fun c hc => ?_
    obtain ⟨b, hb, same⟩ := h c hc
    exact congrArg Conjunction.mk (OrdSet.insert_eq_self hb same)
  unfold withLiteral OrdSet.image
  show mk (.ofList (s.toList.map (·.insert a))) = s
  rw [each]
  exact congrArg mk s.conjunctions.ofList_toList

end Support

end PlanNetwork
