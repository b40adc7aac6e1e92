/-
# Narrowing is conjunction

Intersecting two supports pairs their conjunctions and drops the pairs that
fail the check. Since the check is exact, no valuation is lost and none is
gained: the intersection is true where both supports are. What is left of it
can be met, so it is empty just where no valuation meets both, and then, and
only then, narrowing is refused.
-/

import PlanNetwork.Proofs.Support.Satisfiability

namespace PlanNetwork

variable {V : Vocabulary}

namespace Support

/-- A conjunction of an intersection is two conjunctions together that passed
the check. -/
theorem exists_merge_of_mem_and {s t : Support} {m : Conjunction} (h : m ∈ (s.and t).toList) :
    ∃ c ∈ s.toList, ∃ d ∈ t.toList, m = c.merge d ∧ m.isSatisfiable = true := by
  obtain ⟨c, hc, hm⟩ := List.mem_flatMap.mp (OrdSet.mem_of_mem_ofList h)
  obtain ⟨d, hd, merged⟩ := List.mem_filterMap.mp hm
  rw [Conjunction.and?_eq, Option.ite_none_right_eq_some, Option.some.injEq] at merged
  obtain ⟨passes, rfl⟩ := merged
  exact ⟨c, hc, d, hd, rfl, passes⟩

/-- Two conjunctions that can be met together are in the intersection, up to a
conjunction that compares as equal. -/
theorem exists_mem_and {s t : Support} {c d : Conjunction} (hc : c ∈ s.toList)
    (hd : d ∈ t.toList) (passes : (c.merge d).isSatisfiable = true) :
    ∃ m ∈ (s.and t).toList, compare (c.merge d) m = .eq := by
  apply OrdSet.exists_mem_ofList
  refine List.mem_flatMap.mpr ⟨c, hc, List.mem_filterMap.mpr ⟨d, hd, ?_⟩⟩
  rw [Conjunction.and?_eq, if_pos passes]

theorem isSatisfiable_of_mem_and {s t : Support} {m : Conjunction} (h : m ∈ (s.and t).toList) :
    m.isSatisfiable = true := by
  obtain ⟨_, _, _, _, _, passes⟩ := exists_merge_of_mem_and h
  exact passes

theorem Within.and {s t : Support} (hs : s.Within V) (ht : t.Within V) : (s.and t).Within V := by
  intro m hm
  obtain ⟨c, hc, d, hd, rfl, _⟩ := exists_merge_of_mem_and hm
  exact (hs c hc).merge (ht d hd)

/-- The choices that the support speaks of have their values in the vocabulary. Those that it
assigns need not be among them. -/
def Typed (V : Vocabulary) (s : Support) : Prop :=
  ∀ c ∈ s.toList, ∀ a ∈ c.toList, a.choice.domain = V.domain a.choice.key

theorem Within.typed {s : Support} (h : s.Within V) : s.Typed V :=
  fun c hc a ha => (h c hc a ha).1

theorem Typed.and {s t : Support} (hs : s.Typed V) (ht : t.Typed V) : (s.and t).Typed V := by
  intro m hm a ha
  obtain ⟨c, hc, d, hd, rfl, _⟩ := exists_merge_of_mem_and hm
  rcases OrdSet.mem_of_mem_union ha with left | right
  · exact hs c hc a left
  · exact ht d hd a right

/-- Where a conjunction is true, it assigns values that are open to the choices. -/
theorem Typed.within {s : Support} {c : Conjunction} {v : Valuation V} (h : s.Typed V)
    (member : c ∈ s.toList) (holds : c.Holds v) : c.Within V := by
  intro a ha
  refine ⟨h c member a ha, fun positive => ?_⟩
  have value := holds a ha
  rw [Literal.Holds, positive, if_neg Bool.false_ne_true] at value
  exact value ▸ v.mem a.choice.key

/-- The intersection is true where both supports are, whatever values they assign. -/
theorem holds_and_of_typed {s t : Support} (hs : s.Typed V) (ht : t.Typed V) (v : Valuation V) :
    (s.and t).Holds v ↔ s.Holds v ∧ t.Holds v := by
  constructor
  · rintro ⟨m, hm, holds⟩
    obtain ⟨c, hc, d, hd, rfl, _⟩ := exists_merge_of_mem_and hm
    obtain ⟨left, right⟩ := Conjunction.holds_merge.mp holds
    exact ⟨⟨c, hc, left⟩, ⟨d, hd, right⟩⟩
  · rintro ⟨⟨c, hc, left⟩, ⟨d, hd, right⟩⟩
    have both : (c.merge d).Holds v := Conjunction.holds_merge.mpr ⟨left, right⟩
    obtain ⟨m, hm, same⟩ := exists_mem_and hc hd
      (Conjunction.isSatisfiable_of_holds ((hs.within hc left).merge (ht.within hd right)) both)
    exact ⟨m, hm, (Conjunction.holds_congr v same).mp both⟩

theorem holds_and {s t : Support} (hs : s.Within V) (ht : t.Within V) (v : Valuation V) :
    (s.and t).Holds v ↔ s.Holds v ∧ t.Holds v :=
  holds_and_of_typed hs.typed ht.typed v

theorem isEmpty_iff {s : Support} : s.isEmpty = true ↔ s.toList = [] := OrdSet.isEmpty_iff

/-- Nothing meets an empty intersection, and something meets any other. -/
theorem isEmpty_and_iff {s t : Support} (hs : s.Within V) (ht : t.Within V) :
    (s.and t).isEmpty = true ↔ ∀ v : Valuation V, ¬ (s.Holds v ∧ t.Holds v) := by
  rw [isEmpty_iff]
  constructor
  · intro empty v both
    obtain ⟨m, hm, _⟩ := (holds_and hs ht v).mpr both
    rw [empty] at hm
    cases hm
  · intro nothing
    by_contra some
    obtain ⟨m, hm⟩ := List.exists_mem_of_ne_nil _ some
    obtain ⟨v, holds⟩ := Conjunction.exists_holds_of_isSatisfiable (hs.and ht m hm)
      (isSatisfiable_of_mem_and hm)
    exact nothing v ((holds_and hs ht v).mp ⟨m, hm, holds⟩)

theorem tryAnd_eq (s t : Support) :
    s.tryAnd t = if (s.and t).isEmpty then .error ⟨s, t⟩ else .ok (s.and t) := rfl

theorem tryAnd_eq_error_iff {s t : Support} {clash : Clash} :
    s.tryAnd t = .error clash ↔ (s.and t).isEmpty = true ∧ clash = ⟨s, t⟩ := by
  rw [tryAnd_eq]
  split
  next empty => simp [empty, eq_comm]
  next some => simp [some]

theorem tryAnd_eq_ok_iff {s t u : Support} :
    s.tryAnd t = .ok u ↔ (s.and t).isEmpty = false ∧ u = s.and t := by
  rw [tryAnd_eq]
  split
  next empty => simp [empty]
  next some => simp [some, eq_comm]

/-- Intersecting supports is exactly logical conjunction: the intersection is
true where both are, each of its conjunctions can be met, and narrowing is
refused, with both supports as they are, just where nothing meets both. -/
theorem and_is_conjunction {s t : Support} (hs : s.Within V) (ht : t.Within V) :
    (∀ v : Valuation V, (s.and t).Holds v ↔ s.Holds v ∧ t.Holds v) ∧
    (∀ c ∈ (s.and t).toList, c.isSatisfiable = true ∧ ∃ v : Valuation V, c.Holds v) ∧
    ((∃ clash, s.tryAnd t = .error clash) ↔ ¬ ∃ v : Valuation V, s.Holds v ∧ t.Holds v) ∧
    (∀ clash, s.tryAnd t = .error clash → clash = ⟨s, t⟩) := by
  refine ⟨holds_and hs ht, fun c hc => ⟨isSatisfiable_of_mem_and hc, ?_⟩, ?_, ?_⟩
  · exact Conjunction.exists_holds_of_isSatisfiable (hs.and ht c hc) (isSatisfiable_of_mem_and hc)
  · rw [not_exists, ← isEmpty_and_iff hs ht]
    constructor
    · rintro ⟨clash, refused⟩
      exact (tryAnd_eq_error_iff.mp refused).1
    · intro empty
      exact ⟨⟨s, t⟩, tryAnd_eq_error_iff.mpr ⟨empty, rfl⟩⟩
  · intro clash refused
    exact (tryAnd_eq_error_iff.mp refused).2

/-- Ruling out one value of two leaves the other, and ruling out both leaves
nothing, though no two literals conflict. -/
theorem and_is_conjunction_two_values :
    let V : Vocabulary := ⟨fun _ => ["A", "B"], by simp, fun _ => by decide⟩
    let x : ChoiceVariable := ⟨1, "x", .controllable, ["A", "B"]⟩
    let s : Support := .ofLiteral (.isNot x "A")
    let t : Support := .ofLiteral (.isNot x "B")
    (s.Within V ∧ t.Within V) ∧
    (∀ v : Valuation V, (s.and t).Holds v ↔ s.Holds v ∧ t.Holds v) ∧
    (∀ c ∈ (s.and t).toList, c.isSatisfiable = true ∧ ∃ v : Valuation V, c.Holds v) ∧
    ((∃ clash, s.tryAnd t = .error clash) ↔ ¬ ∃ v : Valuation V, s.Holds v ∧ t.Holds v) ∧
    (∀ clash, s.tryAnd t = .error clash → clash = ⟨s, t⟩) := by
  intro V x s t
  have hs : s.Within V := by
    intro c hc a ha
    obtain rfl := List.mem_singleton.mp hc
    obtain rfl := List.mem_singleton.mp ha
    exact ⟨rfl, by decide⟩
  have ht : t.Within V := by
    intro c hc a ha
    obtain rfl := List.mem_singleton.mp hc
    obtain rfl := List.mem_singleton.mp ha
    exact ⟨rfl, by decide⟩
  exact ⟨⟨hs, ht⟩, and_is_conjunction hs ht⟩

end Support

end PlanNetwork
