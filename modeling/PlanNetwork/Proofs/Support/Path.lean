/-
# The support of a path

On the way from the plan down to an episode some choices are passed, each with
the value that leads on. The support of the path is the one conjunction of these
assignments. No choice is passed twice, so a path can always be gone, and the
order in which its literals were added does not matter.
-/

import Mathlib.Data.List.Pairwise
import PlanNetwork.Proofs.Support.Refinement

namespace PlanNetwork

/-- Values assigned to different choices. -/
structure IsPath (literals : List Literal) : Prop where
  /-- No choice is passed twice. -/
  apart : literals.Pairwise fun a b => a.choice.key ≠ b.choice.key
  /-- Values are assigned, not ruled out. -/
  assigned : ∀ a ∈ literals, a.negated = false

namespace IsPath

variable {literals : List Literal} {a b : Literal}

theorem nil : IsPath [] := ⟨.nil, nofun⟩

theorem tail (h : IsPath (a :: literals)) : IsPath literals :=
  ⟨(List.pairwise_cons.mp h.apart).2, fun b member => h.assigned b (List.mem_cons_of_mem _ member)⟩

/-- Literals of a path that compare as equal are the same. -/
theorem eq_of_key_eq (h : IsPath literals) (ha : a ∈ literals) (hb : b ∈ literals)
    (same : a.choice.key = b.choice.key) : a = b := by
  have : Std.Symm fun a b : Literal => a.choice.key ≠ b.choice.key := ⟨fun _ _ => Ne.symm⟩
  by_contra differ
  exact h.apart.forall ha hb differ same

theorem mem_ofList_iff (h : IsPath literals) :
    a ∈ (Conjunction.ofList literals).toList ↔ a ∈ literals := by
  refine ⟨OrdSet.mem_of_mem_ofList, fun member => ?_⟩
  obtain ⟨b, there, same⟩ := OrdSet.exists_mem_ofList member
  have key := (Literal.compare_eq_iff.mp same).1
  rwa [h.eq_of_key_eq member (OrdSet.mem_of_mem_ofList there) key]

theorem nodup (h : IsPath literals) : literals.Nodup :=
  h.apart.imp fun differ same => differ (congrArg (·.choice.key) same)

/-- The conjunction has all literals of the path. -/
theorem size_ofList (h : IsPath literals) : (Conjunction.ofList literals).size = literals.length :=
  OrdSet.size_eq_length h.nodup fun _ => h.mem_ofList_iff

/-- A path can be gone. -/
theorem isSatisfiable (h : IsPath literals) :
    (Conjunction.ofList literals).isSatisfiable = true := by
  have conflicts : Conjunction.hasConflict (Conjunction.ofList literals).toList = false := by
    refine (Conjunction.hasConflict_eq_false_iff (Conjunction.ofList _).literals.increasing).mpr ?_
    refine List.pairwise_of_forall_mem_list fun a ha b hb => ?_
    rw [Bool.eq_false_iff]
    intro conflict
    obtain ⟨key, rest⟩ := Literal.conflictsWith_iff.mp conflict
    obtain rfl := h.eq_of_key_eq (h.mem_ofList_iff.mp ha) (h.mem_ofList_iff.mp hb) key
    simp at rest
  have leaves : (Conjunction.ofList literals).leavesValues = true := by
    refine Conjunction.leavesValues_iff.mpr fun a ha negated => ?_
    rw [h.assigned a (h.mem_ofList_iff.mp ha)] at negated
    cases negated
  simp [Conjunction.isSatisfiable, conflicts, leaves]

/-- A new choice in front of a path. -/
theorem merge_single (h : IsPath (a :: literals)) :
    (Conjunction.ofList literals).merge (.single a) = .ofList (a :: literals) := by
  refine congrArg Conjunction.mk (OrdSet.eq_of_mem_iff fun b => ?_)
  have new : ∀ b ∈ (Conjunction.ofList literals).toList, compare a b ≠ .eq := by
    intro b member same
    have later := h.tail.mem_ofList_iff.mp member
    exact (List.pairwise_cons.mp h.apart).1 b later (Literal.compare_eq_iff.mp same).1
  constructor
  · intro member
    refine h.mem_ofList_iff.mpr ?_
    rcases OrdSet.mem_of_mem_union member with old | new
    · exact List.mem_cons_of_mem _ (h.tail.mem_ofList_iff.mp old)
    · exact List.mem_cons.mpr (.inl (List.mem_singleton.mp new))
  · intro member
    rcases List.mem_cons.mp (h.mem_ofList_iff.mp member) with rfl | old
    · exact OrdSet.mem_insert_self new
    · exact OrdSet.mem_union_left (h.tail.mem_ofList_iff.mpr old)

/-- The choice in front of a path is on it already. -/
theorem merge_single_again (h : IsPath (a :: literals)) :
    (Conjunction.ofList (a :: literals)).merge (.single a) = .ofList (a :: literals) :=
  congrArg Conjunction.mk (OrdSet.insert_eq_self (h.mem_ofList_iff.mpr (List.mem_cons_self ..))
    Std.ReflCmp.compare_self)

end IsPath

namespace Support

variable {literals : List Literal} {a : Literal} {c d : Conjunction}

/-- The support of a path. -/
def ofPath (literals : List Literal) : Support := .ofConjunction (.ofList literals)

theorem ofPath_nil : ofPath [] = always := rfl

/-- The support of a path holds where all its values are taken. -/
theorem holds_ofPath {V : Vocabulary} {v : Valuation V} (h : IsPath literals) :
    (ofPath literals).Holds v ↔ ∀ a ∈ literals, a.Holds v :=
  holds_ofConjunction.trans (forall_congr' fun _ => imp_congr_left h.mem_ofList_iff)

theorem literalCount_ofPath (h : IsPath literals) :
    (ofPath literals).literalCount = literals.length := by
  rw [← h.size_ofList]
  show (List.flatMap Conjunction.toList [Conjunction.ofList literals]).length = _
  rw [List.flatMap_singleton]
  rfl

theorem tryAnd_ofConjunction (passes : (c.merge d).isSatisfiable = true) :
    (ofConjunction c).tryAnd (ofConjunction d) = .ok (ofConjunction (c.merge d)) := by
  have narrowed : (ofConjunction c).and (ofConjunction d) = ofConjunction (c.merge d) := by
    show ofList (List.flatMap _ [c]) = _
    rw [List.flatMap_singleton]
    show ofList (List.filterMap c.and? [d]) = _
    rw [List.filterMap_cons, Conjunction.and?_eq, if_pos passes]
    rfl
  rw [tryAnd_eq, narrowed]
  rfl

/-- A path is narrowed by putting a new choice in front of it. -/
theorem ofPath_tryAnd_ofLiteral (h : IsPath (a :: literals)) :
    (ofPath literals).tryAnd (ofLiteral a) = .ok (ofPath (a :: literals)) := by
  have passes := h.isSatisfiable
  rw [← h.merge_single] at passes
  rw [ofPath, ofLiteral, tryAnd_ofConjunction passes, h.merge_single, ofPath]

/-- Narrowing a path by the same choice again does nothing. -/
theorem ofPath_cons_tryAnd_ofLiteral (h : IsPath (a :: literals)) :
    (ofPath (a :: literals)).tryAnd (ofLiteral a) = .ok (ofPath (a :: literals)) := by
  have passes := h.isSatisfiable
  rw [← h.merge_single_again] at passes
  rw [ofPath, ofLiteral, tryAnd_ofConjunction passes, h.merge_single_again]

/-- A path is not narrowed by what always holds. -/
theorem ofPath_tryAnd_always (h : IsPath literals) :
    (ofPath literals).tryAnd always = .ok (ofPath literals) :=
  tryAnd_ofConjunction (d := .always) h.isSatisfiable

theorem always_tryAnd_always : always.tryAnd always = .ok always := by
  rw [← ofPath_nil]
  exact ofPath_tryAnd_always .nil

/-- What always holds is narrowed to a path. -/
theorem always_tryAnd_ofPath (h : IsPath literals) :
    always.tryAnd (ofPath literals) = .ok (ofPath literals) := by
  have same : Conjunction.always.merge (.ofList literals) = .ofList literals :=
    congrArg Conjunction.mk (OrdSet.ofList_toList _)
  have passes := h.isSatisfiable
  rw [← same] at passes
  show (ofConjunction .always).tryAnd (ofConjunction _) = _
  rw [tryAnd_ofConjunction passes, same, ofPath]

end Support

end PlanNetwork
