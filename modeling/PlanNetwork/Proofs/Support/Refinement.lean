/-
# When one support says more than another

A support refines another one if each of its conjunctions has the literals of
some conjunction of the other. Intersecting two supports refines both, and
adding a literal refines too. What refines a support is true only where that
support is, whatever values the choices have, so it entails it. Entailment is
what matters of a guard; that the literals can be followed is what makes it
easy to see.
-/

import PlanNetwork.Proofs.Support.Unchecked

namespace PlanNetwork

variable {V : Vocabulary} {s t u : Support} {a b : Literal}

namespace Conjunction

/-- Conjunctions of one literal are as true as it. -/
theorem holds_single {v : Valuation V} : (single a).Holds v ↔ a.Holds v :=
  List.forall_mem_singleton

end Conjunction

namespace Support

theorem holds_ofConjunction {c : Conjunction} {v : Valuation V} :
    (ofConjunction c).Holds v ↔ c.Holds v := by
  constructor
  · rintro ⟨d, member, holds⟩
    obtain rfl := List.mem_singleton.mp member
    exact holds
  · exact fun holds => ⟨c, List.mem_singleton_self c, holds⟩

theorem holds_ofLiteral {v : Valuation V} : (ofLiteral a).Holds v ↔ a.Holds v :=
  holds_ofConjunction.trans Conjunction.holds_single

/-- Values are ruled out where the choice takes none of them. -/
theorem holds_exclusion {x : ChoiceVariable} {values : List String} {v : Valuation V} :
    (ofConjunction (.ofList (values.map (.isNot x ·)))).Holds v ↔
      v.value x.key ∉ values := by
  rw [holds_ofConjunction]
  constructor
  · intro holds taken
    obtain ⟨b, there, same⟩ :=
      OrdSet.exists_mem_ofList (List.mem_map_of_mem (f := (Literal.isNot x ·)) taken)
    exact (Literal.holds_congr v same).mpr (holds b there) rfl
  · intro free b there
    obtain ⟨value, listed, rfl⟩ := List.mem_map.mp (OrdSet.mem_of_mem_ofList there)
    exact fun same => free (same ▸ listed)

/-- Every valuation that meets the one support meets the other. -/
def Entails (s t : Support) : Prop :=
  ∀ ⦃V : Vocabulary⦄ (v : Valuation V), s.Holds v → t.Holds v

theorem Entails.refl (s : Support) : s.Entails s := fun _ _ => id

theorem Entails.trans (first : s.Entails t) (second : t.Entails u) : s.Entails u :=
  fun _ v holds => second v (first v holds)

/-- Every conjunction of the one support has the literals of some conjunction of
the other, up to literals that compare as equal. -/
def Refines (s t : Support) : Prop :=
  ∀ c ∈ s.toList, ∃ d ∈ t.toList, ∀ a ∈ d.toList, ∃ b ∈ c.toList, compare a b = .eq

theorem Refines.refl (s : Support) : s.Refines s :=
  fun c member => ⟨c, member, fun a there => ⟨a, there, Std.ReflCmp.compare_self⟩⟩

theorem Refines.trans (first : s.Refines t) (second : t.Refines u) : s.Refines u := by
  intro c member
  obtain ⟨d, inside, covers⟩ := first c member
  obtain ⟨e, within, more⟩ := second d inside
  refine ⟨e, within, fun a there => ?_⟩
  obtain ⟨b, found, same⟩ := more a there
  obtain ⟨b', found', same'⟩ := covers b found
  exact ⟨b', found', Std.TransCmp.eq_trans same same'⟩

theorem Refines.entails (h : s.Refines t) : s.Entails t := by
  rintro _ v ⟨c, member, holds⟩
  obtain ⟨d, inside, covers⟩ := h c member
  refine ⟨d, inside, fun a there => ?_⟩
  obtain ⟨b, found, same⟩ := covers a there
  exact (Literal.holds_congr v same).mpr (holds b found)

/-- A literal is required where the support refines the one with this literal alone. -/
theorem requires_iff_refines : s.Requires a ↔ s.Refines (ofLiteral a) := by
  constructor
  · intro required c member
    obtain ⟨b, there, same⟩ := required c member
    exact ⟨_, List.mem_singleton_self _, List.forall_mem_singleton.mpr ⟨b, there, same⟩⟩
  · intro refines c member
    obtain ⟨d, inside, covers⟩ := refines c member
    obtain rfl := List.mem_singleton.mp inside
    exact covers a (List.mem_singleton_self a)

theorem Refines.requires (h : s.Refines t) (required : t.Requires a) : s.Requires a :=
  requires_iff_refines.mpr (h.trans (requires_iff_refines.mp required))

theorem Requires.holds (required : s.Requires a) {v : Valuation V} (holds : s.Holds v) :
    a.Holds v :=
  holds_ofLiteral.mp ((requires_iff_refines.mp required).entails v holds)

theorem refines_and_left (s t : Support) : (s.and t).Refines s := by
  intro m member
  obtain ⟨c, inside, d, _, rfl, _⟩ := exists_merge_of_mem_and member
  exact ⟨c, inside, fun a there => ⟨a, OrdSet.mem_union_left there, Std.ReflCmp.compare_self⟩⟩

theorem refines_and_right (s t : Support) : (s.and t).Refines t := by
  intro m member
  obtain ⟨c, _, d, inside, rfl, _⟩ := exists_merge_of_mem_and member
  exact ⟨d, inside, fun a there => OrdSet.exists_mem_union_right there⟩

theorem refines_left_of_tryAnd (narrowed : s.tryAnd t = .ok u) : u.Refines s := by
  obtain ⟨_, rfl⟩ := tryAnd_eq_ok_iff.mp narrowed
  exact refines_and_left s t

theorem refines_right_of_tryAnd (narrowed : s.tryAnd t = .ok u) : u.Refines t := by
  obtain ⟨_, rfl⟩ := tryAnd_eq_ok_iff.mp narrowed
  exact refines_and_right s t

theorem refines_withLiteral (s : Support) (a : Literal) : (s.withLiteral a).Refines s := by
  intro c member
  obtain ⟨d, inside, rfl⟩ := List.mem_map.mp (OrdSet.mem_of_mem_ofList member)
  exact ⟨d, inside, fun b there => ⟨b, OrdSet.mem_insert_of_mem there, Std.ReflCmp.compare_self⟩⟩

theorem requires_withLiteral (s : Support) (a : Literal) : (s.withLiteral a).Requires a := by
  intro c member
  obtain ⟨d, _, rfl⟩ := List.mem_map.mp (OrdSet.mem_of_mem_ofList member)
  exact OrdSet.exists_mem_insert d.literals a

theorem holds_withLiteral {v : Valuation V} :
    (s.withLiteral a).Holds v ↔ s.Holds v ∧ a.Holds v := by
  constructor
  · exact fun holds => ⟨(refines_withLiteral s a).entails v holds,
      (requires_withLiteral s a).holds holds⟩
  · rintro ⟨⟨d, member, holds⟩, true_⟩
    obtain ⟨c, inside, same⟩ :=
      OrdSet.exists_mem_ofList (List.mem_map_of_mem (f := (Conjunction.insert · a)) member)
    refine ⟨c, inside, Conjunction.holds_of_compare_eq (Std.OrientedCmp.eq_comm.mp same) ?_⟩
    intro b there
    rcases OrdSet.mem_of_mem_insert there with rfl | there
    · exact true_
    · exact holds b there

/-- What is left of a support does not require two values of a choice. -/
theorem eq_of_requires {x : ChoiceVariable} {value other : String} (narrowed : s.tryAnd t = .ok u)
    (left : u.Requires (.is x value)) (right : u.Requires (.is x other)) : value = other := by
  obtain ⟨some, rfl⟩ := tryAnd_eq_ok_iff.mp narrowed
  obtain ⟨m, member⟩ : ∃ m, m ∈ (s.and t).toList := by
    refine List.exists_mem_of_ne_nil _ fun none => ?_
    rw [isEmpty_iff.mpr none] at some
    cases some
  obtain ⟨a, there, same⟩ := left m member
  obtain ⟨b, there', same'⟩ := right m member
  have passes := isSatisfiable_of_mem_and member
  rw [Conjunction.isSatisfiable, Bool.and_eq_true, Bool.not_eq_true'] at passes
  obtain ⟨key, assigned, sign⟩ := Literal.compare_eq_iff.mp same
  obtain ⟨key', assigned', sign'⟩ := Literal.compare_eq_iff.mp same'
  by_contra differ
  have conflict : a.conflictsWith b = true := Literal.conflictsWith_iff.mpr
    ⟨key.symm.trans key', .inl ⟨sign.symm, sign'.symm, fun equal =>
      differ (assigned.trans (equal.trans assigned'.symm))⟩⟩
  rw [Conjunction.not_conflictsWith_of_mem passes.1 there there'] at conflict
  cases conflict

end Support

end PlanNetwork
