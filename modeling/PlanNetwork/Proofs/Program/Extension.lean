/-
# One literal more

A step on a choice leads from its support to another one if some conjunction of the other one
has the literals of a conjunction of the first and that of the step besides.

Which step leads to a support is looked for pair by pair, in the order of the conjunctions,
and the search ends at the first pair that one literal about the choice separates. Supports
may have several conjunctions, so the steps that lead somewhere can be several, and the one
that is found is the first of them.
-/

import Mathlib.Data.List.Nodup
import PlanNetwork.Proofs.Program.Activation
import PlanNetwork.Proofs.Support.Given

namespace PlanNetwork

variable {a b : Literal} {c outer inner : Conjunction} {s t : Support} {subject : ChoiceVariable}

namespace Conjunction

/-! ## Conjunctions that grow -/

theorem contains_congr (c : Conjunction) (same : compare a b = .eq) :
    c.contains a = c.contains b := by
  have eq_of {x y : Literal} (same : compare x y = .eq) (there : c.contains x = true) :
      c.contains y = true := by
    obtain ⟨z, member, same'⟩ := contains_iff.mp there
    exact contains_iff.mpr
      ⟨z, member, Std.TransCmp.eq_trans (Std.OrientedCmp.eq_comm.mp same) same'⟩
  exact Bool.eq_iff_iff.mpr ⟨eq_of same, eq_of (Std.OrientedCmp.eq_comm.mp same)⟩

theorem contains_insert_iff :
    (c.insert a).contains b = true ↔ compare b a = .eq ∨ c.contains b = true := by
  constructor
  · intro there
    obtain ⟨x, member, same⟩ := contains_iff.mp there
    rcases OrdSet.mem_of_mem_insert member with rfl | old
    · exact .inl same
    · exact .inr (contains_iff.mpr ⟨x, old, same⟩)
  · rintro (same | there)
    · obtain ⟨x, member, same'⟩ := c.literals.exists_mem_insert a
      exact contains_iff.mpr ⟨x, member, Std.TransCmp.eq_trans same same'⟩
    · obtain ⟨x, member, same⟩ := contains_iff.mp there
      exact contains_iff.mpr ⟨x, OrdSet.mem_insert_of_mem member, same⟩

theorem mem_difference_iff :
    a ∈ (c.difference outer).toList ↔ a ∈ c.toList ∧ outer.contains a = false := by
  rw [show a ∈ (c.difference outer).toList ↔
    a ∈ c.toList.filter (!outer.contains ·) from Iff.rfl, List.mem_filter, Bool.not_eq_true']

/-- The literal is new to the one conjunction, and with it this has the literals of the other
one. -/
def GrowsBy (outer : Conjunction) (a : Literal) (inner : Conjunction) : Prop :=
  outer.contains a = false ∧ ∀ b, inner.contains b = (outer.insert a).contains b

namespace GrowsBy

variable (grows : outer.GrowsBy a inner)

include grows

theorem contains_iff : inner.contains b = true ↔ compare b a = .eq ∨ outer.contains b = true := by
  rw [grows.2, contains_insert_iff]

/-- Every literal of the shorter conjunction has one in the longer one that is the same. -/
theorem isSubset : outer.isSubset inner = true := by
  refine Conjunction.isSubset_iff.mpr fun x member => ?_
  have there := Conjunction.contains_iff.mpr ⟨x, member, Std.ReflCmp.compare_self⟩
  exact Conjunction.contains_iff.mp (grows.contains_iff.mpr (.inr there))

/-- There is one literal that the shorter one does not have, and it is the new one. -/
theorem exists_difference : ∃ x, (inner.difference outer).toList = [x] ∧ compare a x = .eq := by
  obtain ⟨x, member, same⟩ :=
    Conjunction.contains_iff.mp (grows.contains_iff.mpr (.inl Std.ReflCmp.compare_self))
  have new : outer.contains x = false := contains_congr outer same ▸ grows.1
  refine ⟨x, List.perm_singleton.mp ?_, same⟩
  refine (List.perm_ext_iff_of_nodup (OrdSet.nodup _)
    (List.nodup_cons.mpr ⟨List.not_mem_nil, .nil⟩)).mpr fun y => ?_
  rw [List.mem_singleton]
  constructor
  · intro left
    obtain ⟨there, absent⟩ := mem_difference_iff.mp left
    have one := grows.contains_iff.mp
      (Conjunction.contains_iff.mpr ⟨y, there, Std.ReflCmp.compare_self⟩)
    rw [absent, or_iff_left Bool.false_ne_true] at one
    exact OrdSet.eq_of_compare_eq there member (Std.TransCmp.eq_trans one same)
  · rintro rfl
    exact mem_difference_iff.mpr ⟨member, new⟩

theorem size_lt : outer.size < inner.size := by
  have new : ∀ x ∈ outer.toList, compare a x ≠ .eq := fun x member same =>
    Bool.false_ne_true (grows.1.symm.trans (Conjunction.contains_iff.mpr ⟨x, member, same⟩))
  -- every literal of the shorter conjunction and the new one stand for one of the longer one
  have stands : ∀ x, ∃ y, x ∈ a :: outer.toList → y ∈ inner.toList ∧ compare x y = .eq := by
    intro x
    by_cases member : x ∈ a :: outer.toList
    · have there : inner.contains x = true := by
        rw [grows.contains_iff]
        rcases List.mem_cons.mp member with rfl | old
        · exact .inl Std.ReflCmp.compare_self
        · exact .inr (Conjunction.contains_iff.mpr ⟨x, old, Std.ReflCmp.compare_self⟩)
      obtain ⟨y, inside, same⟩ := Conjunction.contains_iff.mp there
      exact ⟨y, fun _ => ⟨inside, same⟩⟩
    · exact ⟨x, fun again => (member again).elim⟩
  choose rep stands using stands
  have once : (a :: outer.toList).Nodup :=
    List.nodup_cons.mpr ⟨fun old => new a old Std.ReflCmp.compare_self, OrdSet.nodup _⟩
  have apart : ((a :: outer.toList).map rep).Nodup := by
    refine List.Nodup.map_on (fun x hx y hy equal => ?_) once
    have same : compare x y = .eq := Std.TransCmp.eq_trans (stands x hx).2
      (equal ▸ Std.OrientedCmp.eq_comm.mp (stands y hy).2)
    rcases List.mem_cons.mp hx with rfl | old <;> rcases List.mem_cons.mp hy with rfl | old'
    · rfl
    · exact (new y old' same).elim
    · exact (new x old (Std.OrientedCmp.eq_comm.mp same)).elim
    · exact OrdSet.eq_of_compare_eq old old' same
  have among : (a :: outer.toList).map rep ⊆ inner.toList := by
    intro y member
    obtain ⟨x, there, rfl⟩ := List.mem_map.mp member
    exact (stands x there).1
  have fewer := (apart.subperm among).length_le
  rwa [List.length_map, List.length_cons] at fewer

end GrowsBy

end Conjunction

namespace Hierarchy

theorem of_separating?_eq_some (separates : separating? subject outer inner = some b) :
    outer.isProperSubset inner = true ∧ (inner.difference outer).toList = [b] ∧
      b.choice.key = subject.key := by
  unfold separating? at separates
  split at separates
  next proper =>
    split at separates
    next other only =>
      split at separates
      next about =>
        obtain rfl := Option.some.inj separates
        exact ⟨proper, only, beq_iff_eq.mp about⟩
      next => cases separates
    next => cases separates
  next => cases separates

/-- The search in one pair of conjunctions finds the literal by which the first one grows. -/
theorem separating?_iff (about : a.choice.key = subject.key) :
    (∃ b, separating? subject outer inner = some b ∧ compare a b = .eq) ↔
      outer.GrowsBy a inner := by
  constructor
  · rintro ⟨b, separates, same⟩
    obtain ⟨proper, only, _⟩ := of_separating?_eq_some separates
    have left {x : Literal} : x ∈ inner.toList ∧ outer.contains x = false ↔ x = b := by
      rw [← Conjunction.mem_difference_iff, only, List.mem_singleton]
    obtain ⟨there, new⟩ := left.mpr rfl
    refine ⟨(Conjunction.contains_congr outer same).trans new, fun x => ?_⟩
    rw [Bool.eq_iff_iff, Conjunction.contains_insert_iff]
    constructor
    · intro inside
      obtain ⟨y, member, same'⟩ := Conjunction.contains_iff.mp inside
      by_cases old : outer.contains y = true
      · exact .inr ((Conjunction.contains_congr outer same').trans old)
      · obtain rfl := left.mp ⟨member, Bool.eq_false_iff.mpr old⟩
        exact .inl (Std.TransCmp.eq_trans same' (Std.OrientedCmp.eq_comm.mp same))
    · rintro (added | old)
      · exact Conjunction.contains_iff.mpr ⟨b, there, Std.TransCmp.eq_trans added same⟩
      · obtain ⟨y, member, same'⟩ := Conjunction.contains_iff.mp old
        obtain ⟨z, inside, same''⟩ :=
          Conjunction.isSubset_iff.mp (Bool.and_eq_true_iff.mp proper).2 y member
        exact Conjunction.contains_iff.mpr ⟨z, inside, Std.TransCmp.eq_trans same' same''⟩
  · intro grows
    obtain ⟨b, only, same⟩ := grows.exists_difference
    have matching : b.choice.same subject = true :=
      beq_iff_eq.mpr ((Literal.compare_eq_iff.mp same).1.symm.trans about)
    have proper : outer.isProperSubset inner = true :=
      Bool.and_eq_true_iff.mpr ⟨decide_eq_true grows.size_lt, grows.isSubset⟩
    refine ⟨b, ?_, same⟩
    rw [separating?, if_pos proper, only]
    exact if_pos matching

/-- Nothing is found if the first conjunction grows by no literal about the choice. -/
theorem separating?_eq_none_iff : separating? subject outer inner = none ↔
    ∀ b, b.choice.key = subject.key → ¬ outer.GrowsBy b inner := by
  constructor
  · intro none b about grows
    obtain ⟨x, separates, _⟩ := (separating?_iff about).mpr grows
    cases none.symm.trans separates
  · intro apart
    cases found : separating? subject outer inner with
    | none => rfl
    | some b =>
      have about := (of_separating?_eq_some found).2.2
      exact (apart b about
        ((separating?_iff about).mp ⟨b, found, Std.ReflCmp.compare_self⟩)).elim

end Hierarchy

instance (outer : Conjunction) (a : Literal) (inner : Conjunction) :
    Decidable (outer.GrowsBy a inner) :=
  decidable_of_iff
    ((Hierarchy.separating? a.choice outer inner).any (compare a · == .eq) = true) (by
      rw [Option.any_eq_true, ← Hierarchy.separating?_iff rfl]
      simp only [beq_iff_eq])

/-! ## Supports that are led to -/

namespace Support

/-- The literal leads from the one support to the other: some conjunction of the one grows by it
to a conjunction of the other. -/
def LeadsBy (s : Support) (a : Literal) (t : Support) : Prop :=
  ∃ outer ∈ s.toList, ∃ inner ∈ t.toList, outer.GrowsBy a inner

/-- The literal leads from the one support to the other in some pair of conjunctions, and no
literal about its choice does so in a pair before. Pairs are in the order of their first
conjunctions, and then of their second ones. -/
def LeadsFirstBy (s : Support) (a : Literal) (t : Support) : Prop :=
  ∃ before outer after, s.toList = before ++ outer :: after ∧
    ∃ before' inner after', t.toList = before' ++ inner :: after' ∧ outer.GrowsBy a inner ∧
      (∀ c ∈ before, ∀ d ∈ t.toList, ∀ b, b.choice.key = a.choice.key → ¬ c.GrowsBy b d) ∧
      ∀ d ∈ before', ∀ b, b.choice.key = a.choice.key → ¬ outer.GrowsBy b d

instance (s : Support) (a : Literal) (t : Support) : Decidable (s.LeadsBy a t) :=
  inferInstanceAs (Decidable (∃ outer ∈ s.toList, ∃ inner ∈ t.toList, outer.GrowsBy a inner))

theorem LeadsFirstBy.leadsBy (h : s.LeadsFirstBy a t) : s.LeadsBy a t := by
  obtain ⟨before, outer, after, split, before', inner, after', split', grows, _⟩ := h
  exact ⟨outer, split ▸ by simp, inner, split' ▸ by simp, grows⟩

end Support

namespace Hierarchy

theorem activating?_iff (about : a.choice.key = subject.key) :
    (∃ b, activating? subject s t = some b ∧ compare a b = .eq) ↔ s.LeadsFirstBy a t := by
  unfold activating? Support.LeadsFirstBy
  constructor
  · rintro ⟨b, found, same⟩
    obtain ⟨before, outer, after, split, found, none⟩ := List.findSome?_eq_some_iff.mp found
    obtain ⟨before', inner, after', split', found, none'⟩ := List.findSome?_eq_some_iff.mp found
    refine ⟨before, outer, after, split, before', inner, after', split',
      (separating?_iff about).mp ⟨b, found, same⟩, fun c earlier d member => ?_,
      fun d earlier => ?_⟩
    · rw [about]
      exact separating?_eq_none_iff.mp (List.findSome?_eq_none_iff.mp (none c earlier) d member)
    · rw [about]
      exact separating?_eq_none_iff.mp (none' d earlier)
  · rintro ⟨before, outer, after, split, before', inner, after', split', grows, none, none'⟩
    rw [about] at none none'
    obtain ⟨b, found, same⟩ := (separating?_iff about).mpr grows
    refine ⟨b, List.findSome?_eq_some_iff.mpr ⟨before, outer, after, split,
      List.findSome?_eq_some_iff.mpr ⟨before', inner, after', split', found,
        fun d earlier => separating?_eq_none_iff.mpr (none' d earlier)⟩, fun c earlier => ?_⟩, same⟩
    exact List.findSome?_eq_none_iff.mpr fun d member =>
      separating?_eq_none_iff.mpr (none c earlier d member)

end Hierarchy

end PlanNetwork
