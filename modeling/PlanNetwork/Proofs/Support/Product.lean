/-
# Several supports at once

What is narrowed to one support after the other is left where all of them hold. In what
order this is done shows in none of the conjunctions that are left, provided that a key
stands for one variable throughout. But repeating a support may show, for its
conjunctions are then put together with each other.
-/

import PlanNetwork.Proofs.Support.Algebra

namespace PlanNetwork

variable {V : Vocabulary} {v : Valuation V} {known : Literal → Prop} {s t : Support}
  {supports others : List Support}

theorem Conjunction.always_merge (c : Conjunction) : Conjunction.always.merge c = c :=
  congrArg Conjunction.mk (OrdSet.ofList_toList _)

namespace Support

/-- What always holds is narrowed to just the support, if each conjunction can be met. -/
theorem always_and (met : ∀ c ∈ s.toList, c.isSatisfiable = true) : always.and s = s := by
  have kept : s.toList.filterMap Conjunction.always.and? = s.toList := by
    refine (List.filterMap_congr fun c member => ?_).trans List.filterMap_some
    rw [Conjunction.and?_eq, Conjunction.always_merge, if_pos (met c member)]
  calc always.and s = ofList (s.toList.filterMap Conjunction.always.and?) := by
        show ofList (List.flatMap _ [Conjunction.always]) = _
        rw [List.flatMap_singleton]
    _ = ofList s.toList := by rw [kept]
    _ = s := congrArg mk s.conjunctions.ofList_toList

/-- What is left of a support that is narrowed to others in turn. -/
def narrowedBy (s : Support) (others : List Support) : Support := others.foldl Support.and s

@[simp] theorem narrowedBy_nil (s : Support) : s.narrowedBy [] = s := rfl

@[simp] theorem narrowedBy_cons (s t : Support) (others : List Support) :
    s.narrowedBy (t :: others) = (s.and t).narrowedBy others := rfl

theorem Within.narrowedBy (hs : s.Within V) (all : ∀ t ∈ others, t.Within V) :
    (s.narrowedBy others).Within V := by
  induction others generalizing s with
  | nil => exact hs
  | cons t rest ih =>
    obtain ⟨first, rest⟩ := List.forall_mem_cons.mp all
    exact ih (hs.and first) rest

/-- It holds where all of them do. -/
theorem holds_narrowedBy (hs : s.Within V) (all : ∀ t ∈ others, t.Within V) :
    (s.narrowedBy others).Holds v ↔ s.Holds v ∧ ∀ t ∈ others, t.Holds v := by
  induction others generalizing s with
  | nil => simp
  | cons t rest ih =>
    obtain ⟨first, rest⟩ := List.forall_mem_cons.mp all
    rw [narrowedBy_cons, ih (hs.and first) rest, holds_and hs first, List.forall_mem_cons, and_assoc]

/-- The order does not matter. -/
theorem narrowedBy_perm (clear : Literal.Unambiguous known) (perm : supports.Perm others)
    (hs : s.Only known) (all : ∀ t ∈ supports, t.Only known) :
    s.narrowedBy supports = s.narrowedBy others := by
  induction perm generalizing s with
  | nil => rfl
  | cons t _ ih =>
    obtain ⟨first, rest⟩ := List.forall_mem_cons.mp all
    exact ih (hs.and first) rest
  | swap t u rest =>
    obtain ⟨hu, ht, _⟩ := List.forall_mem_cons.mp all |>.imp_right List.forall_mem_cons.mp
    have swapped : (s.and u).and t = (s.and t).and u := by
      rw [s.and_assoc clear hs hu ht, u.and_comm clear hu ht, ← s.and_assoc clear hs ht hu]
    rw [narrowedBy_cons, narrowedBy_cons, narrowedBy_cons, narrowedBy_cons, swapped]
  | trans first _ ih ih' =>
    exact (ih hs all).trans (ih' hs fun t member => all t (first.mem_iff.mpr member))

end Support

end PlanNetwork
