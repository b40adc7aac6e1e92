/-
# What supports speak of

Say which literals are known. A support that speaks of known literals only goes on to do
so when it is narrowed by another such support or when a known literal is added to it,
for no literal comes from anywhere else.

Whether a support holds depends on the choices that it speaks of and on no others. Another
choice may be given any of its values.
-/

import PlanNetwork.Proofs.Support.Intersection

namespace PlanNetwork

variable {known : Literal → Prop} {s t u : Support}

namespace Support

/-- Every literal is known. -/
def Only (known : Literal → Prop) (s : Support) : Prop := ∀ c ∈ s.toList, ∀ a ∈ c.toList, known a

instance [DecidablePred known] (s : Support) : Decidable (s.Only known) :=
  inferInstanceAs (Decidable (∀ c ∈ s.toList, ∀ a ∈ c.toList, known a))

theorem Only.mono {more : Literal → Prop} (only : s.Only known) (implies : ∀ a, known a → more a) :
    s.Only more :=
  fun c member a there => implies a (only c member a there)

theorem only_always : always.Only known := by
  intro c member a there
  obtain rfl := List.mem_singleton.mp member
  exact absurd there List.not_mem_nil

theorem only_ofConjunction {c : Conjunction} (only : ∀ a ∈ c.toList, known a) :
    (ofConjunction c).Only known := by
  intro d member
  obtain rfl := List.mem_singleton.mp member
  exact only

theorem only_ofLiteral {a : Literal} (h : known a) : (ofLiteral a).Only known := by
  refine only_ofConjunction fun b member => ?_
  obtain rfl := List.mem_singleton.mp member
  exact h

theorem Only.and (left : s.Only known) (right : t.Only known) : (s.and t).Only known := by
  intro m member a there
  obtain ⟨c, inside, d, within, rfl, _⟩ := exists_merge_of_mem_and member
  rcases OrdSet.mem_of_mem_union there with there | there
  · exact left c inside a there
  · exact right d within a there

theorem Only.tryAnd (left : s.Only known) (right : t.Only known) (narrowed : s.tryAnd t = .ok u) :
    u.Only known := by
  obtain ⟨_, rfl⟩ := tryAnd_eq_ok_iff.mp narrowed
  exact left.and right

theorem Only.or (left : s.Only known) (right : t.Only known) : (s.or t).Only known :=
  fun c member => (OrdSet.mem_of_mem_union member).elim (left c) (right c)

theorem Only.withLiteral {a : Literal} (only : s.Only known) (h : known a) :
    (s.withLiteral a).Only known := by
  intro d member b there
  obtain ⟨c, inside, rfl⟩ := List.mem_map.mp (OrdSet.mem_of_mem_ofList member)
  rcases OrdSet.mem_of_mem_insert there with rfl | there
  · exact h
  · exact only c inside b there

end Support

/-! ## Choices that are not spoken of -/

variable {V : Vocabulary} {v w : Valuation V} {key : Nat} {value : String}

namespace Valuation

/-- The choice has the value, and all others have what they had. -/
def set (v : Valuation V) (key : Nat) (value : String) (mem : value ∈ V.domain key) :
    Valuation V where
  value other := if other = key then value else v.value other
  mem other := by
    split
    next same => exact same ▸ mem
    next => exact v.mem other

@[simp] theorem value_set_self {mem : value ∈ V.domain key} :
    (v.set key value mem).value key = value :=
  if_pos rfl

theorem value_set_of_ne {mem : value ∈ V.domain key} {other : Nat} (differ : other ≠ key) :
    (v.set key value mem).value other = v.value other :=
  if_neg differ

end Valuation

namespace Support

/-- Valuations that agree where it matters cannot be told apart. -/
theorem Only.holds_iff (agree : s.Only fun a => v.value a.choice.key = w.value a.choice.key) :
    s.Holds v ↔ s.Holds w := by
  refine exists_congr fun c => and_congr_right fun member => forall₂_congr fun a there => ?_
  rw [Literal.Holds, Literal.Holds, agree c member a there]

/-- A choice that is not spoken of can have any of its values. -/
theorem Only.holds_set_iff {mem : value ∈ V.domain key} (silent : s.Only (·.choice.key ≠ key)) :
    s.Holds (v.set key value mem) ↔ s.Holds v :=
  (silent.mono fun _ => Valuation.value_set_of_ne).holds_iff

end Support

end PlanNetwork
