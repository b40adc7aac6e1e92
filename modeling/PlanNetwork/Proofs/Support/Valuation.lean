/-
# Valuations of choices

A valuation gives every choice one of its values. Choices are told apart by
their keys, so the values that are open to a choice belong to its key: this is
a vocabulary, and a literal is within it if it speaks of a choice with the
right domain and assigns only values of the domain. Ruling out a value that was
never in the domain is within the vocabulary too.

Truth does not see more of a literal than comparing does. That is why a
conjunction or a support may replace a member by one that compares as equal.
-/

import PlanNetwork.Proofs.OrdSet
import PlanNetwork.Support.Basic

namespace PlanNetwork

/-- The values of every choice, by its key. -/
structure Vocabulary where
  /-- The values. -/
  domain : Nat → List String
  /-- Every choice has some value. -/
  nonempty : ∀ key, domain key ≠ []
  /-- No value is listed twice. -/
  nodup : ∀ key, (domain key).Nodup

/-- A value for every choice, by its key. -/
structure Valuation (V : Vocabulary) where
  /-- The value. -/
  value : Nat → String
  /-- It is one of those that the choice has. -/
  mem : ∀ key, value key ∈ V.domain key

/-- Every choice has two values. -/
def Vocabulary.binary : Vocabulary := ⟨fun _ => ["A", "B"], by simp, fun _ => by decide⟩

/-- Every choice has its first value. -/
def Valuation.first : Valuation .binary := ⟨fun _ => "A", fun _ => by simp [Vocabulary.binary]⟩

/-- Every choice has its second value. -/
def Valuation.second : Valuation .binary := ⟨fun _ => "B", fun _ => by simp [Vocabulary.binary]⟩

variable {V : Vocabulary}

namespace Literal

/-- The variable has its domain, and a value that is assigned is one of it. -/
def Within (V : Vocabulary) (a : Literal) : Prop :=
  a.choice.domain = V.domain a.choice.key ∧
    (a.negated = false → a.value ∈ V.domain a.choice.key)

/-- Whether the choice has the value, or has not if the value is ruled out. -/
def Holds (v : Valuation V) (a : Literal) : Prop :=
  if a.negated then v.value a.choice.key ≠ a.value else v.value a.choice.key = a.value

instance (v : Valuation V) (a : Literal) : Decidable (a.Holds v) :=
  inferInstanceAs (Decidable
    (if a.negated then v.value a.choice.key ≠ a.value else v.value a.choice.key = a.value))

theorem compare_eq_iff {a b : Literal} :
    compare a b = .eq ↔
      a.choice.key = b.choice.key ∧ a.value = b.value ∧ a.negated = b.negated := by
  show compareLex (compareOn choice) (compareLex (compareOn value) (compareOn negated)) a b = _ ↔ _
  rw [compareLex_eq_eq, compareLex_eq_eq]
  show compare a.choice.key b.choice.key = .eq ∧ compare a.value b.value = .eq ∧
    compare a.negated b.negated = .eq ↔ _
  simp only [Std.LawfulEqOrd.compare_eq_iff_eq]

theorem holds_congr {a b : Literal} (v : Valuation V) (same : compare a b = .eq) :
    a.Holds v ↔ b.Holds v := by
  obtain ⟨key, value, negated⟩ := compare_eq_iff.mp same
  simp only [Holds, key, value, negated]

theorem conflictsWith_iff {a b : Literal} :
    a.conflictsWith b = true ↔ a.choice.key = b.choice.key ∧
      (a.negated = false ∧ b.negated = false ∧ a.value ≠ b.value ∨
        a.negated ≠ b.negated ∧ a.value = b.value) := by
  obtain ⟨x, value, negated⟩ := a
  obtain ⟨y, value', negated'⟩ := b
  cases negated <;> cases negated' <;> simp [conflictsWith, ChoiceVariable.same]

/-- Literals that conflict are not true together. -/
theorem not_holds_of_conflictsWith {a b : Literal} {v : Valuation V}
    (conflict : a.conflictsWith b = true) (ha : a.Holds v) : ¬ b.Holds v := by
  obtain ⟨key, ⟨aPos, bPos, differ⟩ | ⟨sign, value⟩⟩ := conflictsWith_iff.mp conflict
  · intro hb
    simp only [Holds, aPos, bPos, key, Bool.false_eq_true, if_false] at ha hb
    exact differ (ha.symm.trans hb)
  · intro hb
    cases aSign : a.negated <;> cases bSign : b.negated <;>
      simp_all [Holds]

end Literal

namespace Conjunction

/-- All literals are within the vocabulary. -/
def Within (V : Vocabulary) (c : Conjunction) : Prop := ∀ a ∈ c.toList, a.Within V

/-- All literals are true. -/
def Holds (v : Valuation V) (c : Conjunction) : Prop := ∀ a ∈ c.toList, a.Holds v

instance (v : Valuation V) (c : Conjunction) : Decidable (c.Holds v) :=
  inferInstanceAs (Decidable (∀ a ∈ c.toList, a.Holds v))

theorem holds_of_compare_eq {c d : Conjunction} {v : Valuation V} (same : compare c d = .eq)
    (h : d.Holds v) : c.Holds v := by
  intro a ha
  obtain ⟨b, hb, equal⟩ := OrdSet.exists_mem_of_compare_eq same a ha
  exact (Literal.holds_congr v equal).mpr (h b hb)

theorem holds_congr {c d : Conjunction} (v : Valuation V) (same : compare c d = .eq) :
    c.Holds v ↔ d.Holds v :=
  ⟨holds_of_compare_eq (Std.OrientedCmp.eq_comm.mp same), holds_of_compare_eq same⟩

/-- The literals of two conjunctions together, whether they can be met or not. -/
def merge (c d : Conjunction) : Conjunction := ⟨c.literals.union d.literals⟩

theorem and?_eq {c d : Conjunction} :
    c.and? d = if (c.merge d).isSatisfiable then some (c.merge d) else none := rfl

theorem holds_merge {c d : Conjunction} {v : Valuation V} :
    (c.merge d).Holds v ↔ c.Holds v ∧ d.Holds v := by
  constructor
  · intro h
    refine ⟨fun a ha => h a (OrdSet.mem_union_left ha), fun a ha => ?_⟩
    obtain ⟨b, hb, equal⟩ := OrdSet.exists_mem_union_right (s := c.literals) ha
    exact (Literal.holds_congr v equal).mpr (h b hb)
  · rintro ⟨hc, hd⟩ a ha
    rcases OrdSet.mem_of_mem_union ha with ha | ha
    · exact hc a ha
    · exact hd a ha

theorem Within.merge {c d : Conjunction} (hc : c.Within V) (hd : d.Within V) :
    (c.merge d).Within V := by
  intro a ha
  rcases OrdSet.mem_of_mem_union ha with ha | ha
  · exact hc a ha
  · exact hd a ha

end Conjunction

namespace Support

/-- All conjunctions are within the vocabulary. -/
def Within (V : Vocabulary) (s : Support) : Prop := ∀ c ∈ s.toList, c.Within V

/-- Some conjunction is true. -/
def Holds (v : Valuation V) (s : Support) : Prop := ∃ c ∈ s.toList, c.Holds v

instance (v : Valuation V) (s : Support) : Decidable (s.Holds v) :=
  inferInstanceAs (Decidable (∃ c ∈ s.toList, c.Holds v))

theorem holds_always (v : Valuation V) : always.Holds v :=
  ⟨.always, List.mem_singleton_self _, fun _ member => absurd member List.not_mem_nil⟩

theorem holds_of_compare_eq {s u : Support} {v : Valuation V} (same : compare s u = .eq)
    (h : s.Holds v) : u.Holds v := by
  obtain ⟨c, member, holds⟩ := h
  obtain ⟨d, other, equal⟩ := OrdSet.exists_mem_of_compare_eq same c member
  exact ⟨d, other, (Conjunction.holds_congr v equal).mp holds⟩

/-- Supports that compare as equal hold together. -/
theorem holds_congr {s u : Support} (v : Valuation V) (same : s.same u = true) :
    s.Holds v ↔ u.Holds v := by
  have equal : compare s u = .eq := eq_of_beq same
  exact ⟨holds_of_compare_eq equal, holds_of_compare_eq (Std.OrientedCmp.eq_comm.mp equal)⟩

end Support

end PlanNetwork
