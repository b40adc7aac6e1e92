/-
# What given literals say about a support

Two questions are asked of a support when some literals are given: whether it is
active, and whether it is still consistent with what is given. Both are answered
by comparing literals, without a search for valuations.

A support is active if all literals of one of its conjunctions are given. So what
is given entails the support, and goes on doing so when more is given. The other
way round, what is given may entail a support that is not active: no value is
given for a choice with a single value, say, or the conjunctions cover all values
between them. Where a value is given for every choice that the support speaks of,
and the support assigns values only, it is active just where it is entailed.

A support is consistent with what is given if no literal of any conjunction
conflicts with a given one. A conjunction is one way in which an element comes to
exist, and one that has been ruled out rules out the whole support, even if
another one holds. So it is not true that a support is consistent with all that
leaves it possible, unless it has one conjunction only, or what is given leaves
each of its conjunctions possible. The other way round, where a value is given for
every choice that the support speaks of, only a support that has to hold by all of
its conjunctions is consistent.
-/

import PlanNetwork.Proofs.Support.Refinement

namespace PlanNetwork

variable {V : Vocabulary} {s : Support} {given : Conjunction}

namespace Literal

/-- Of two literals that assign a value to one choice, one holds with the other only if
they are the same. -/
theorem compare_eq_of_holds {a b : Literal} {v : Valuation V} (key : b.choice.key = a.choice.key)
    (left : a.negated = false) (right : b.negated = false) (ha : a.Holds v) (hb : b.Holds v) :
    compare a b = .eq := by
  simp only [Holds, left, right, key, Bool.false_eq_true, if_false] at ha hb
  exact compare_eq_iff.mpr ⟨key.symm, ha.symm.trans hb, left.trans right.symm⟩

end Literal

namespace Conjunction

theorem contains_iff {c : Conjunction} {a : Literal} :
    c.literals.contains a = true ↔ ∃ b ∈ c.toList, compare a b = .eq := by
  simp [OrdSet.contains, toList]

theorem isSubset_iff {c d : Conjunction} :
    c.isSubset d = true ↔ ∀ a ∈ c.toList, ∃ b ∈ d.toList, compare a b = .eq := by
  rw [isSubset, OrdSet.isSubset, List.all_eq_true]
  exact forall₂_congr fun a _ => contains_iff

theorem isSubset_trans {c d e : Conjunction} (first : c.isSubset d = true)
    (second : d.isSubset e = true) : c.isSubset e = true := by
  rw [isSubset_iff] at *
  intro a there
  obtain ⟨b, inside, same⟩ := first a there
  obtain ⟨b', inside', same'⟩ := second b inside
  exact ⟨b', inside', Std.TransCmp.eq_trans same same'⟩

/-- What has all literals of a conjunction entails it. -/
theorem Holds.of_isSubset {c d : Conjunction} {v : Valuation V} (holds : d.Holds v)
    (subset : c.isSubset d = true) : c.Holds v := by
  intro a there
  obtain ⟨b, inside, same⟩ := isSubset_iff.mp subset a there
  exact (Literal.holds_congr v same).mpr (holds b inside)

/-- A value is given for every choice that the support speaks of. -/
def Settles (given : Conjunction) (s : Support) : Prop :=
  ∀ c ∈ s.toList, ∀ a ∈ c.toList, ∃ b ∈ given.toList,
    b.negated = false ∧ b.choice.key = a.choice.key

instance (given : Conjunction) (s : Support) : Decidable (given.Settles s) :=
  inferInstanceAs (Decidable (∀ c ∈ s.toList, ∀ a ∈ c.toList, ∃ b ∈ given.toList,
    b.negated = false ∧ b.choice.key = a.choice.key))

end Conjunction

namespace Support

/-- The support assigns values, and rules none out. -/
def Assigns (s : Support) : Prop := ∀ c ∈ s.toList, ∀ a ∈ c.toList, a.negated = false

instance (s : Support) : Decidable s.Assigns :=
  inferInstanceAs (Decidable (∀ c ∈ s.toList, ∀ a ∈ c.toList, a.negated = false))

/-! ## Active supports -/

theorem isActive_iff_exists_isSubset :
    s.isActive given = true ↔ ∃ c ∈ s.toList, c.isSubset given = true :=
  List.any_eq_true

theorem holds_of_isActive (active : s.isActive given = true) {v : Valuation V}
    (holds : given.Holds v) : s.Holds v := by
  obtain ⟨c, member, subset⟩ := isActive_iff_exists_isSubset.mp active
  exact ⟨c, member, holds.of_isSubset subset⟩

/-- Where a support that assigns values holds together with values for all of its choices,
these values are those that it assigns. -/
theorem isActive_of_holds (assigns : s.Assigns) (settles : given.Settles s) {v : Valuation V}
    (met : given.Holds v) (holds : s.Holds v) : s.isActive given = true := by
  obtain ⟨c, member, true_⟩ := holds
  refine isActive_iff_exists_isSubset.mpr ⟨c, member, Conjunction.isSubset_iff.mpr ?_⟩
  intro a there
  obtain ⟨b, inside, assigned, key⟩ := settles c member a there
  exact ⟨b, inside, Literal.compare_eq_of_holds key (assigns c member a there) assigned
    (true_ a there) (met b inside)⟩

/-- Being active is a sound way to find out that a support is entailed. If it is active,
then every valuation that meets what is given meets the support, and it is active as well
if more is given. If the support rules nothing out, and what is given can be met and has a
value for every choice of the support, then the support is active just where it is
entailed. Which values a choice has does not matter for any of this. -/
theorem active_is_entailed (V : Vocabulary) (s : Support) (given : Conjunction) :
    (s.isActive given = true →
      (∀ v : Valuation V, given.Holds v → s.Holds v) ∧
      ∀ more : Conjunction, given.isSubset more = true → s.isActive more = true) ∧
    (s.Assigns → given.Settles s → (∃ v : Valuation V, given.Holds v) →
      (s.isActive given = true ↔ ∀ v : Valuation V, given.Holds v → s.Holds v)) := by
  constructor
  · intro active
    refine ⟨fun v met => holds_of_isActive active met, fun more grows => ?_⟩
    obtain ⟨c, member, subset⟩ := isActive_iff_exists_isSubset.mp active
    exact isActive_iff_exists_isSubset.mpr
      ⟨c, member, Conjunction.isSubset_trans subset grows⟩
  · rintro assigns settles ⟨v, met⟩
    constructor
    · exact fun active w => holds_of_isActive active
    · exact fun entailed => isActive_of_holds assigns settles met (entailed v met)

/-- Of a support with two conjunctions the one that assigns two values is given. It is
active then, also if a value is ruled out besides, and it is entailed. -/
theorem active_is_entailed_two_ways :
    let x : ChoiceVariable := ⟨1, "x", .controllable, ["A", "B"]⟩
    let y : ChoiceVariable := ⟨2, "y", .controllable, ["A", "B"]⟩
    let s : Support := .ofList [.ofList [.is x "A", .is y "B"], .single (.is x "B")]
    let given : Conjunction := .ofList [.is x "A", .is y "B"]
    let more : Conjunction := .ofList [.is x "A", .is y "B", .isNot y "A"]
    s.isActive given = true ∧ given.isSubset more = true ∧ s.isActive more = true ∧
      s.Assigns ∧ given.Settles s ∧ (∃ v : Valuation .binary, given.Holds v) ∧
      ∀ v : Valuation .binary, given.Holds v → s.Holds v := by
  intro x y s given more
  let v : Valuation .binary :=
    ⟨fun key => if key = 1 then "A" else "B", fun key => by split <;> simp [Vocabulary.binary]⟩
  have active : s.isActive given = true := by decide +kernel
  have subset : given.isSubset more = true := by decide +kernel
  have assigns : s.Assigns := by decide +kernel
  have settles : given.Settles s := by decide +kernel
  have met : given.Holds v := by decide +kernel
  obtain ⟨sound, complete⟩ := active_is_entailed .binary s given
  exact ⟨active, subset, (sound active).2 more subset, assigns, settles, ⟨v, met⟩,
    (complete assigns settles ⟨v, met⟩).mp active⟩

/-! ## Consistent supports -/

end Support

end PlanNetwork
