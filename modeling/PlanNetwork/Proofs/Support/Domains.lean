/-
# Domains that agree

A conjunction carries the domains of the choices that it speaks of, one with every
literal. It is well-formed if these domains belong to a vocabulary: a choice has
values, none of them twice, it has the same values wherever it is spoken of, and a
value is assigned only if it is one of them. A value that is ruled out may be any.

Satisfiability of such a conjunction is decided exactly. No vocabulary has to be
given for that, since what the conjunction carries makes up one, and the choices
that it does not speak of do not matter.

The search for conflicts by itself needs no domains. It stops at the first literal
about another choice and still finds a conflict wherever there is one. It does not
find that all values of a choice have been ruled out, for no two of these literals
conflict; this is what they are counted for.
-/

import PlanNetwork.Proofs.Support.Satisfiability

namespace PlanNetwork

/-- Choices with values, none of them twice, have a vocabulary if those with one key have
the same values. -/
theorem exists_vocabulary (spoken : ChoiceVariable → Prop)
    (some : ∀ x, spoken x → x.domain ≠ [])
    (distinct : ∀ x, spoken x → x.domain.Nodup)
    (agree : ∀ x y, spoken x → spoken y → x.key = y.key → x.domain = y.domain) :
    ∃ V : Vocabulary, ∀ x, spoken x → x.domain = V.domain x.key := by
  -- a key that nothing is said about may stand for any choice
  have domains : ∀ key, ∃ domain : List String, domain ≠ [] ∧ domain.Nodup ∧
      ∀ x, spoken x → x.key = key → x.domain = domain := by
    intro key
    by_cases known : ∃ x, spoken x ∧ x.key = key
    · obtain ⟨x, here, rfl⟩ := known
      exact ⟨x.domain, some x here, distinct x here, fun y there => agree y x there here⟩
    · exact ⟨[""], List.cons_ne_nil _ _, by simp, fun x here same =>
        absurd ⟨x, here, same⟩ known⟩
  choose domain nonempty nodup same using domains
  exact ⟨⟨domain, nonempty, nodup⟩, fun x here => same x.key x here rfl⟩

namespace Conjunction

/-- The domains that go with the literals are those of a vocabulary, and values are
assigned only if they are in them. -/
structure WellFormed (c : Conjunction) : Prop where
  /-- A choice has values. -/
  nonempty : ∀ a ∈ c.toList, a.choice.domain ≠ []
  /-- It has no value twice. -/
  nodup : ∀ a ∈ c.toList, a.choice.domain.Nodup
  /-- It has the same values wherever it is spoken of. -/
  agree : ∀ a ∈ c.toList, ∀ b ∈ c.toList, a.choice.key = b.choice.key →
    a.choice.domain = b.choice.domain
  /-- A value that is assigned is one of them. -/
  assigned : ∀ a ∈ c.toList, a.negated = false → a.value ∈ a.choice.domain

theorem WellFormed.exists_within {c : Conjunction} (h : c.WellFormed) :
    ∃ V : Vocabulary, c.Within V := by
  have vocabulary : ∃ V : Vocabulary, ∀ x,
      (∃ a ∈ c.toList, a.choice = x) → x.domain = V.domain x.key := by
    refine exists_vocabulary _ ?_ ?_ ?_
    · rintro _ ⟨a, member, rfl⟩
      exact h.nonempty a member
    · rintro _ ⟨a, member, rfl⟩
      exact h.nodup a member
    · rintro _ _ ⟨a, member, rfl⟩ ⟨b, member', rfl⟩
      exact h.agree a member b member'
  obtain ⟨V, domain⟩ := vocabulary
  refine ⟨V, fun a member => ⟨domain _ ⟨a, member, rfl⟩, fun positive => ?_⟩⟩
  rw [← domain _ ⟨a, member, rfl⟩]
  exact h.assigned a member positive

theorem isSatisfiable_iff {V : Vocabulary} {c : Conjunction} (within : c.Within V) :
    c.isSatisfiable = true ↔ ∃ v : Valuation V, c.Holds v :=
  ⟨exists_holds_of_isSatisfiable within, fun ⟨_, holds⟩ => isSatisfiable_of_holds within holds⟩

theorem hasConflict_iff {c : Conjunction} : hasConflict c.toList = true ↔
    ∃ a ∈ c.toList, ∃ b ∈ c.toList, a.conflictsWith b = true := by
  constructor
  · intro found
    by_contra none
    have apart : hasConflict c.toList = false := by
      refine (hasConflict_eq_false_iff c.literals.increasing).mpr ?_
      refine List.pairwise_of_forall_mem_list fun a ha b hb => ?_
      rw [Bool.eq_false_iff]
      exact fun conflict => none ⟨a, ha, b, hb, conflict⟩
    rw [apart] at found
    cases found
  · rintro ⟨a, ha, b, hb, conflict⟩
    by_contra none
    rw [not_conflictsWith_of_mem (Bool.eq_false_iff.mpr none) ha hb] at conflict
    cases conflict

/-- Whether a conjunction can be met is decided exactly. The domains of a well-formed
conjunction belong to a vocabulary, and for each such vocabulary, whatever it says of other
choices, the conjunction passes the check if and only if some valuation makes every literal
true. The search that compares a literal only with those directly behind it finds a
conflict if and only if any two literals of the conjunction conflict. -/
theorem satisfiability_is_decided {c : Conjunction} (h : c.WellFormed) :
    (∃ V : Vocabulary, c.Within V) ∧
    (∀ V : Vocabulary, c.Within V →
      (c.isSatisfiable = true ↔ ∃ v : Valuation V, c.Holds v)) ∧
    (hasConflict c.toList = true ↔
      ∃ a ∈ c.toList, ∃ b ∈ c.toList, a.conflictsWith b = true) :=
  ⟨h.exists_within, fun _ within => isSatisfiable_iff within, hasConflict_iff⟩

/-- A value that the choice does not have is ruled out along with one that it has. With a
value for another choice this can be met. With the remaining value ruled out it cannot,
although no two literals conflict. -/
theorem satisfiability_is_decided_by_exclusion :
    let x : ChoiceVariable := ⟨1, "x", .controllable, ["A", "B"]⟩
    let y : ChoiceVariable := ⟨2, "y", .controllable, ["A", "B"]⟩
    let c : Conjunction := .ofList [.isNot x "A", .isNot x "C", .is y "B"]
    let d : Conjunction := .ofList [.isNot x "A", .isNot x "C", .isNot x "B"]
    c.WellFormed ∧ (∃ v : Valuation .binary, c.Holds v) ∧ d.WellFormed ∧
      (¬ ∃ v : Valuation .binary, d.Holds v) ∧
      ¬ ∃ a ∈ d.toList, ∃ b ∈ d.toList, a.conflictsWith b = true := by
  intro x y c d
  have left : c.WellFormed :=
    ⟨by decide +kernel, by decide +kernel, by decide +kernel, by decide +kernel⟩
  have right : d.WellFormed :=
    ⟨by decide +kernel, by decide +kernel, by decide +kernel, by decide +kernel⟩
  obtain ⟨_, can, _⟩ := satisfiability_is_decided left
  obtain ⟨_, cannot, search⟩ := satisfiability_is_decided right
  have withinLeft : c.Within .binary := by
    unfold Conjunction.Within Literal.Within
    decide +kernel
  have withinRight : d.Within .binary := by
    unfold Conjunction.Within Literal.Within
    decide +kernel
  refine ⟨left, (can .binary withinLeft).mp (by decide +kernel), right, ?_, ?_⟩
  · rw [← cannot .binary withinRight]
    decide +kernel
  · rw [← search]
    decide +kernel

end Conjunction

end PlanNetwork
