/-
# Valid constraints

What a constraint says is checked when it is made. The bounds of a temporal constraint
are valid. A state constraint is about variables that are there, none of them twice, and
says something of each of them; a value that it gives to a variable is one that the
variable can take. The risk of a chance constraint is a probability.

State variables do not change, and none is taken away, so a state constraint that is
valid in a network is valid in those that it turns into.
-/

import PlanNetwork.Network.Creation
import PlanNetwork.Proofs.Attempt
import PlanNetwork.Proofs.Duration
import PlanNetwork.Proofs.Network.Guards

namespace PlanNetwork

open Network

variable {n m : Network}

/-- The variable is there, and can take the value. -/
def Network.Takes (n : Network) (id : VariableId) (value : StateValue) : Prop :=
  ∃ v, n.quantity id = .ok v ∧ v.domain.contains value = true

/-- The condition says something of each variable, in their order. -/
def StateCondition.Suits (n : Network) (scope : List VariableId) : StateCondition → Prop
  | .assignment values => scope.length = values.length ∧
      ∀ entry ∈ scope.zip values, n.Takes entry.1 entry.2
  | .linear coefficients _ _ => scope.length = coefficients.length

/-- A state constraint as it should be. -/
structure StateConstraint.Valid (n : Network) (c : StateConstraint) : Prop where
  /-- It is about no variable twice. -/
  distinct : c.scope.Nodup
  /-- Its variables are there. -/
  there : ∀ id ∈ c.scope, ∃ v, n.quantity id = .ok v
  /-- It says something of each of them. -/
  suits : c.condition.Suits n c.scope

/-- The risk is a probability. -/
def ChanceConstraint.Valid (c : ChanceConstraint) : Prop :=
  Number.zero.le c.risk = true ∧ c.risk.le .one = true

/-- All constraints are as they should be. -/
structure Network.Valid (n : Network) : Prop where
  /-- Temporal constraints have valid bounds. -/
  temporal : ∀ c ∈ n.temporals, c.bounds.Valid
  /-- State constraints are valid. -/
  state : ∀ c ∈ n.states, c.Valid n
  /-- Chance constraints are valid. -/
  chance : ∀ c ∈ n.chances, c.Valid

theorem Network.valid_empty (tolerance : Number) : (Network.empty tolerance).Valid := by
  constructor <;> simp [Network.empty]

/-- It matters only what a constraint says, and which variables there are. -/
theorem StateConstraint.Valid.mono {c c' : StateConstraint} (h : c.Valid n)
    (keeps : ∀ {id v}, n.quantity id = .ok v → m.quantity id = .ok v)
    (scope : c'.scope = c.scope) (condition : c'.condition = c.condition) : c'.Valid m := by
  refine ⟨scope ▸ h.distinct, fun id member => ?_, ?_⟩
  · obtain ⟨v, found⟩ := h.there id (scope ▸ member)
    exact ⟨v, keeps found⟩
  · have suits := h.suits
    rw [scope, condition]
    cases said : c.condition with
    | assignment values =>
      rw [said] at suits
      refine ⟨suits.1, fun entry member => ?_⟩
      obtain ⟨v, found, takes⟩ := suits.2 entry member
      exact ⟨v, keeps found, takes⟩
    | linear => rwa [said] at suits

/-- The journal does not matter. -/
theorem Network.Valid.withJournal (h : n.Valid) (j : Option Journal) :
    ({ n with journal := j } : Network).Valid :=
  ⟨h.temporal, fun c member => (h.state c member).mono id rfl rfl, h.chance⟩

namespace Edit

/-! ## What is checked -/

theorem there_of_checkScope {passed ids : List VariableId}
    (checked : checkScope n passed ids = .ok ()) : ∀ id ∈ ids, ∃ v, n.quantity id = .ok v := by
  induction ids generalizing passed with
  | nil => nofun
  | cons id rest ih =>
    obtain ⟨v, found, later⟩ := bind_eq_ok_iff.mp checked
    by_cases again : passed.contains id = true
    · rw [if_pos again] at later
      cases later
    · rw [if_neg again] at later
      exact List.forall_mem_cons.mpr ⟨⟨v, found⟩, ih later⟩

theorem distinct_of_checkScope {passed ids : List VariableId}
    (checked : checkScope n passed ids = .ok ()) : ids.Nodup ∧ ∀ id ∈ ids, id ∉ passed := by
  induction ids generalizing passed with
  | nil => exact ⟨List.nodup_nil, nofun⟩
  | cons id rest ih =>
    obtain ⟨_, _, later⟩ := bind_eq_ok_iff.mp checked
    by_cases again : passed.contains id = true
    · rw [if_pos again] at later
      cases later
    · rw [if_neg again] at later
      obtain ⟨nodup, apart⟩ := ih later
      refine ⟨List.nodup_cons.mpr ⟨fun member => ?_, nodup⟩, ?_⟩
      · exact apart id member (List.mem_cons_self ..)
      · refine List.forall_mem_cons.mpr ⟨by simpa using again, fun other member inside => ?_⟩
        exact apart other member (List.mem_cons_of_mem _ inside)

theorem takes_of_checkValues {entries : List (VariableId × StateValue)}
    (checked : checkValues n entries = .ok ()) :
    ∀ entry ∈ entries, n.Takes entry.1 entry.2 := by
  induction entries with
  | nil => exact List.forall_mem_nil _
  | cons entry rest ih =>
    rw [checkValues, bind_eq_ok_iff] at checked
    obtain ⟨v, found, later⟩ := checked
    split at later
    next takes => exact List.forall_mem_cons.mpr ⟨⟨v, found, takes⟩, ih later⟩
    next => cases later

/-- A constraint whose scope has been checked is valid if its condition suits. -/
theorem valid_of_checkScope {c : StateConstraint} (checked : checkScope n [] c.scope = .ok ())
    (suits : c.condition.Suits n c.scope) : c.Valid n :=
  ⟨(distinct_of_checkScope checked).1, there_of_checkScope checked, suits⟩

end Edit

end PlanNetwork
