/-
# Choices that are accepted

A choice may have any values as long as there is one and none comes twice. If it
says something about utilities there has to be one for each value. Unless it says
something about probabilities, nothing else about it is checked but that the kind is
there.
-/

import Mathlib.Data.List.Nodup
import PlanNetwork.Choice.Basic

namespace PlanNetwork

namespace ChoiceSpec

theorem repeatedAfter?_eq_none {passed domain : List String} (distinct : domain.Nodup)
    (apart : ∀ value ∈ domain, value ∉ passed) : repeatedAfter? passed domain = none := by
  induction domain generalizing passed with
  | nil => rfl
  | cons value rest ih =>
    obtain ⟨new, distinct⟩ := List.nodup_cons.mp distinct
    have first : passed.contains value = false := by
      simpa using apart value (List.mem_cons_self ..)
    rw [repeatedAfter?, first]
    refine ih distinct fun later member known => ?_
    rcases List.mem_cons.mp known with rfl | known
    · exact new member
    · exact apart later (List.mem_cons_of_mem _ member) known

theorem nodup_of_repeatedAfter? {passed domain : List String}
    (none : repeatedAfter? passed domain = none) :
    domain.Nodup ∧ ∀ value ∈ domain, value ∉ passed := by
  induction domain generalizing passed with
  | nil => exact ⟨.nil, nofun⟩
  | cons value rest ih =>
    rw [repeatedAfter?] at none
    split at none
    · cases none
    next new =>
      obtain ⟨distinct, apart⟩ := ih none
      refine ⟨List.nodup_cons.mpr ⟨fun again => ?_, distinct⟩, fun other member => ?_⟩
      · exact apart value again (List.mem_cons_self ..)
      · rcases List.mem_cons.mp member with rfl | member
        · simpa using new
        · exact fun known => apart other member (List.mem_cons_of_mem _ known)

/-- A choice that is accepted has values, none of them twice, and somebody who
selects one. -/
theorem of_validate {spec : ChoiceSpec} {tolerance : Number} {kind : Controllability}
    (accepted : spec.validate tolerance = .ok kind) :
    spec.kind = some kind ∧ spec.domain ≠ [] ∧ spec.domain.Nodup := by
  unfold validate at accepted
  cases selected : spec.kind <;> cases empty : spec.domain.isEmpty <;>
    cases repeated : repeatedAfter? [] spec.domain <;>
    simp only [selected, empty, repeated] at accepted <;> try cases accepted
  -- what is left has a kind and passes the checks on the domain
  next other =>
    have same : other = kind := by
      repeat' split at accepted
      all_goals cases accepted
      all_goals rfl
    exact ⟨congrArg some same, by simpa using empty, (nodup_of_repeatedAfter? repeated).1⟩

/-- The specification offers some values, none of them twice, and says nothing
of utilities or probabilities. -/
structure Plain (spec : ChoiceSpec) : Prop where
  /-- There is something to choose. -/
  nonempty : spec.domain ≠ []
  /-- The values differ. -/
  distinct : spec.domain.Nodup
  /-- No utilities. -/
  utilities : spec.utilities = none
  /-- No probabilities. -/
  probabilities : spec.probabilities = none

/-- A choice is accepted if its values differ and it has as many utilities as values, or
none, and no probabilities. -/
theorem validate_eq_ok {spec : ChoiceSpec} {kind : Controllability}
    (selected : spec.kind = some kind) (nonempty : spec.domain ≠ [])
    (distinct : spec.domain.Nodup)
    (utilities : ∀ entries, spec.utilities = some entries → spec.fitsDomain entries = true)
    (probabilities : spec.probabilities = none) (tolerance : Number) :
    spec.validate tolerance = .ok kind := by
  have some : spec.domain.isEmpty = false := by simpa using nonempty
  have once : repeatedAfter? [] spec.domain = none := repeatedAfter?_eq_none distinct nofun
  unfold ChoiceSpec.validate
  rw [selected, some, once, probabilities]
  cases given : spec.utilities with
  | none => rfl
  | some entries =>
    simp only [utilities entries given]
    rfl

/-- A plain choice is accepted by whoever selects the value. -/
theorem Plain.validate {spec : ChoiceSpec} (plain : spec.Plain) {kind : Controllability}
    (selected : spec.kind = some kind) (tolerance : Number) :
    spec.validate tolerance = .ok kind := by
  refine validate_eq_ok selected plain.nonempty plain.distinct (fun entries given => ?_)
    plain.probabilities tolerance
  rw [plain.utilities] at given
  cases given

/-- A plain choice stays so whoever selects the value. -/
theorem Plain.withKind {spec : ChoiceSpec} (plain : spec.Plain) (kind : Option Controllability) :
    ChoiceSpec.Plain { spec with kind } :=
  ⟨plain.nonempty, plain.distinct, plain.utilities, plain.probabilities⟩

end ChoiceSpec

end PlanNetwork
