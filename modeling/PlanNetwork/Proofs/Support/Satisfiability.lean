/-
# When a conjunction can be met

The check of a conjunction looks for two literals that conflict and for choices
that have no value left. Over a vocabulary it is exact: it passes if and only if
some valuation makes every literal true.

The search for conflicts compares a literal only with those directly behind it
that speak of the same choice. The order of the literals makes this enough,
since literals of one choice are never separated by those of another.
-/

import Mathlib.Data.List.Perm.Subperm
import PlanNetwork.Proofs.Support.Valuation

namespace PlanNetwork

variable {V : Vocabulary}

namespace Conjunction

/-! ## Conflicts -/

theorem key_le_of_compare_lt {a b : Literal} (h : compare a b = .lt) :
    a.choice.key ≤ b.choice.key := by
  by_contra greater
  have : compare a.choice.key b.choice.key = .gt := by
    rw [Nat.compare_eq_gt]
    omega
  have gt : compare a b = .gt := by
    show (compare a.choice.key b.choice.key).then _ = .gt
    rw [this]
    rfl
  rw [h] at gt
  cases gt

/-- In an increasing list nothing behind the run of literals on one choice
speaks of this choice again. -/
theorem mem_takeWhile_same {a b : Literal} {l : List Literal}
    (above : ∀ x ∈ l, a.choice.key ≤ x.choice.key)
    (ordered : l.Pairwise fun x y => compare x y = .lt) (hb : b ∈ l)
    (same : b.choice.key = a.choice.key) : b ∈ l.takeWhile (·.choice.same a.choice) := by
  induction l with
  | nil => cases hb
  | cons c rest ih =>
    obtain ⟨below, tail⟩ := List.pairwise_cons.mp ordered
    have head : c.choice.key = a.choice.key := by
      rcases List.mem_cons.mp hb with rfl | later
      · exact same
      · have := key_le_of_compare_lt (below b later)
        have := above c (List.mem_cons_self ..)
        omega
    rw [List.takeWhile_cons_of_pos (by simp [ChoiceVariable.same, head])]
    rcases List.mem_cons.mp hb with rfl | later
    · exact List.mem_cons_self ..
    · exact List.mem_cons_of_mem _ (ih (fun x hx => above x (List.mem_cons_of_mem _ hx)) tail later)

/-- The search finds a conflict whenever any two literals conflict. -/
theorem hasConflict_eq_false_iff {l : List Literal}
    (ordered : l.Pairwise fun x y => compare x y = .lt) :
    hasConflict l = false ↔ l.Pairwise fun x y => x.conflictsWith y = false := by
  induction l with
  | nil => simp [hasConflict]
  | cons a rest ih =>
    obtain ⟨below, tail⟩ := List.pairwise_cons.mp ordered
    rw [hasConflict, Bool.or_eq_false_iff, ih tail, List.pairwise_cons]
    refine and_congr_left fun _ => ?_
    rw [List.any_eq_false]
    constructor
    · intro run b hb
      by_cases same : b.choice.key = a.choice.key
      · have ordered := fun x hx => key_le_of_compare_lt (below x hx)
        simpa using run b (mem_takeWhile_same ordered tail hb same)
      · by_contra conflict
        have key := (Literal.conflictsWith_iff.mp (by simpa using conflict)).1
        exact same key.symm
    · intro none b hb
      simp [none b (List.takeWhile_subset _ hb)]

theorem not_conflictsWith_of_mem {c : Conjunction} (h : hasConflict c.toList = false)
    {a b : Literal} (ha : a ∈ c.toList) (hb : b ∈ c.toList) : a.conflictsWith b = false := by
  have apart := (hasConflict_eq_false_iff c.literals.increasing).mp h
  have flipped : c.toList.Pairwise (flip fun x y => x.conflictsWith y = false) := by
    refine apart.imp fun {x y} none => ?_
    by_contra conflict
    have := Literal.conflictsWith_iff.mp (by simpa [flip] using conflict)
    have back : x.conflictsWith y = true := Literal.conflictsWith_iff.mpr (by grind)
    rw [none] at back
    cases back
  refine apart.forall_of_forall_of_flip (fun x _ => ?_) flipped ha hb
  by_contra conflict
  have := Literal.conflictsWith_iff.mp (by simpa using conflict)
  grind

/-! ## Exclusions -/

theorem mem_excluded {c : Conjunction} {x : ChoiceVariable} {value : String} :
    value ∈ (c.excluded x).toList ↔ ∃ a ∈ c.toList, a.negated = true ∧
      a.choice.key = x.key ∧ a.value ∈ a.choice.domain ∧ a.value = value := by
  have inDomain (a : Literal) : (a.choice.indexOf? a.value).isSome ↔ a.value ∈ a.choice.domain := by
    simp [ChoiceVariable.indexOf?, List.findIdx?_isSome]
  constructor
  · intro h
    obtain ⟨a, ha, rfl⟩ := List.mem_map.mp (OrdSet.mem_of_mem_ofList h)
    obtain ⟨member, test⟩ := List.mem_filter.mp ha
    simp only [Bool.and_eq_true, ChoiceVariable.same, beq_iff_eq, inDomain] at test
    exact ⟨a, member, test.1.1, test.1.2, test.2, rfl⟩
  · rintro ⟨a, member, negated, key, domain, rfl⟩
    have test : a ∈ c.toList.filter fun a =>
        a.negated && a.choice.same x && (a.choice.indexOf? a.value).isSome := by
      simp only [List.mem_filter, Bool.and_eq_true, ChoiceVariable.same, beq_iff_eq, inDomain]
      exact ⟨member, ⟨negated, key⟩, domain⟩
    obtain ⟨y, hy, same⟩ := OrdSet.exists_mem_ofList (List.mem_map_of_mem (f := Literal.value) test)
    rw [Std.LawfulEqOrd.compare_eq_iff_eq] at same
    exact same ▸ hy

theorem leavesValues_iff {c : Conjunction} :
    c.leavesValues = true ↔ ∀ a ∈ c.toList, a.negated = true →
      (c.excluded a.choice).size = 0 ∨ (c.excluded a.choice).size < a.choice.arity := by
  simp only [leavesValues, List.all_eq_true, List.mem_filter, Bool.or_eq_true, beq_iff_eq,
    decide_eq_true_eq, and_imp]

/-- If the exclusions leave a value to every choice, some value of any choice is
not excluded. -/
theorem exists_not_excluded {c : Conjunction} (hc : c.Within V) (h : c.leavesValues = true)
    (key : Nat) : ∃ value ∈ V.domain key, ∀ a ∈ c.toList, a.negated = true →
      a.choice.key = key → a.value ≠ value := by
  by_contra all
  have covered : ∀ value ∈ V.domain key, ∃ a ∈ c.toList, a.negated = true ∧
      a.choice.key = key ∧ a.value = value := by
    simpa using all
  obtain ⟨first, hfirst⟩ := List.exists_mem_of_ne_nil _ (V.nonempty key)
  obtain ⟨a, ha, negated, hkey, -⟩ := covered first hfirst
  have domain : a.choice.domain = V.domain key := hkey ▸ (hc a ha).1
  have everything : V.domain key ⊆ (c.excluded a.choice).toList := by
    intro value hvalue
    obtain ⟨b, hb, bNegated, bKey, rfl⟩ := covered value hvalue
    have bDomain : b.choice.domain = V.domain key := bKey ▸ (hc b hb).1
    exact mem_excluded.mpr ⟨b, hb, bNegated, bKey.trans hkey.symm, bDomain ▸ hvalue, rfl⟩
  have enough : (V.domain key).length ≤ (c.excluded a.choice).size :=
    ((V.nodup key).subperm everything).length_le
  have positive : 0 < (V.domain key).length := List.length_pos_of_mem hfirst
  rcases leavesValues_iff.mp h a ha negated with none | few
  · omega
  · rw [ChoiceVariable.arity, domain] at few
    omega

/-! ## The check is exact -/

/-- A conjunction that passes the check is met by some valuation. -/
theorem exists_holds_of_isSatisfiable {c : Conjunction} (hc : c.Within V)
    (h : c.isSatisfiable = true) : ∃ v : Valuation V, c.Holds v := by
  obtain ⟨conflicts, leaves⟩ : hasConflict c.toList = false ∧ c.leavesValues = true := by
    simpa [isSatisfiable] using h
  -- an assigned value if there is one, else a value that is not excluded
  have choose : ∀ key, ∃ value ∈ V.domain key, ∀ a ∈ c.toList, a.choice.key = key →
      (a.negated = false → a.value = value) ∧ (a.negated = true → a.value ≠ value) := by
    intro key
    by_cases assigned : ∃ a ∈ c.toList, a.choice.key = key ∧ a.negated = false
    · obtain ⟨a, ha, rfl, positive⟩ := assigned
      refine ⟨a.value, (hc a ha).2 positive, fun b hb sameKey => ?_⟩
      have apart : ¬ a.conflictsWith b = true := by
        simp [not_conflictsWith_of_mem conflicts ha hb]
      rw [Literal.conflictsWith_iff] at apart
      grind
    · obtain ⟨value, member, free⟩ := exists_not_excluded hc leaves key
      refine ⟨value, member, fun a ha sameKey => ⟨fun positive => ?_, fun negated => ?_⟩⟩
      · exact absurd ⟨a, ha, sameKey, positive⟩ assigned
      · exact free a ha negated sameKey
  choose value member right using choose
  refine ⟨⟨value, member⟩, fun a ha => ?_⟩
  obtain ⟨positive, negative⟩ := right a.choice.key a ha rfl
  cases sign : a.negated with
  | false => simpa [Literal.Holds, sign] using (positive sign).symm
  | true => simpa [Literal.Holds, sign] using (negative sign).symm

/-- A conjunction that some valuation meets passes the check. -/
theorem isSatisfiable_of_holds {c : Conjunction} (hc : c.Within V) {v : Valuation V}
    (h : c.Holds v) : c.isSatisfiable = true := by
  have conflicts : hasConflict c.toList = false := by
    refine (hasConflict_eq_false_iff c.literals.increasing).mpr ?_
    refine List.pairwise_of_forall_mem_list fun a ha b hb => ?_
    by_contra conflict
    exact Literal.not_holds_of_conflictsWith (by simpa using conflict) (h a ha) (h b hb)
  have leaves : c.leavesValues = true := by
    rw [leavesValues_iff]
    intro a ha negated
    right
    -- the value that the valuation gives is in the domain and not excluded
    have fresh : v.value a.choice.key ∉ (c.excluded a.choice).toList := by
      intro excluded
      obtain ⟨b, hb, bNegated, bKey, -, bValue⟩ := mem_excluded.mp excluded
      have := h b hb
      simp only [Literal.Holds, bNegated, if_true, bKey] at this
      exact this bValue.symm
    have inside : v.value a.choice.key :: (c.excluded a.choice).toList ⊆ a.choice.domain := by
      rw [(hc a ha).1]
      refine List.cons_subset.mpr ⟨v.mem _, fun value excluded => ?_⟩
      obtain ⟨b, hb, -, bKey, bDomain, rfl⟩ := mem_excluded.mp excluded
      rw [(hc b hb).1, bKey] at bDomain
      exact bDomain
    exact ((List.nodup_cons.mpr ⟨fresh, OrdSet.nodup _⟩).subperm inside).length_le
  simp [isSatisfiable, conflicts, leaves]

end Conjunction

end PlanNetwork
