/-
# Laws of ordered maps

A map is determined by its entries. A key has the value of the entry that it is
in, and writing to a key replaces the entry of that key and leaves the others.
-/

import PlanNetwork.OrdMap

namespace PlanNetwork

namespace OrdMap

variable {κ : Type u} {ν : Type v} [Ord κ] {m : OrdMap κ ν} {key : κ} {value : ν}

@[simp] theorem not_mem_entries_empty {x : κ × ν} : x ∉ (∅ : OrdMap κ ν).entries :=
  List.not_mem_nil

variable [Std.LawfulEqOrd κ]

theorem ne_of_compare_eq_lt {a b : κ} (less : compare a b = .lt) : a ≠ b := by
  intro same
  rw [Std.LawfulEqOrd.compare_eq_iff_eq.mpr same] at less
  cases less

/-- A key is in one entry only. -/
theorem eq_of_key_eq {x y : κ × ν} (hx : x ∈ m.entries) (hy : y ∈ m.entries)
    (same : x.1 = y.1) : x = y := by
  have apart : m.entries.Pairwise fun a b => a.1 = b.1 → a = b :=
    m.increasing.imp fun less equal => absurd equal (ne_of_compare_eq_lt less)
  have apart' : m.entries.Pairwise (flip fun a b => a.1 = b.1 → a = b) :=
    apart.imp fun h swapped => (h swapped.symm).symm
  exact apart.forall_of_forall_of_flip (fun _ _ _ => rfl) apart' hx hy same

theorem nodup_keys (m : OrdMap κ ν) : (m.entries.map Prod.fst).Nodup :=
  List.pairwise_map.mpr (m.increasing.imp ne_of_compare_eq_lt)

theorem get?_eq_some_iff : m.get? key = some value ↔ (key, value) ∈ m.entries := by
  unfold get?
  constructor
  · intro found
    obtain ⟨entry, at_key, rfl⟩ := Option.map_eq_some_iff.mp found
    have same : key = entry.1 := by simpa using List.find?_some at_key
    exact same ▸ List.mem_of_find?_eq_some at_key
  · intro member
    cases found : m.entries.find? (compare key ·.1 == .eq) with
    | none => simpa using List.find?_eq_none.mp found _ member
    | some entry =>
      have same : key = entry.1 := by simpa using List.find?_some found
      rw [eq_of_key_eq (List.mem_of_find?_eq_some found) member same.symm, Option.map_some]

variable [Std.TransOrd κ]

theorem mem_write_iff {x : κ × ν} {l : List (κ × ν)}
    (increasing : l.Pairwise fun a b => compare a.1 b.1 = .lt) :
    x ∈ write key value l ↔ x = (key, value) ∨ x ∈ l ∧ x.1 ≠ key := by
  -- entries behind a greater key have other keys
  have beyond {a : κ} {rest : List (κ × ν)} (below : ∀ y ∈ rest, compare a y.1 = .lt)
      (member : x ∈ rest) : x.1 ≠ a :=
    (ne_of_compare_eq_lt (below x member)).symm
  induction l with
  | nil => simp [write]
  | cons entry rest ih =>
    obtain ⟨below, tail⟩ := List.pairwise_cons.mp increasing
    rw [write]
    cases order : compare key entry.1 with
    | lt =>
      have all : ∀ y ∈ entry :: rest, compare key y.1 = .lt := by
        intro y member
        rcases List.mem_cons.mp member with rfl | member
        · exact order
        · exact Std.TransCmp.lt_trans order (below y member)
      rw [List.mem_cons]
      exact or_congr_right ⟨fun member => ⟨member, beyond all member⟩, And.left⟩
    | eq =>
      obtain rfl := Std.LawfulEqOrd.compare_eq_iff_eq.mp order
      rw [List.mem_cons, List.mem_cons]
      refine or_congr_right ⟨fun member => ⟨.inr member, beyond below member⟩, ?_⟩
      rintro ⟨rfl | member, differ⟩
      · exact absurd rfl differ
      · exact member
    | gt =>
      have differ : entry.1 ≠ key := by
        rintro rfl
        rw [Std.LawfulEqOrd.compare_eq_iff_eq.mpr rfl] at order
        cases order
      rw [List.mem_cons, List.mem_cons]
      refine (or_congr_right (ih tail)).trans ?_
      constructor
      · rintro (rfl | rfl | ⟨member, other⟩)
        · exact .inr ⟨.inl rfl, differ⟩
        · exact .inl rfl
        · exact .inr ⟨.inr member, other⟩
      · rintro (rfl | ⟨rfl | member, other⟩)
        · exact .inr (.inl rfl)
        · exact .inl rfl
        · exact .inr (.inr ⟨member, other⟩)

@[simp] theorem mem_entries_insert {x : κ × ν} :
    x ∈ (m.insert key value).entries ↔ x = (key, value) ∨ x ∈ m.entries ∧ x.1 ≠ key :=
  mem_write_iff m.increasing

theorem get?_insert_self : (m.insert key value).get? key = some value := by
  simp [get?_eq_some_iff]

/-- Writing to a key leaves the values of all others. -/
@[simp] theorem get?_insert_of_ne {other : κ} (differ : other ≠ key) :
    (m.insert key value).get? other = m.get? other := by
  ext old
  simp [get?_eq_some_iff, differ]

/-- A value that is there after a write was there before, or it is the one that was written. -/
theorem of_get?_insert_eq_some {other : κ} {old : ν}
    (found : (m.insert key value).get? other = some old) :
    m.get? other = some old ∨ other = key ∧ old = value := by
  by_cases same : other = key
  · subst same
    exact .inr ⟨rfl, Option.some.inj (found.symm.trans get?_insert_self)⟩
  · exact .inl ((get?_insert_of_ne same).symm.trans found)

/-- Writing to a key that had no value keeps the values of all others. -/
theorem get?_insert_of_get?_eq_none {other : κ} {old : ν} (free : m.get? key = none)
    (found : m.get? other = some old) : (m.insert key value).get? other = some old := by
  have differ : other ≠ key := by
    rintro rfl
    rw [free] at found
    cases found
  rw [get?_insert_of_ne differ, found]

end OrdMap

end PlanNetwork
