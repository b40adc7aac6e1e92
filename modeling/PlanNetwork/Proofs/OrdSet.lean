/-
# Laws of ordered sets

A set is determined by its members. Adding an item keeps the members and brings
in the item, or stands back where a member compares as equal to it; so what is
built from a list has only items of the list as members, and for every item of
the list a member that compares as equal.

The first part does not ask that comparing as equal means being equal: literals
about one choice may carry different labels and still be the same literal. Where
it does mean that, as with handles, sets are told apart by their members in the
usual way.
-/

import Mathlib.Data.List.Perm.Subperm
import PlanNetwork.OrdSet

namespace PlanNetwork

namespace OrdSet

variable {α : Type u} [Ord α] {s t : OrdSet α} {a x : α}

theorem eq_of_toList_eq (h : s.toList = t.toList) : s = t := by
  cases s
  cases t
  cases h
  rfl

/-- Lists that compare as equal have members that do. -/
theorem exists_mem_of_compare_eq {l m : List α} (same : compare l m = .eq) :
    ∀ a ∈ l, ∃ b ∈ m, compare a b = .eq := by
  induction l generalizing m with
  | nil => intro a h; cases h
  | cons a l ih =>
    cases m with
    | nil => rw [List.compare_cons_nil] at same; cases same
    | cons b m =>
      rw [List.compare_cons_cons, Ordering.then_eq_eq] at same
      intro x hx
      rcases List.mem_cons.mp hx with rfl | hx
      · exact ⟨b, List.mem_cons_self .., same.1⟩
      · obtain ⟨y, hy, equal⟩ := ih same.2 x hx
        exact ⟨y, List.mem_cons_of_mem _ hy, equal⟩

theorem isEmpty_iff : s.isEmpty = true ↔ s.toList = [] := List.isEmpty_iff

section Transitive

variable [Std.TransOrd α]

/-- No member of a set stands in it twice. -/
theorem nodup (s : OrdSet α) : s.toList.Nodup :=
  s.increasing.imp fun {a b} less same => by
    subst same
    exact (Std.OrientedCmp.not_lt_of_lt less less)

/-- A set with the members of a list without repetitions has as many. -/
theorem size_eq_length {items : List α} (once : items.Nodup)
    (members : ∀ a, a ∈ s.toList ↔ a ∈ items) : s.size = items.length :=
  ((List.perm_ext_iff_of_nodup s.nodup once).mpr members).length_eq

/-- Sets with the same members are equal. -/
theorem eq_of_mem_iff (h : ∀ x, x ∈ s.toList ↔ x ∈ t.toList) : s = t := by
  apply eq_of_toList_eq
  have same : s.toList.Perm t.toList := (List.perm_ext_iff_of_nodup s.nodup t.nodup).mpr h
  refine same.eq_of_pairwise ?_ s.increasing t.increasing
  intro a b _ _ less greater
  exact (Std.OrientedCmp.not_lt_of_lt less greater).elim

/-- Members that compare as equal are the same member. -/
theorem eq_of_compare_eq {b : α} (ha : a ∈ s.toList) (hb : b ∈ s.toList)
    (same : compare a b = .eq) : a = b := by
  have apart : s.toList.Pairwise fun a b => compare a b = .eq → a = b :=
    s.increasing.imp fun less same => by rw [less] at same; cases same
  have apart' : s.toList.Pairwise (flip fun a b => compare a b = .eq → a = b) :=
    apart.imp fun h swapped => (h (Std.OrientedCmp.eq_comm.mp swapped)).symm
  exact apart.forall_of_forall_of_flip (fun _ _ _ => rfl) apart' ha hb same

/-- What holds of members in their order holds wherever one comes before another. -/
theorem rel_of_lt {R : α → α → Prop} {b : α} (h : s.toList.Pairwise R) (ha : a ∈ s.toList)
    (hb : b ∈ s.toList) (less : compare a b = .lt) : R a b := by
  have both : s.toList.Pairwise fun a b => compare a b = .lt → R a b :=
    h.imp fun {a b} related (_ : compare a b = .lt) => related
  have back : s.toList.Pairwise (flip fun a b => compare a b = .lt → R a b) :=
    s.increasing.imp fun {_ _} ordered swapped =>
      (Std.OrientedCmp.not_lt_of_lt ordered swapped).elim
  have self : ∀ x ∈ s.toList, compare x x = .lt → R x x := fun x _ same =>
    (Std.OrientedCmp.not_lt_of_lt same same).elim
  exact both.forall_of_forall_of_flip self back ha hb less

/-! ## Adding one item -/

omit [Std.TransOrd α] in
theorem mem_place_of_mem {l : List α} (h : x ∈ l) : x ∈ place a l := by
  induction l with
  | nil => cases h
  | cons b rest ih =>
    simp only [place]
    split
    · exact List.mem_cons_of_mem _ h
    · exact h
    · rcases List.mem_cons.mp h with rfl | h
      · exact List.mem_cons_self ..
      · exact List.mem_cons_of_mem _ (ih h)

theorem exists_mem_place (a : α) (l : List α) : ∃ y ∈ place a l, compare a y = .eq := by
  induction l with
  | nil => exact ⟨a, List.mem_cons_self .., Std.ReflCmp.compare_self⟩
  | cons b rest ih =>
    simp only [place]
    split
    next => exact ⟨a, List.mem_cons_self .., Std.ReflCmp.compare_self⟩
    next same => exact ⟨b, List.mem_cons_self .., same⟩
    next =>
      obtain ⟨y, member, same⟩ := ih
      exact ⟨y, List.mem_cons_of_mem _ member, same⟩

theorem mem_of_mem_insert (h : x ∈ (s.insert a).toList) : x = a ∨ x ∈ s.toList :=
  mem_of_mem_place h

theorem mem_insert_of_mem (h : x ∈ s.toList) : x ∈ (s.insert a).toList := mem_place_of_mem h

theorem exists_mem_insert (s : OrdSet α) (a : α) :
    ∃ y ∈ (s.insert a).toList, compare a y = .eq :=
  exists_mem_place a s.toList

/-- An item that compares as equal to a member changes nothing. -/
theorem insert_eq_self {b : α} (hb : b ∈ s.toList) (same : compare a b = .eq) :
    s.insert a = s := by
  apply eq_of_mem_iff
  intro x
  refine ⟨fun hx => ?_, mem_insert_of_mem⟩
  rcases mem_of_mem_insert hx with rfl | hx
  · have : b = x := eq_of_compare_eq (mem_insert_of_mem hb) hx (Std.OrientedCmp.eq_comm.mp same)
    exact this ▸ hb
  · exact hx

/-- An item unlike all members becomes a member. -/
theorem mem_insert_self (new : ∀ y ∈ s.toList, compare a y ≠ .eq) : a ∈ (s.insert a).toList := by
  obtain ⟨y, member, same⟩ := s.exists_mem_insert a
  rcases mem_of_mem_insert member with rfl | old
  · exact member
  · exact absurd same (new y old)

/-! ## Adding many -/

theorem mem_of_mem_insertAll {items : List α} (h : x ∈ (s.insertAll items).toList) :
    x ∈ s.toList ∨ x ∈ items := by
  induction items generalizing s with
  | nil => exact .inl h
  | cons item rest ih =>
    rcases ih h with h | h
    · rcases mem_of_mem_insert h with rfl | h
      · exact .inr (List.mem_cons_self ..)
      · exact .inl h
    · exact .inr (List.mem_cons_of_mem _ h)

theorem mem_insertAll_of_mem {items : List α} (h : x ∈ s.toList) :
    x ∈ (s.insertAll items).toList := by
  induction items generalizing s with
  | nil => exact h
  | cons item rest ih => exact ih (mem_insert_of_mem h)

theorem exists_mem_insertAll {items : List α} (h : a ∈ items) :
    ∃ y ∈ (s.insertAll items).toList, compare a y = .eq := by
  induction items generalizing s with
  | nil => cases h
  | cons item rest ih =>
    rcases List.mem_cons.mp h with rfl | h
    · obtain ⟨y, member, same⟩ := s.exists_mem_insert a
      exact ⟨y, mem_insertAll_of_mem (s := s.insert a) member, same⟩
    · exact ih h

theorem mem_of_mem_ofList {items : List α} (h : x ∈ (ofList items).toList) : x ∈ items :=
  (mem_of_mem_insertAll h).resolve_left List.not_mem_nil

theorem exists_mem_ofList {items : List α} (h : a ∈ items) :
    ∃ y ∈ (ofList items).toList, compare a y = .eq :=
  exists_mem_insertAll h

theorem mem_of_mem_union (h : x ∈ (s.union t).toList) : x ∈ s.toList ∨ x ∈ t.toList :=
  mem_of_mem_insertAll h

theorem mem_union_left (h : x ∈ s.toList) : x ∈ (s.union t).toList := mem_insertAll_of_mem h

theorem exists_mem_union_right (h : x ∈ t.toList) :
    ∃ y ∈ (s.union t).toList, compare x y = .eq :=
  exists_mem_insertAll h

/-- Items that compare as equal to members change nothing. -/
theorem insertAll_eq_self {items : List α}
    (known : ∀ a ∈ items, ∃ b ∈ s.toList, compare a b = .eq) : s.insertAll items = s := by
  induction items with
  | nil => rfl
  | cons item rest ih =>
    obtain ⟨⟨b, member, same⟩, others⟩ := List.forall_mem_cons.mp known
    show (s.insert item).insertAll rest = s
    rw [insert_eq_self member same]
    exact ih others

/-- A set is what its own list of members builds. -/
theorem ofList_toList (s : OrdSet α) : ofList s.toList = s := by
  apply eq_of_mem_iff
  intro x
  refine ⟨mem_of_mem_ofList, fun hx => ?_⟩
  obtain ⟨y, member, same⟩ := exists_mem_ofList hx
  exact eq_of_compare_eq hx (mem_of_mem_ofList member) same ▸ member

/-- What a list builds has no more members than the list has items. -/
theorem size_ofList_le (items : List α) : (ofList items).size ≤ items.length :=
  ((ofList items).nodup.subperm fun _ member => mem_of_mem_ofList member).length_le

end Transitive

/-! ## Where comparing as equal means being equal -/

section Lawful

@[simp] theorem not_mem_empty : x ∉ (∅ : OrdSet α).toList := List.not_mem_nil

variable [Std.LawfulEqOrd α]

@[simp] theorem contains_iff_mem : s.contains a = true ↔ a ∈ s.toList := by
  simp [contains]

@[simp] theorem contains_eq_false_iff : s.contains a = false ↔ a ∉ s.toList := by
  rw [← contains_iff_mem, Bool.not_eq_true]

@[simp] theorem mem_erase_iff : x ∈ (s.erase a).toList ↔ x ∈ s.toList ∧ x ≠ a := by
  simp only [erase, filter, List.mem_filter, bne_iff_ne, ne_eq,
    Std.LawfulEqOrd.compare_eq_iff_eq]
  exact and_congr_right fun _ => not_congr eq_comm

variable [Std.TransOrd α]

@[simp] theorem mem_insert_iff : x ∈ (s.insert a).toList ↔ x = a ∨ x ∈ s.toList := by
  refine ⟨mem_of_mem_insert, ?_⟩
  rintro (rfl | old)
  · obtain ⟨y, member, same⟩ := s.exists_mem_insert x
    exact Std.LawfulEqOrd.compare_eq_iff_eq.mp same ▸ member
  · exact mem_insert_of_mem old

@[simp] theorem mem_insertAll_iff {items : List α} :
    x ∈ (s.insertAll items).toList ↔ x ∈ s.toList ∨ x ∈ items := by
  refine ⟨mem_of_mem_insertAll, ?_⟩
  rintro (old | new)
  · exact mem_insertAll_of_mem old
  · obtain ⟨y, member, same⟩ := exists_mem_insertAll (s := s) new
    exact Std.LawfulEqOrd.compare_eq_iff_eq.mp same ▸ member

@[simp] theorem mem_ofList_iff {items : List α} : x ∈ (ofList items).toList ↔ x ∈ items :=
  mem_insertAll_iff.trans (or_iff_right not_mem_empty)

@[simp] theorem mem_union_iff : x ∈ (s.union t).toList ↔ x ∈ s.toList ∨ x ∈ t.toList :=
  mem_insertAll_iff

end Lawful

end OrdSet

end PlanNetwork
