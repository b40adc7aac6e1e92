/-
# Finite maps as increasing lists of entries

A map is the list of its entries, in increasing order of the keys, with no key
twice. Writing to a key that is there replaces the value and keeps the key.
-/

namespace PlanNetwork

/-- A finite map, kept as its entries in increasing order of the keys. -/
structure OrdMap (κ : Type u) (ν : Type v) [Ord κ] where
  /-- The keys with their values, smallest key first. -/
  entries : List (κ × ν)
  /-- No key occurs twice, and the entries are in order. -/
  increasing : entries.Pairwise (fun a b => compare a.1 b.1 = .lt)

namespace OrdMap

section Order

variable {κ : Type u} {ν : Type v} [Ord κ]

/-- The map without entries. -/
def empty : OrdMap κ ν := ⟨[], .nil⟩

instance : EmptyCollection (OrdMap κ ν) := ⟨empty⟩
instance : Inhabited (OrdMap κ ν) := ⟨empty⟩

/-- The value at `key`, if there is one. -/
def get? (m : OrdMap κ ν) (key : κ) : Option ν :=
  (m.entries.find? (compare key ·.1 == .eq)).map (·.2)

/-- The keys, smallest first. -/
def keys (m : OrdMap κ ν) : List κ := m.entries.map (·.1)

/-- The values, in the order of their keys. -/
def values (m : OrdMap κ ν) : List ν := m.entries.map (·.2)

/-- Write `value` at the place of `key` in an increasing list of entries. -/
def write (key : κ) (value : ν) : List (κ × ν) → List (κ × ν)
  | [] => [(key, value)]
  | entry :: rest =>
    match compare key entry.1 with
    | .lt => (key, value) :: entry :: rest
    | .eq => (entry.1, value) :: rest
    | .gt => entry :: write key value rest

end Order

section Insertion

variable {κ : Type u} {ν : Type v} [Ord κ]

theorem mem_of_mem_write {key : κ} {value : ν} {x : κ × ν} {l : List (κ × ν)}
    (h : x ∈ write key value l) : x.1 = key ∨ ∃ y ∈ l, x.1 = y.1 := by
  induction l with
  | nil =>
    rcases List.mem_singleton.1 h with rfl
    exact .inl rfl
  | cons entry rest ih =>
    simp only [write] at h
    split at h
    · rcases List.mem_cons.1 h with rfl | h
      · exact .inl rfl
      · exact .inr ⟨x, h, rfl⟩
    · rcases List.mem_cons.1 h with rfl | h
      · exact .inr ⟨entry, List.mem_cons_self .., rfl⟩
      · exact .inr ⟨x, List.mem_cons_of_mem _ h, rfl⟩
    · rcases List.mem_cons.1 h with rfl | h
      · exact .inr ⟨x, List.mem_cons_self .., rfl⟩
      · exact (ih h).imp id fun ⟨y, hy, e⟩ => ⟨y, List.mem_cons_of_mem _ hy, e⟩

theorem write_increasing [Std.TransOrd κ] {key : κ} {value : ν} {l : List (κ × ν)}
    (h : l.Pairwise (fun a b => compare a.1 b.1 = .lt)) :
    (write key value l).Pairwise (fun a b => compare a.1 b.1 = .lt) := by
  induction l with
  | nil => exact List.pairwise_singleton _ (key, value)
  | cons entry rest ih =>
    obtain ⟨below, tail⟩ := List.pairwise_cons.1 h
    simp only [write]
    split
    next lt =>
      refine List.pairwise_cons.2 ⟨fun x hx => ?_, h⟩
      rcases List.mem_cons.1 hx with rfl | hx
      · exact lt
      · exact Std.TransCmp.lt_trans lt (below x hx)
    next => exact List.pairwise_cons.2 ⟨below, tail⟩
    next gt =>
      refine List.pairwise_cons.2 ⟨fun x hx => ?_, ih tail⟩
      rcases mem_of_mem_write hx with e | ⟨y, hy, e⟩
      · exact e ▸ Std.OrientedCmp.lt_of_gt gt
      · exact e ▸ below y hy

/-- Write `value` at `key`, replacing a value that is there. -/
def insert [Std.TransOrd κ] (m : OrdMap κ ν) (key : κ) (value : ν) : OrdMap κ ν :=
  ⟨write key value m.entries, write_increasing m.increasing⟩

/-- The map that a list of entries writes, later entries over earlier ones. -/
def ofList [Std.TransOrd κ] (items : List (κ × ν)) : OrdMap κ ν :=
  items.foldl (fun m item => m.insert item.1 item.2) empty

end Insertion

end OrdMap

end PlanNetwork
