/-
# Finite sets as increasing lists

A set is its strictly increasing list of members. Two sets are compared as
lists, so a set of sets is again a set of this kind, and reading a set from
left to right is the order in which it is printed. Membership is decided by
the comparison alone: two members that compare as equal are the same member,
and adding one that is already there keeps the older one.
-/

namespace PlanNetwork

/-- A finite set, kept as the increasing list of its members. -/
structure OrdSet (α : Type u) [Ord α] where
  /-- The members, smallest first. -/
  toList : List α
  /-- No member occurs twice, and the list is in order. -/
  increasing : toList.Pairwise (fun a b => compare a b = .lt)

namespace OrdSet

section Order

variable {α : Type u} [Ord α]

/-- The set without members. -/
def empty : OrdSet α := ⟨[], .nil⟩

instance : EmptyCollection (OrdSet α) := ⟨empty⟩
instance : Inhabited (OrdSet α) := ⟨empty⟩

/-- The set with one member. -/
def singleton (a : α) : OrdSet α := ⟨[a], List.pairwise_singleton _ a⟩

/-- How many members there are. -/
def size (s : OrdSet α) : Nat := s.toList.length

/-- Whether there are no members. -/
def isEmpty (s : OrdSet α) : Bool := s.toList.isEmpty

/-- Whether some member compares as equal to `a`. -/
def contains (s : OrdSet α) (a : α) : Bool := s.toList.any (compare a · == .eq)

/-- Whether every member of `s` is one of `t`. -/
def isSubset (s t : OrdSet α) : Bool := s.toList.all t.contains

/-- The members of `s` that `keep` accepts. -/
def filter (keep : α → Bool) (s : OrdSet α) : OrdSet α :=
  ⟨s.toList.filter keep, s.increasing.sublist List.filter_sublist⟩

/-- The set without `a`. -/
def erase (s : OrdSet α) (a : α) : OrdSet α := s.filter (compare a · != .eq)

/-- The members of `s` that are not in `t`. -/
def difference (s t : OrdSet α) : OrdSet α := s.filter (!t.contains ·)

/-- Sets are compared member by member, and a set that runs out first is the
smaller one. -/
instance : Ord (OrdSet α) := ⟨fun s t => compare s.toList t.toList⟩

/-- Whether two sets have the same members, as far as comparing can tell. -/
def sameMembers (s t : OrdSet α) : Bool := compare s t == .eq

instance [Std.TransOrd α] : Std.TransOrd (OrdSet α) :=
  inferInstanceAs (Std.TransCmp (compareOn OrdSet.toList))

end Order

section Insertion

variable {α : Type u} [Ord α]

/-- Put `a` at its place in an increasing list, unless it is there already. -/
def place (a : α) : List α → List α
  | [] => [a]
  | b :: rest =>
    match compare a b with
    | .lt => a :: b :: rest
    | .eq => b :: rest
    | .gt => b :: place a rest

theorem mem_of_mem_place {a x : α} {l : List α} (h : x ∈ place a l) : x = a ∨ x ∈ l := by
  induction l with
  | nil => simpa [place] using h
  | cons b rest ih =>
    simp only [place] at h
    split at h
    · simpa using h
    · exact .inr h
    · rcases List.mem_cons.1 h with rfl | h
      · exact .inr (List.mem_cons_self ..)
      · exact (ih h).imp id (List.mem_cons_of_mem _)

variable [Std.TransOrd α]

theorem place_increasing {a : α} {l : List α}
    (h : l.Pairwise (fun x y => compare x y = .lt)) :
    (place a l).Pairwise (fun x y => compare x y = .lt) := by
  induction l with
  | nil => exact List.pairwise_singleton _ a
  | cons b rest ih =>
    obtain ⟨below, tail⟩ := List.pairwise_cons.1 h
    simp only [place]
    split
    next lt =>
      refine List.pairwise_cons.2 ⟨fun x hx => ?_, h⟩
      rcases List.mem_cons.1 hx with rfl | hx
      · exact lt
      · exact Std.TransCmp.lt_trans lt (below x hx)
    next => exact h
    next gt =>
      refine List.pairwise_cons.2 ⟨fun x hx => ?_, ih tail⟩
      rcases mem_of_mem_place hx with rfl | hx
      · exact Std.OrientedCmp.lt_of_gt gt
      · exact below x hx

/-- Add `a`, unless a member that compares as equal is there already. -/
def insert (s : OrdSet α) (a : α) : OrdSet α := ⟨place a s.toList, place_increasing s.increasing⟩

/-- Add all of `items` in turn. -/
def insertAll (s : OrdSet α) (items : List α) : OrdSet α := items.foldl insert s

/-- The set of the items of a list. -/
def ofList (items : List α) : OrdSet α := insertAll empty items

/-- The members of either set; of two that compare as equal, the one of `s`. -/
def union (s t : OrdSet α) : OrdSet α := s.insertAll t.toList

/-- The set of the images of the members of `s`. -/
def image {β : Type v} [Ord β] (s : OrdSet β) (f : β → α) : OrdSet α := ofList (s.toList.map f)

end Insertion

end OrdSet

end PlanNetwork
