/-
# Supports: when an element exists

A support is a set of conjunctions, and it holds when one of them does. The
support with the empty conjunction always holds. One without conjunctions
never does; it is what narrowing two incompatible supports leaves.
-/

import PlanNetwork.Support.Conjunction

namespace PlanNetwork

/-- Conjunctions of which one must hold. -/
structure Support where
  /-- The conjunctions. -/
  conjunctions : OrdSet Conjunction

/-- Two supports that nothing meets together. -/
structure Clash where
  /-- The support that was to be narrowed. -/
  left : Support
  /-- What it was to be narrowed with. -/
  right : Support

namespace Support

instance : Ord Support := ⟨compareOn Support.conjunctions⟩

instance : Std.TransOrd Support := inferInstanceAs (Std.TransCmp (compareOn Support.conjunctions))

/-- The support that always holds. -/
def always : Support := ⟨.singleton .always⟩

instance : Inhabited Support := ⟨always⟩

/-- The support that never holds. -/
def never : Support := ⟨∅⟩

/-- The support of one conjunction. -/
def ofConjunction (c : Conjunction) : Support := ⟨.singleton c⟩

/-- The support of one literal. -/
def ofLiteral (a : Literal) : Support := ofConjunction (.single a)

/-- The support of a list of conjunctions. -/
def ofList (items : List Conjunction) : Support := ⟨.ofList items⟩

/-- The conjunctions in order. -/
def toList (s : Support) : List Conjunction := s.conjunctions.toList

/-- How many conjunctions there are. -/
def size (s : Support) : Nat := s.conjunctions.size

/-- Whether there are no conjunctions. -/
def isEmpty (s : Support) : Bool := s.conjunctions.isEmpty

/-- Whether the empty conjunction is among the conjunctions. -/
def isAlways (s : Support) : Bool := s.conjunctions.contains .always

/-- How many literals the conjunctions have in all. -/
def literalCount (s : Support) : Nat := (s.toList.flatMap Conjunction.toList).length

/-- Whether the two have the same conjunctions. -/
def same (s t : Support) : Bool := s.conjunctions.sameMembers t.conjunctions

/-- Every conjunction of `s` with every one of `t`, as far as the two can be
met together. -/
def and (s t : Support) : Support :=
  ofList (s.toList.flatMap fun c => t.toList.filterMap c.and?)

/-- The narrowed support, or the two that have nothing in common. -/
def tryAnd (s t : Support) : Except Clash Support :=
  let narrowed := s.and t
  if narrowed.isEmpty then .error ⟨s, t⟩ else .ok narrowed

/-- The conjunctions of either. -/
def or (s t : Support) : Support := ⟨s.conjunctions.union t.conjunctions⟩

/-- What is left of each conjunction of `s` when the literals of all the
conjunctions of `t` are taken away. This is less strict than holding where `s`
does and `t` does not. -/
def difference (s t : Support) : List Conjunction :=
  s.toList.map fun c => t.toList.foldl Conjunction.difference c

/-- Whether the two can hold together. -/
def isConsistentWith (s t : Support) : Bool := !(s.and t).isEmpty

/-- Whether all literals of one conjunction are given. -/
def isActive (s : Support) (given : Conjunction) : Bool := s.toList.any (·.isSubset given)

/-- Whether no literal of any conjunction conflicts with a given one. -/
def isConsistent (s : Support) (given : Conjunction) : Bool :=
  !s.toList.any fun c => c.toList.any fun a => given.toList.any a.conflictsWith

/-- Add a literal to every conjunction, consistent with it or not. -/
def withLiteral (s : Support) (a : Literal) : Support :=
  ⟨s.conjunctions.image (·.insert a)⟩

/-- The support as a formula. -/
def text (s : Support) : String :=
  if s.isAlways then "true"
  else if s.isEmpty then "false"
  else " OR ".intercalate (s.toList.map Conjunction.text)

end Support

end PlanNetwork
