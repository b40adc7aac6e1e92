/-
# Conjunctions of literals

A conjunction is a set of literals that hold together; the empty one always
holds. It can be met by some choice of values unless two of its literals
conflict or its exclusions use up a domain. An excluded value that was never
in the domain uses nothing up.
-/

import PlanNetwork.Support.Literal

namespace PlanNetwork

/-- Literals that must all hold. -/
structure Conjunction where
  /-- The literals. -/
  literals : OrdSet Literal

namespace Conjunction

instance : Inhabited Conjunction := ⟨⟨∅⟩⟩

instance : Ord Conjunction := ⟨compareOn Conjunction.literals⟩

instance : Std.TransOrd Conjunction :=
  inferInstanceAs (Std.TransCmp (compareOn Conjunction.literals))

/-- The conjunction without literals, which always holds. -/
def always : Conjunction := ⟨∅⟩

/-- The conjunction of one literal. -/
def single (a : Literal) : Conjunction := ⟨.singleton a⟩

/-- The conjunction of a list of literals. -/
def ofList (items : List Literal) : Conjunction := ⟨.ofList items⟩

/-- The literals in order. -/
def toList (c : Conjunction) : List Literal := c.literals.toList

/-- How many literals there are. -/
def size (c : Conjunction) : Nat := c.literals.size

/-- Whether `a` is one of the literals. -/
def contains (c : Conjunction) (a : Literal) : Bool := c.literals.contains a

/-- Add a literal, consistent with the others or not. -/
def insert (c : Conjunction) (a : Literal) : Conjunction := ⟨c.literals.insert a⟩

/-- Whether all literals of `c` are in `d`. -/
def isSubset (c d : Conjunction) : Bool := c.literals.isSubset d.literals

/-- Whether `d` has all literals of `c` and at least one more. -/
def isProperSubset (c d : Conjunction) : Bool := decide (c.size < d.size) && c.isSubset d

/-- The literals of `c` that are not in `d`. -/
def difference (c d : Conjunction) : Conjunction := ⟨c.literals.difference d.literals⟩

/-- The variables spoken of. -/
def subjects (c : Conjunction) : OrdSet ChoiceVariable := c.literals.image Literal.choice

/-- Whether two literals of an increasing list conflict. Only literals about
the same variable can, and these stand side by side. -/
def hasConflict : List Literal → Bool
  | [] => false
  | a :: rest =>
    (rest.takeWhile (·.choice.same a.choice)).any a.conflictsWith || hasConflict rest

/-- The values in the domain of `x` that the conjunction rules out. -/
def excluded (c : Conjunction) (x : ChoiceVariable) : OrdSet String :=
  .ofList ((c.toList.filter fun a =>
    a.negated && a.choice.same x && (a.choice.indexOf? a.value).isSome).map Literal.value)

/-- Whether the exclusions leave a value to every variable that has one of its
values excluded. -/
def leavesValues (c : Conjunction) : Bool :=
  (c.toList.filter Literal.negated).all fun a =>
    let gone := (c.excluded a.choice).size
    gone == 0 || decide (gone < a.choice.arity)

/-- Whether some choice of values meets every literal. -/
def isSatisfiable (c : Conjunction) : Bool := !hasConflict c.toList && c.leavesValues

/-- The literals of both, if they can be met together. -/
def and? (c d : Conjunction) : Option Conjunction :=
  let merged : Conjunction := ⟨c.literals.union d.literals⟩
  if merged.isSatisfiable then some merged else none

/-- The conjunction in a formula. -/
def text (c : Conjunction) : String :=
  if c.literals.isEmpty then "true"
  else "(" ++ " AND ".intercalate (c.toList.map Literal.text) ++ ")"

end Conjunction

end PlanNetwork
