/-
# Choice variables and literals

A choice variable is what a guard knows of a choice: a key that identifies it,
a label to print, who selects its value, and the values it can take. Two
variables are the same when their keys are, whatever else they carry.

A literal assigns a value to a variable or rules it out. Literals are ordered
by variable, then value, then sign, so that those about one variable stand
side by side in a conjunction.
-/

import PlanNetwork.OrdSet

namespace PlanNetwork

/-- Who selects the value of a choice. -/
inductive Controllability where
  /-- The executive decides. -/
  | controllable
  /-- The environment selects, and no distribution is known. -/
  | uncontrollable
  /-- The environment selects by a known distribution. -/
  | probabilistic
deriving DecidableEq

namespace Controllability

/-- Whether the value is observed rather than decided. -/
def isObservation : Controllability → Bool
  | .controllable => false
  | _ => true

/-- The word for it in messages and data. -/
def text : Controllability → String
  | .controllable => "controllable"
  | .uncontrollable => "uncontrollable"
  | .probabilistic => "probabilistic"

end Controllability

/-- A choice as guards see it. -/
structure ChoiceVariable where
  /-- What identifies the choice. -/
  key : Nat
  /-- What guards print for it. -/
  label : String
  /-- Who selects its value. -/
  kind : Controllability
  /-- The values it can take, in order. -/
  domain : List String
deriving DecidableEq

namespace ChoiceVariable

instance : Ord ChoiceVariable := ⟨compareOn key⟩

instance : Std.TransOrd ChoiceVariable :=
  inferInstanceAs (Std.TransCmp (compareOn ChoiceVariable.key))

/-- Whether two handles mean the same choice. -/
def same (x y : ChoiceVariable) : Bool := x.key == y.key

/-- How many values there are. -/
def arity (x : ChoiceVariable) : Nat := x.domain.length

/-- The position of a value in the domain, if it is there. -/
def indexOf? (x : ChoiceVariable) (value : String) : Option Nat := x.domain.findIdx? (· == value)

end ChoiceVariable

/-- A variable with a value, assigned or ruled out. -/
structure Literal where
  /-- The choice it speaks of. -/
  choice : ChoiceVariable
  /-- The value assigned or ruled out; it need not be in the domain. -/
  value : String
  /-- Whether the value is ruled out. -/
  negated : Bool
deriving DecidableEq

namespace Literal

/-- The literal that assigns `value`. -/
def is (x : ChoiceVariable) (value : String) : Literal := ⟨x, value, false⟩

/-- The literal that rules `value` out. -/
def isNot (x : ChoiceVariable) (value : String) : Literal := ⟨x, value, true⟩

/-- Variable first, then value, then assignments before exclusions. -/
instance : Ord Literal :=
  ⟨compareLex (compareOn Literal.choice)
    (compareLex (compareOn Literal.value) (compareOn Literal.negated))⟩

instance : Std.TransOrd Literal :=
  inferInstanceAs (Std.TransCmp (compareLex (compareOn Literal.choice)
    (compareLex (compareOn Literal.value) (compareOn Literal.negated))))

/-- Whether the two cannot both hold: two values assigned to one variable, or
one value assigned and ruled out. That several exclusions may leave no value
is a matter of the whole conjunction. -/
def conflictsWith (a b : Literal) : Bool :=
  a.choice.same b.choice &&
    match a.negated, b.negated with
    | false, false => a.value != b.value
    | true, true => false
    | _, _ => a.value == b.value

/-- The literal in a formula. -/
def text (a : Literal) : String :=
  (if a.negated then "NOT " else "") ++ a.choice.label ++ "=" ++ a.value

end Literal

end PlanNetwork
