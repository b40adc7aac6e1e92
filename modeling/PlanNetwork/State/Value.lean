/-
# Values of state variables
-/

import PlanNetwork.Number.Text

namespace PlanNetwork

/-- A value that a state variable can take. -/
inductive StateValue where
  /-- A truth value. -/
  | bool (value : Bool)
  /-- A number. -/
  | number (value : Number)
  /-- A symbol. -/
  | symbol (value : String)
deriving DecidableEq

namespace StateValue

/-- Whether two values are equal; numbers are compared as numbers, so the two
zeros are one value and what is not a number equals nothing. -/
def same : StateValue → StateValue → Bool
  | .bool a, .bool b => a == b
  | .number a, .number b => a.equals b
  | .symbol a, .symbol b => a == b
  | _, _ => false

/-- The value in formulas and messages. -/
def text : StateValue → String
  | .bool value => if value then "true" else "false"
  | .number value => value.text
  | .symbol value => value

end StateValue

end PlanNetwork
