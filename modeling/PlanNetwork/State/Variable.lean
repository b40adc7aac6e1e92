/-
# State variables and assignments

A state variable takes its values from a list or from a closed interval. An
assignment gives values to some variables; conditions, effects, and the states
that a program starts and ends in are assignments.
-/

import PlanNetwork.Handle
import PlanNetwork.Identity
import PlanNetwork.OrdMap
import PlanNetwork.State.Value

namespace PlanNetwork

/-- The values a state variable can take. -/
inductive StateDomain where
  /-- Those of a list. -/
  | finite (values : List StateValue)
  /-- The numbers between two bounds, the bounds included. -/
  | interval (lower upper : Number)

namespace StateDomain

/-- The word for the kind of domain. -/
def text : StateDomain → String
  | .finite _ => "finite-discrete"
  | .interval .. => "continuous"

/-- Whether the value is one of the domain. -/
def contains : StateDomain → StateValue → Bool
  | .finite values, value => values.any (·.same value)
  | .interval lower upper, .number x => lower.le x && x.le upper
  | .interval .., _ => false

end StateDomain

/-- A named state variable. -/
structure StateVariable where
  /-- Its identity. -/
  identity : Identity
  /-- The values it can take. -/
  domain : StateDomain

/-- Values for some state variables. -/
abbrev Assignment := OrdMap VariableId StateValue

end PlanNetwork
