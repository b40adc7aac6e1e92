/-
# Choice variables in diagnostics

In a diagnostic a variable is shown with its key, its label and its kind. The
label stands in quotes, and characters that would not show as themselves are
written by their code points: those that cannot be printed, and those that
are drawn together with the character in front of them.
-/

import PlanNetwork.Support.Literal
import PlanNetwork.Text.Extending
import PlanNetwork.Text.Unprintable

namespace PlanNetwork

/-- A character of a label. -/
def diagnosticChar (c : Char) : List Char :=
  if c == '\t' then ['\\', 't']
  else if c == '\n' then ['\\', 'n']
  else if c == '\r' then ['\\', 'r']
  else if c == '\\' then ['\\', '\\']
  else if c == '\x22' then ['\\', '\x22']
  else if c == '\x00' then ['\\', '0']
  else if isExtending c || isUnprintable c then
    ['\\', 'u', '\x7b'] ++ Nat.toDigits 16 c.toNat ++ ['\x7d']
  else [c]

/-- The word for who selects, in a diagnostic. -/
def Controllability.diagnostic : Controllability → String
  | .controllable => "Controllable"
  | .uncontrollable => "Uncontrollable"
  | .probabilistic => "Probabilistic"

/-- A variable in a diagnostic. -/
def ChoiceVariable.diagnostic (x : ChoiceVariable) : String :=
  "ChoiceVar \x7b key: " ++ toString x.key ++ ", label: \"" ++
    String.ofList (x.label.toList.flatMap diagnosticChar) ++ "\", kind: " ++ x.kind.diagnostic ++
    " \x7d"

end PlanNetwork
