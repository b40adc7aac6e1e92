/-
# Choices

A choice event carries a variable for guards to speak of, and possibly a
utility or a probability for each value. A choice is made from a specification
that is checked as a whole before an identity is spent on it.
-/

import PlanNetwork.Fault
import PlanNetwork.Identity

namespace PlanNetwork

/-- What a choice event carries. -/
structure Choice where
  /-- The choice as guards see it. -/
  subject : ChoiceVariable
  /-- The utility of each value, in the order of the domain. -/
  utilities : Option (List Number)
  /-- The probability of each value, in the order of the domain. -/
  probabilities : Option (List Number)

namespace Choice

/-- Who selects the value. -/
def kind (c : Choice) : Controllability := c.subject.kind

/-- The entry of a list of values that belongs to a value of the domain. -/
def entryOf? (c : Choice) (entries : Option (List Number)) (value : String) : Option Number :=
  (c.subject.indexOf? value).bind fun i => entries.bind (·[i]?)

/-- The utility of a value, if utilities were given. -/
def utilityOf? (c : Choice) (value : String) : Option Number := c.entryOf? c.utilities value

/-- The probability of a value, if probabilities were given. -/
def probabilityOf? (c : Choice) (value : String) : Option Number :=
  c.entryOf? c.probabilities value

/-- The literal that assigns a value of the domain. -/
def assign (c : Choice) (value : String) : Except Fault Literal :=
  match c.subject.indexOf? value with
  | some _ => .ok (.is c.subject value)
  | none => .error (.outsideChoice value c.subject.label)

end Choice

/-- What a caller says about a choice. -/
structure ChoiceSpec where
  /-- The id, if not the default. -/
  id : Option String := none
  /-- The name, if not the default. -/
  name : Option String := none
  /-- The values. -/
  domain : List String
  /-- Who selects the value. -/
  kind : Option Controllability := none
  /-- A utility for each value. -/
  utilities : Option (List Number) := none
  /-- A probability for each value. -/
  probabilities : Option (List Number) := none
deriving DecidableEq

namespace ChoiceSpec

/-- The first value of a list that is among those already passed, or stands
in the list a second time. -/
def repeatedAfter? (passed : List String) : List String → Option String
  | [] => none
  | value :: rest =>
    if passed.contains value then some value else repeatedAfter? (value :: passed) rest

/-- Whether there is one entry per value. -/
def fitsDomain (spec : ChoiceSpec) (entries : List Number) : Bool :=
  entries.length == spec.domain.length

/-- Whether there is one probability per value and the sum is not as far from
one as the tolerance. -/
def acceptsProbabilities (spec : ChoiceSpec) (tolerance : Number) (entries : List Number) : Bool :=
  spec.fitsDomain entries && !tolerance.le ((Number.sum entries).sub .one).abs

/-- Who selects the value, if all parts are as they should be. -/
def validate (spec : ChoiceSpec) (tolerance : Number) : Except Fault Controllability := do
  let some kind := spec.kind | throw .choiceKindMissing
  if spec.domain.isEmpty then throw .choiceEmpty
  if let some value := repeatedAfter? [] spec.domain then throw (.choiceRepeats value)
  if let some entries := spec.utilities then
    unless spec.fitsDomain entries do throw .utilitiesMismatch
  if let some entries := spec.probabilities then
    unless spec.acceptsProbabilities tolerance entries do throw .probabilitiesMismatch
  return kind

/-- The choice that a specification describes. Its variable is keyed by the
serial number, which no other element has, and prints as the id. -/
def toChoice (spec : ChoiceSpec) (identity : Identity) (kind : Controllability) : Choice where
  subject := ⟨identity.serial, identity.id, kind, spec.domain⟩
  utilities := spec.utilities
  probabilities := spec.probabilities

end ChoiceSpec

end PlanNetwork
