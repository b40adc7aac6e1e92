/-
# Identities

Every element gets a serial number that is never given out twice, an id, and a
name. The id is made of the kind and the serial number, and the name is the id
behind an underscore, until the caller says otherwise. A name that was never
set follows the id when the id is changed.

An identity is a plain value. Callers can copy one, and read one from a text.
-/

namespace PlanNetwork

/-- The serial number, id and name of an element. -/
structure Identity where
  /-- Given out once. -/
  serial : Nat
  /-- What other elements and formulas call it. -/
  id : String
  /-- What people call it. -/
  name : String
deriving DecidableEq

namespace Identity

/-- The name of an element that was given none. -/
def defaultName (id : String) : String := "_" ++ id

/-- The identity of a new element of the kind. -/
def fresh (kind : String) (serial : Nat) : Identity :=
  let id := kind ++ "_" ++ toString serial
  ⟨serial, id, defaultName id⟩

/-- Change the id; a default name follows. -/
def withId (i : Identity) (id : String) : Identity :=
  { i with id, name := if i.name = defaultName i.id then defaultName id else i.name }

/-- Change the name. -/
def withName (i : Identity) (name : String) : Identity := { i with name }

/-- Change what is given: first the id, then the name. -/
def override (i : Identity) (id name : Option String) : Identity :=
  let i := match id with
    | some id => i.withId id
    | none => i
  match name with
  | some name => i.withName name
  | none => i

end Identity

end PlanNetwork
