/-
# Reading values off a tree

What is wanted decides what a scalar without quotes means. A record takes its
fields from a mapping, where fields that are not known are passed over and a
known field may not be repeated, or from an array, in order.

Some kinds of record can be read only after all of their parts are known. Their
parts are settled first: each scalar then means what it looks like, and nothing
in them may be unreadable, not even what is passed over later.
-/

import PlanNetwork.Wire.Scalar

namespace PlanNetwork

namespace Tree

/-- The text of a scalar. -/
def asText : Tree → Option String
  | .text s | .plain s | .literal s => some s
  | .tagged _ (.text s) | .tagged _ (.plain s) | .tagged _ (.literal s) => some s
  | _ => none

/-- A scalar that may stand for something other than a text: one without
quotes, or a literal whose tag says so. -/
def bare? (tag : Tag) : Tree → Option String
  | .plain s | .tagged _ (.plain s) => some s
  | .tagged t (.literal s) => if t = tag then some s else none
  | _ => none

/-- A truth value. -/
def asBool : Tree → Option Bool
  | .bool b => some b
  | tree => (tree.bare? .truth).bind Scalar.bool?

/-- A floating-point number. -/
def asNumber : Tree → Option Number
  | .whole n => some (.ofDecimal false n 0)
  | .number x => some x
  | tree => (tree.bare? .float).bind Scalar.number?

/-- A count of at most 64 bits. -/
def asCount : Tree → Option Nat
  | .whole n => some n
  | tree => (tree.bare? .integer).bind Scalar.whole?

/-- A value or nothing. -/
def asOptional {α : Type} (read : Tree → Option α) : Tree → Option (Option α)
  | .null | .blank => some none
  | .plain s => if Scalar.isNull s then some none else (read (.plain s)).map some
  | .tagged .nothing (.plain s) => (Scalar.resolveAs .nothing s).map fun _ => none
  | tree => (read tree).map some

/-- The items of a sequence. -/
def asItems (tree : Tree) : Option (List Tree) :=
  match tree.untagged with
  | .array items | .list items => some items
  | .plain "" | .blank => some []
  | _ => none

/-- A list of values of one kind. -/
def asList {α : Type} (read : Tree → Option α) (tree : Tree) : Option (List α) :=
  tree.asItems.bind (·.mapM read)

/-- One of some words, which may also be given as a tag or as a key with nothing
behind it. -/
def asWord {α : Type} (words : List (String × α)) : Tree → Option α
  | .tagged (.own word) (.plain s) => if Scalar.isNull s then words.lookup word else none
  | .tagged (.own _) _ => none
  | .map [(.text s, .null)] => words.lookup s
  | tree => tree.asText.bind fun word => words.lookup word

/-- The fields of a record whose fields have these names, in this order. -/
def asRecord (names : List String) (tree : Tree) : Option (List (String × Tree)) :=
  match tree.untagged with
  | .map fields => fields.mapM fun (key, value) => key.asText.map (·, value)
  | .plain "" | .blank => some []
  | .array items => if items.length ≤ names.length then some (names.zip items) else none
  | _ => none

mutual

/-- What a tree says where anything is welcome. -/
def settled : Tree → Option Tree
  | .plain s => Scalar.resolve s
  | .literal s => some (.text s)
  | .tagged tag (.plain s) | .tagged tag (.text s) | .tagged tag (.literal s) =>
    Scalar.resolveAs tag s
  | .tagged (.own _) _ => none
  | .tagged _ node => settled node
  | .array items => (settledItems items).map .array
  | .list items => (settledItems items).map .list
  | .map fields => (settledFields fields).map .map
  | .unreadable => none
  | .blank => some .null
  | tree => some tree

/-- What some trees say where anything is welcome. -/
def settledItems : List Tree → Option (List Tree)
  | [] => some []
  | tree :: trees =>
    (settled tree).bind fun item => (settledItems trees).map fun items => item :: items

/-- What some fields say where anything is welcome. -/
def settledFields : List (Tree × Tree) → Option (List (Tree × Tree))
  | [] => some []
  | (key, value) :: fields =>
    (settled key).bind fun key => (settled value).bind fun value =>
      (settledFields fields).map fun fields => (key, value) :: fields

end

end Tree

namespace Record

/-- A field that may be missing; the outer level is lost if it is repeated. -/
def find? (fields : List (String × Tree)) (name : String) : Option (Option Tree) :=
  match fields.filter (·.1 == name) with
  | [] => some none
  | [field] => some (some field.2)
  | _ => none

/-- A field that must be there. -/
def required {α : Type} (fields : List (String × Tree)) (name : String)
    (read : Tree → Option α) : Option α :=
  (find? fields name).bind fun found => found.bind read

/-- A field that has a default. -/
def withDefault {α : Type} (fields : List (String × Tree)) (name : String) (default : α)
    (read : Tree → Option α) : Option α :=
  (find? fields name).bind fun found =>
    match found with
    | none => some default
    | some tree => read tree

/-- A field that may be missing or say nothing. -/
def optional {α : Type} (fields : List (String × Tree)) (name : String)
    (read : Tree → Option α) : Option (Option α) :=
  withDefault fields name none (Tree.asOptional read)

end Record

end PlanNetwork
