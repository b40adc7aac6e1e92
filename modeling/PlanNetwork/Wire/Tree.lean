/-
# Documents as trees

What a JSON or a YAML text says, before it is known what is wanted of it. A
scalar that YAML writes without quotes is kept as it stands, since what it
means depends on what is wanted: `1` is a number where a number is wanted and a
text where a text is.

Much of a document may be of no interest to whoever reads it. What is passed
over has to be well formed and no more than that, so a part that has no value,
such as a number past all doubles, is kept as unreadable.
-/

import PlanNetwork.Number.Text

namespace PlanNetwork

/-- A tag in front of a node, by what it asks for. -/
inductive Tag where
  /-- A truth value. -/
  | truth
  /-- A whole number. -/
  | integer
  /-- A number. -/
  | float
  /-- Nothing. -/
  | nothing
  /-- A name that the document gives to a kind of its own. -/
  | own (name : String)
  /-- Anything else. -/
  | other
deriving DecidableEq

/-- A document, or a part of one. -/
inductive Tree where
  /-- A document with nothing in it. -/
  | blank
  /-- Nothing. -/
  | null
  /-- A truth value. -/
  | bool (value : Bool)
  /-- A whole number of at most 64 bits, not negative. -/
  | whole (value : Nat)
  /-- Any other number. -/
  | number (value : Number)
  /-- A text in quotes. -/
  | text (value : String)
  /-- A text whose lines are kept as they stand. -/
  | literal (value : String)
  /-- A scalar without quotes. -/
  | plain (value : String)
  /-- An array, which may also stand for a record, its fields in order. -/
  | array (items : List Tree)
  /-- A sequence that stands for nothing else. -/
  | list (items : List Tree)
  /-- A mapping, its keys in order and possibly repeated. -/
  | map (fields : List (Tree × Tree))
  /-- A node with a tag. -/
  | tagged (tag : Tag) (node : Tree)
  /-- Something that is well formed and has no value. -/
  | unreadable

namespace Tree

/-- A mapping from names. -/
def record (fields : List (String × Tree)) : Tree :=
  .map (fields.map fun (name, value) => (.text name, value))

/-- A node without its tag. -/
def untagged : Tree → Tree
  | .tagged _ node => node
  | node => node

end Tree

end PlanNetwork
