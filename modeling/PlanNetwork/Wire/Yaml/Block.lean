/-
# Scalars in blocks

A block scalar is a text in lines of its own, all indented alike, behind a
header. A literal one keeps its line breaks. A folded one joins lines by spaces,
except next to lines that are empty or begin with a blank.
-/

import PlanNetwork.Wire.Scalar
import PlanNetwork.Wire.Yaml.Character

namespace PlanNetwork

namespace Yaml

/-- What becomes of the line breaks at the end of a block scalar. -/
inductive Ending where
  /-- They are dropped. -/
  | none
  /-- The first is kept. -/
  | one
  /-- All are kept. -/
  | all

/-- How a block scalar is to be read. -/
structure BlockHeader where
  /-- Whether line breaks are kept. -/
  isLiteral : Bool
  /-- What becomes of those at the end. -/
  ending : Ending
  /-- The indentation against the surrounding block, if it is given. -/
  indent : Option Nat

/-- The ending that a sign asks for. -/
def ending? : Char → Option Ending
  | '-' => some .none
  | '+' => some .all
  | _ => none

/-- The indentation that a digit asks for; zero cannot be asked for. -/
def indent? (c : Char) : Option Nat := (Scalar.digit? 10 c).filter (0 < ·)

/-- The header behind the mark of a block scalar, and the place behind the line
that it stands on. The sign and the digit may stand in either order. -/
def BlockHeader.scan (isLiteral : Bool) (place : Place) : Option (BlockHeader × Place) :=
  let first := place.rest.head?
  let second := (place.rest.drop 1).head?
  let (header, length) : BlockHeader × Nat :=
    match first.bind ending?, first.bind indent? with
    | some ending, _ =>
      match second.bind indent? with
      | some indent => (⟨isLiteral, ending, some indent⟩, 2)
      | none => (⟨isLiteral, ending, none⟩, 1)
    | none, some indent =>
      match second.bind ending? with
      | some ending => (⟨isLiteral, ending, some indent⟩, 2)
      | none => (⟨isLiteral, .one, some indent⟩, 1)
    | none, none => (⟨isLiteral, .one, none⟩, 0)
  ((place.skip length).endLine).map fun behind => (header, behind)

/-- A block scalar, as far as it has been read; texts are held back to front. -/
structure BlockText where
  /-- The column at which its lines begin, once it is known. -/
  indent : Option Nat
  /-- The largest column that has been reached by blanks alone. -/
  reached : Nat
  /-- The text up to the last line with something on it. -/
  said : List Char
  /-- The break that ends that line. -/
  first : Option Char
  /-- The breaks behind it. -/
  others : List Char
  /-- Whether that line begins with a blank. -/
  leadsBlank : Bool

namespace BlockText

/-- The beginning of a block scalar. -/
def start (indent : Option Nat) : BlockText := ⟨indent, 0, [], none, [], false⟩

/-- The text in front of a line that begins with `c`. -/
def joined (b : BlockText) (isLiteral : Bool) (c : Char) : List Char :=
  let folds := !isLiteral && b.first == some '\n' && !b.leadsBlank && !isBlank c
  if folds then b.others ++ (if b.others.isEmpty then [' '] else []) ++ b.said
  else b.others ++ b.first.toList ++ b.said

/-- The whole text. -/
def text (b : BlockText) (ending : Ending) : List Char :=
  match ending with
  | .none => b.said.reverse
  | .one => (b.first.toList ++ b.said).reverse
  | .all => (b.others ++ b.first.toList ++ b.said).reverse

/-- The column at which the lines begin: the given one, or else the largest that
was reached, but not less than `least`. -/
def column (b : BlockText) (least : Nat) : Nat :=
  b.indent.getD (max (max b.reached least) 1)

end BlockText

/-- The rest of a block scalar and the place behind it. Lines that do not give
their indentation stand at the column `least` or behind it. `inLine` says whether
a line has been begun; in front of one, tabs do not indent. -/
def scanBlock (header : BlockHeader) (least : Nat) (b : BlockText) (inLine : Bool)
    (line column : Nat) : List Char → Option (List Char × Place)
  | [] => some (b.text header.ending, ⟨line, column, []⟩)
  | c :: rest =>
    if inLine then
      if isBreak c then
        scanBlock header least { b with first := some c } false (line + 1) 0 rest
      else scanBlock header least { b with said := c :: b.said } true line (column + 1) rest
    else
      let isOutside := b.indent.all fun indent => decide (column < indent)
      if isOutside && c == ' ' then
        let reached := max b.reached (column + 1)
        scanBlock header least { b with reached } false line (column + 1) rest
      else if isOutside && c == '\t' then none
      else if isBreak c then
        scanBlock header least { b with others := c :: b.others } false (line + 1) 0 rest
      else
        let indent := b.column least
        if column = indent then
          let said := c :: b.joined header.isLiteral c
          scanBlock header least ⟨some indent, 0, said, none, [], isBlank c⟩ true line (column + 1)
            rest
        else some (b.text header.ending, ⟨line, column, c :: rest⟩)

end Yaml

end PlanNetwork
