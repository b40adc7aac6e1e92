/-
# Anchors, tags and directives

In front of a node may stand an anchor, by which it is named, and a tag, by which
its kind is given. Directives in front of a document declare the version of the
format and short forms for tags.
-/

import PlanNetwork.Wire.Scalar
import PlanNetwork.Wire.Yaml.Character

namespace PlanNetwork

namespace Yaml

/-- The name behind the mark of an anchor or an alias, and the place behind it. -/
def scanName (place : Place) : Option (String × Place) :=
  let name := place.rest.takeWhile isNameChar
  let behind := place.skip name.length
  let ends := endsWord behind.rest || behind.rest.head?.any fun c =>
    ['?', ':', ',', ']', '\x7d', '%', '@', '\x60'].contains c
  if name.isEmpty || !ends then none else some (String.ofList name, behind)

/-- The marks that may stand in every tag. -/
def tagMarks : List Char :=
  [';', '/', '?', ':', '@', '&', '=', '+', '$', '.', '%', '!', '~', '*', '\x27', '(', ')']

/-- The characters of tags. Some more are welcome where brackets mark the end. -/
def isTagChar (inBrackets : Bool) (c : Char) : Bool :=
  isNameChar c || tagMarks.contains c || inBrackets && [',', '[', ']'].contains c

/-- How many octets follow the first one of a character, and what that one
contributes. -/
def leadingOctet (n : Nat) : Option (Nat × Nat) :=
  if n < 0x80 then some (0, n)
  else if 0xC0 ≤ n ∧ n < 0xE0 then some (1, n - 0xC0)
  else if 0xE0 ≤ n ∧ n < 0xF0 then some (2, n - 0xE0)
  else if 0xF0 ≤ n ∧ n < 0xF8 then some (3, n - 0xF0)
  else none

/-- A tag in which octets are written behind percent signs; `left` of them are
still missing from a character that begins like `value`. -/
def unescapeTag (left value : Nat) : List Char → Option (List Char)
  | '%' :: a :: b :: rest =>
    (Scalar.digits? 16 [a, b]).bind fun octet =>
      let found :=
        if left = 0 then leadingOctet octet
        else if 0x80 ≤ octet ∧ octet < 0xC0 then some (left - 1, 64 * value + (octet - 0x80))
        else none
      found.bind fun (left, value) =>
        if left = 0 then (unescapeTag 0 0 rest).map (Char.ofNat value :: ·)
        else unescapeTag left value rest
  | c :: rest =>
    if c == '%' || left != 0 then none else (unescapeTag 0 0 rest).map (c :: ·)
  | [] => if left = 0 then some [] else none

/-- The longest tag text at a place, and the place behind it. -/
def scanTagText (inBrackets : Bool) (place : Place) : Option (List Char × Place) :=
  let text := place.rest.takeWhile (isTagChar inBrackets)
  (unescapeTag 0 0 text).map fun tag => (tag, place.skip text.length)

/-- A handle at a place, an exclamation mark, and what stands up to the next
one, with the place behind it. Without a second mark it is not closed. -/
def scanHandle (place : Place) : Option (List Char × Bool × Place) :=
  match place.rest with
  | '!' :: rest =>
    let name := rest.takeWhile isNameChar
    let behind := place.skip (name.length + 1)
    match behind.rest with
    | '!' :: _ => some ('!' :: name ++ ['!'], true, behind.skip 1)
    | _ => some ('!' :: name, false, behind)
  | _ => none

/-- A tag as it is written: the handle that its short form begins with, and the
rest. A full form has no handle. -/
structure TagText where
  /-- The handle. -/
  handle : String
  /-- What stands behind it. -/
  rest : String
deriving DecidableEq

/-- A tag in full, between angle brackets behind its first character. -/
def TagText.scanFull (place : Place) : Option (TagText × Place) :=
  (scanTagText true place).bind fun (text, behind) =>
    if text.isEmpty || behind.rest.head? != some '>' then none
    else some (⟨"", String.ofList text⟩, behind.skip 1)

/-- A tag in short form. A mark alone is a tag in full. -/
def TagText.scanShort (place : Place) : Option (TagText × Place) :=
  (scanHandle place).bind fun (handle, isClosed, behind) =>
    (scanTagText false behind).bind fun (text, behind) =>
      if isClosed then
        if text.isEmpty then none else some (⟨String.ofList handle, String.ofList text⟩, behind)
      else
        let text := handle.drop 1 ++ text
        some (if text.isEmpty then ⟨"", "!"⟩ else ⟨"!", String.ofList text⟩, behind)

/-- A tag at its first character, and the place behind it. -/
def TagText.scan (flow : Bool) (place : Place) : Option (TagText × Place) :=
  let found := match place.rest with
    | '!' :: '<' :: _ => scanFull (place.skip 2)
    | _ => scanShort place
  found.filter fun (_, behind) => endsWord behind.rest || flow && behind.rest.head? == some ','

/-- A directive. -/
inductive Directive where
  /-- The version of the format. -/
  | version (major minor : Nat)
  /-- What a handle stands for. -/
  | handle (name stem : String)

namespace Directive

/-- A part of a version, of nine digits at most, and the place behind it. -/
def scanPart (place : Place) : Option (Nat × Place) :=
  let digits := place.rest.takeWhile Char.isDigit
  if digits.length ≤ 9 then
    (Scalar.digits? 10 digits).map fun n => (n, place.skip digits.length)
  else none

/-- A version, and the place behind it. -/
def scanVersion (place : Place) : Option (Directive × Place) :=
  (scanPart place).bind fun (major, behind) =>
    if behind.rest.head? == some '.' then
      (scanPart (behind.skip 1)).map fun (minor, behind) => (version major minor, behind)
    else none

/-- A handle and what it stands for, and the place behind that. -/
def scanTagHandle (place : Place) : Option (Directive × Place) :=
  (scanHandle place).bind fun (name, isClosed, behind) =>
    if !isClosed && name != ['!'] || !behind.rest.head?.any isBlank then none
    else (scanTagText true (behind.skipWhile isBlank)).bind fun (stem, behind) =>
      if stem.isEmpty || !endsWord behind.rest then none
      else some (handle (String.ofList name) (String.ofList stem), behind)

/-- A directive behind its mark, and the place behind the line that it stands on. -/
def scan (place : Place) : Option (Directive × Place) :=
  let name := place.rest.takeWhile isNameChar
  let behind := place.skip name.length
  let found :=
    if !endsWord behind.rest then none
    else if name == ['Y', 'A', 'M', 'L'] then scanVersion (behind.skipWhile isBlank)
    else if name == ['T', 'A', 'G'] then scanTagHandle (behind.skipWhile isBlank)
    else none
  found.bind fun (directive, behind) => behind.endLine.map fun behind => (directive, behind)

end Directive

end Yaml

end PlanNetwork
