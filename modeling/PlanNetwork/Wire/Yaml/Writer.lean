/-
# Writing YAML

Mappings and sequences are written as blocks, one scalar to a line. A text is
written without quotes unless it would then be read as something else: as
nothing, a truth value or a number, as a key, a comment or a collection, or
without the blanks at its ends. Then it stands in single quotes. A text of
several lines stands in a block of its own. In double quotes stands what has
characters that cannot stand by themselves, or blanks where none of the other
forms would keep them.
-/

import PlanNetwork.Wire.Decode
import PlanNetwork.Wire.Yaml.Plain

namespace PlanNetwork

namespace Yaml

/-! ## The forms of a text -/

/-- Whether a text without quotes would be read as that text where anything is
welcome. -/
def readsAsText (s : String) : Bool :=
  !Scalar.isPadded s &&
    match Scalar.resolve s with
    | some (.text _) => true
    | _ => false

/-- Whether a character can be written as it is. -/
def isPrintable (c : Char) : Bool :=
  let n := c.toNat
  c == '\n' || decide (0x20 ≤ n ∧ n ≤ 0x7E) ||
    decide (0xA0 ≤ n ∧ n ≠ 0xFEFF ∧ n ≠ 0xFFFE ∧ n ≠ 0xFFFF)

/-- Whether a colon or a number sign behind the first character ends a scalar. -/
def hasInnerMark : Bool → List Char → Bool
  | _, [] => false
  | afterGap, c :: rest =>
    c == ':' && endsWord rest || c == '#' && afterGap ||
      hasInnerMark (isBlank c || isBreak c) rest

/-- Whether a text begins like the mark of a document. -/
def beginsWithMark : List Char → Bool
  | '-' :: '-' :: '-' :: _ | '.' :: '.' :: '.' :: _ => true
  | _ => false

/-- Whether a text is one scalar without quotes. -/
def isPlainText (cs : List Char) : Bool :=
  startsPlain false cs && !hasInnerMark true cs && !cs.any isBreak && !beginsWithMark cs &&
    cs.head?.all (!isBlank ·) && cs.getLast?.all (!isBlank ·)

/-- Whether the first property holds of a character and the second of the next. -/
def hasPair (p q : Char → Bool) : List Char → Bool
  | c :: d :: rest => p c && q d || hasPair p q (d :: rest)
  | _ => false

/-- The ways to write a text. -/
inductive Form where
  /-- Without quotes. -/
  | plain
  /-- In single quotes. -/
  | single
  /-- In double quotes. -/
  | double
  /-- In lines of its own. -/
  | literal

/-- How a text is written. -/
def Form.of (s : String) : Form :=
  let cs := s.toList
  if !cs.all isPrintable || hasPair (· == ' ') isBreak cs then .double
  else if cs.contains '\n' then if cs.getLast? == some ' ' then .double else .literal
  else if hasPair isBreak (· == ' ') cs then .double
  else if readsAsText s && isPlainText cs then .plain
  else .single

/-! ## Texts -/

/-- Some spaces. -/
def spaces (count : Nat) : List Char := List.replicate count ' '

/-- A text whose lines behind the first begin at the column `indent`, if there
is anything on them; `afterBreak` says whether it begins with a line of its own.
Each character is written by `write`. -/
def indented (indent : Nat) (write : Char → List Char) : (afterBreak : Bool) → List Char → List Char
  | _, [] => []
  | afterBreak, c :: rest =>
    if isBreak c then c :: indented indent write true rest
    else (if afterBreak then spaces indent else []) ++ write c ++ indented indent write false rest

/-- A text in single quotes. -/
def singleText (indent : Nat) (cs : List Char) : List Char :=
  let body := indented indent (fun c => if c == '\x27' then [c, c] else [c]) false cs
  '\x27' :: body ++ (if cs.getLast?.any isBreak then spaces indent else []) ++ ['\x27']

/-- A character inside double quotes. -/
def escape (c : Char) : List Char :=
  if c == '\x22' then ['\\', '\x22']
  else if c == '\\' then ['\\', '\\']
  else if c == '\x00' then ['\\', '0']
  else if c == '\x07' then ['\\', 'a']
  else if c == '\x08' then ['\\', 'b']
  else if c == '\t' then ['\\', 't']
  else if c == '\n' then ['\\', 'n']
  else if c == '\x0b' then ['\\', 'v']
  else if c == '\x0c' then ['\\', 'f']
  else if c == '\r' then ['\\', 'r']
  else if c == '\x1b' then ['\\', 'e']
  else if c == '\u0085' then ['\\', 'N']
  else if c == '\u2028' then ['\\', 'L']
  else if c == '\u2029' then ['\\', 'P']
  else if isPrintable c then [c]
  else
    let digits := (Nat.toDigits 16 c.toNat).map Char.toUpper
    let (mark, width) :=
      if c.toNat ≤ 0xFF then ('x', 2) else if c.toNat ≤ 0xFFFF then ('u', 4) else ('U', 8)
    ['\\', mark] ++ List.replicate (width - digits.length) '0' ++ digits

/-- A text in double quotes. -/
def doubleText (cs : List Char) : List Char := '\x22' :: cs.flatMap escape ++ ['\x22']

/-- The header of a text in lines of its own. The indentation has to be given if
the first line does not show it. The sign says what becomes of the line breaks
at the end: there is none, or more than one, or nothing else. -/
def literalHeader (cs : List Char) : List Char :=
  let indent := if cs.head?.any fun c => c == ' ' || isBreak c then ['2'] else []
  let ending := match cs.reverse with
    | last :: others =>
      if !isBreak last then ['-'] else if others.head?.all isBreak then ['+'] else []
    | [] => ['-']
  '|' :: indent ++ ending

/-- A text in lines of its own, behind its header. -/
def literalText (indent : Nat) (cs : List Char) : List Char :=
  literalHeader cs ++ '\n' :: indented indent (fun c => [c]) true cs ++
    (if cs.getLast?.any isBreak then [] else ['\n'])

/-- A text up to the end of its last line; lines behind the first begin at the
column `indent`. -/
def textLines (indent : Nat) (s : String) : List Char :=
  let cs := s.toList
  match Form.of s with
  | .plain => cs ++ ['\n']
  | .single => singleText indent cs ++ ['\n']
  | .double => doubleText cs ++ ['\n']
  | .literal => literalText indent cs

/-- A text as a key, which has one line. -/
def keyText (s : String) : List Char :=
  match Form.of s with
  | .plain => s.toList
  | .single => singleText 0 s.toList
  | _ => doubleText s.toList

/-! ## Trees -/

mutual

/-- A node behind a dash at the column `indent`, up to the end of its last line. -/
def itemLines (indent : Nat) : Tree → List Char
  | .array (x :: xs) | .list (x :: xs) =>
    ['-', ' '] ++ itemLines (indent + 2) x ++ itemsLines (indent + 2) xs
  | .map ((key, x) :: fields) =>
    keyText (key.asText.getD "") ++ ':' :: valueLines (indent + 2) x ++
      fieldsLines (indent + 2) fields
  | tree => scalarLines (indent + 2) tree

/-- A node behind the colon of a key at the column `indent`, up to the end of its
last line. A sequence is not indented against its key. -/
def valueLines (indent : Nat) : Tree → List Char
  | .array (x :: xs) | .list (x :: xs) =>
    '\n' :: spaces indent ++ ['-', ' '] ++ itemLines indent x ++ itemsLines indent xs
  | .map ((key, x) :: fields) =>
    '\n' :: spaces (indent + 2) ++ keyText (key.asText.getD "") ++
      ':' :: valueLines (indent + 2) x ++ fieldsLines (indent + 2) fields
  | tree => ' ' :: scalarLines (indent + 2) tree

/-- The items of a sequence at the column `indent`. -/
def itemsLines (indent : Nat) : List Tree → List Char
  | [] => []
  | x :: xs => spaces indent ++ ['-', ' '] ++ itemLines indent x ++ itemsLines indent xs

/-- The fields of a mapping at the column `indent`. -/
def fieldsLines (indent : Nat) : List (Tree × Tree) → List Char
  | [] => []
  | (key, x) :: fields =>
    spaces indent ++ keyText (key.asText.getD "") ++ ':' :: valueLines indent x ++
      fieldsLines indent fields

/-- A node that is no collection, or an empty one. -/
def scalarLines (indent : Nat) : Tree → List Char
  | .bool b => (if b then "true" else "false").toList ++ ['\n']
  | .whole n => (toString n).toList ++ ['\n']
  | .number x => (x.render .data).toList ++ ['\n']
  | .text s | .plain s | .literal s => textLines indent s
  | .tagged _ node => scalarLines indent node
  | .array _ | .list _ => ['[', ']', '\n']
  | .map _ => ['\x7b', '\x7d', '\n']
  | _ => "null\n".toList

end

/-- The text of a tree. -/
def render (tree : Tree) : String :=
  String.ofList <|
    match tree with
    | .array (x :: xs) | .list (x :: xs) => itemsLines 0 (x :: xs)
    | .map fields@(_ :: _) => fieldsLines 0 fields
    | tree => scalarLines 2 tree

end Yaml

end PlanNetwork
