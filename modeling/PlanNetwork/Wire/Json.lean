/-
# Reading and writing JSON

The reader takes exactly one value. A number that no double is near to, half of a
surrogate pair and what is nested too deeply have no value, but they are well
formed and can be passed over. Repeated keys are kept; what becomes of them is
for the reader of the tree to decide.

The writer gives numbers their shortest form, and writes `null` for those that
JSON cannot write.
-/

import PlanNetwork.Wire.Decode

namespace PlanNetwork

namespace Json

/-- The text behind white space. -/
def skip (cs : List Char) : List Char :=
  cs.dropWhile fun c => c == ' ' || c == '\n' || c == '\t' || c == '\r'

/-- The character that a letter stands for behind a backslash. -/
def unescape? : Char → Option Char
  | '\x22' => some '\x22'
  | '\\' => some '\\'
  | '/' => some '/'
  | 'b' => some '\x08'
  | 'f' => some '\x0c'
  | 'n' => some '\n'
  | 'r' => some '\r'
  | 't' => some '\t'
  | _ => none

/-- The code unit that four hexadecimal digits stand for. -/
def unit? (a b c d : Char) : Option Nat := Scalar.digits? 16 [a, b, c, d]

/-- A piece of a text in quotes: a character, or a code unit written by its
number. -/
abbrev Piece := Char ⊕ Nat

/-- The pieces up to the closing quote, and the text behind it. -/
def pieces : List Char → Option (List Piece × List Char)
  | [] => none
  | '\x22' :: rest => some ([], rest)
  | '\\' :: 'u' :: a :: b :: c :: d :: rest =>
    (unit? a b c d).bind fun n => (pieces rest).map fun (ps, r) => (.inr n :: ps, r)
  | '\\' :: c :: rest =>
    (unescape? c).bind fun x => (pieces rest).map fun (ps, r) => (.inl x :: ps, r)
  | c :: rest =>
    if c.toNat < 0x20 then none else (pieces rest).map fun (ps, r) => (.inl c :: ps, r)

/-- The characters of some pieces. The two halves of a surrogate pair have to
follow each other directly. -/
def joined : List Piece → Option (List Char)
  | [] => some []
  | .inl c :: rest => (joined rest).map (c :: ·)
  | .inr high :: rest =>
    if high < 0xD800 ∨ 0xE000 ≤ high then (joined rest).map (Char.ofNat high :: ·)
    else match rest with
      | .inr low :: rest =>
        if high < 0xDC00 ∧ 0xDC00 ≤ low ∧ low < 0xE000 then
          (joined rest).map (Char.ofNat (0x10000 + (high - 0xD800) * 0x400 + (low - 0xDC00)) :: ·)
        else none
      | _ => none

/-- A text behind its opening quote, and the text behind it. -/
def string (cs : List Char) : Option (Tree × List Char) :=
  (pieces cs).map fun (ps, rest) =>
    ((joined ps).elim .unreadable fun s => .text (String.ofList s), rest)

/-- Whether a numeral has the digits that JSON wants: no zero in front of
others, and digits on both sides of a point. -/
def isWellFormed (n : Numeral) : Bool :=
  (match n.whole with
    | [] => false
    | '0' :: _ :: _ => false
    | _ => true) &&
  n.fraction.all (!·.isEmpty)

/-- A number, and the text behind it. -/
def number (cs : List Char) : Option (Tree × List Char) :=
  let (negative, body) := match cs with
    | '-' :: body => (true, body)
    | body => (false, body)
  match Numeral.scan body with
  | none => none
  | some (numeral, rest) =>
    if !isWellFormed numeral then none
    else
      let value := Numeral.digitsValue numeral.whole
      if numeral.isWhole && !negative && decide (value < Number.twoTo 64) then
        some (.whole value, rest)
      else
        let x := numeral.toNumber negative
        some (if x.isFinite then .number x else .unreadable, rest)

/-- How many arrays and objects may stand inside each other. -/
def depthLimit : Nat := 127

/-- An array or an object inside `depth` others. -/
def nested (depth : Nat) (tree : Tree) : Tree := if depth < depthLimit then tree else .unreadable

mutual

/-- A value inside `depth` arrays and objects, and the text behind it; each
nested value costs one of `fuel`. -/
def value : Nat → Nat → List Char → Option (Tree × List Char)
  | 0, _, _ => none
  | fuel + 1, depth, cs =>
    match skip cs with
    | 'n' :: 'u' :: 'l' :: 'l' :: rest => some (.null, rest)
    | 't' :: 'r' :: 'u' :: 'e' :: rest => some (.bool true, rest)
    | 'f' :: 'a' :: 'l' :: 's' :: 'e' :: rest => some (.bool false, rest)
    | '\x22' :: rest => string rest
    | '[' :: rest =>
      match skip rest with
      | ']' :: rest => some (nested depth (.array []), rest)
      | rest => (items fuel (depth + 1) rest).map fun (xs, r) => (nested depth (.array xs), r)
    | '\x7b' :: rest =>
      match skip rest with
      | '\x7d' :: rest => some (nested depth (.map []), rest)
      | rest => (fields fuel (depth + 1) rest).map fun (xs, r) => (nested depth (.map xs), r)
    | cs => number cs

/-- The values up to a closing bracket. -/
def items : Nat → Nat → List Char → Option (List Tree × List Char)
  | 0, _, _ => none
  | fuel + 1, depth, cs =>
    match value fuel depth cs with
    | none => none
    | some (x, rest) =>
      match skip rest with
      | ']' :: rest => some ([x], rest)
      | ',' :: rest => (items fuel depth rest).map fun (xs, r) => (x :: xs, r)
      | _ => none

/-- The fields up to a closing brace. -/
def fields : Nat → Nat → List Char → Option (List (Tree × Tree) × List Char)
  | 0, _, _ => none
  | fuel + 1, depth, cs =>
    match skip cs with
    | '\x22' :: rest =>
      match string rest with
      | none => none
      | some (key, rest) =>
        match skip rest with
        | ':' :: rest =>
          match value fuel depth rest with
          | none => none
          | some (x, rest) =>
            match skip rest with
            | '\x7d' :: rest => some ([(key, x)], rest)
            | ',' :: rest => (fields fuel depth rest).map fun (xs, r) => ((key, x) :: xs, r)
            | _ => none
        | _ => none
    | _ => none

end

/-- The tree of a text that is one JSON value. -/
def parse (text : String) : Option Tree :=
  let cs := text.toList
  match value (2 * cs.length + 2) 0 cs with
  | some (tree, rest) => if (skip rest).isEmpty then some tree else none
  | none => none

/-! ## Writing -/

/-- A character inside quotes. -/
def escape (c : Char) : List Char :=
  if c == '\x22' then ['\\', '\x22']
  else if c == '\\' then ['\\', '\\']
  else if c == '\n' then ['\\', 'n']
  else if c == '\r' then ['\\', 'r']
  else if c == '\t' then ['\\', 't']
  else if c == '\x08' then ['\\', 'b']
  else if c == '\x0c' then ['\\', 'f']
  else if c.toNat < 0x20 then
    let digits := Nat.toDigits 16 c.toNat
    ['\\', 'u'] ++ List.replicate (4 - digits.length) '0' ++ digits
  else [c]

/-- A text in quotes. -/
def quoted (s : String) : String := "\"" ++ String.ofList (s.toList.flatMap escape) ++ "\""

/-- A number, or `null` where JSON has none. -/
def numberText (x : Number) : String := if x.isFinite then x.render .data else "null"

mutual

/-- The text of a tree. -/
def render : Tree → String
  | .blank | .null | .unreadable => "null"
  | .bool b => if b then "true" else "false"
  | .whole n => toString n
  | .number x => numberText x
  | .text s | .plain s | .literal s => quoted s
  | .array xs | .list xs => "[" ++ ",".intercalate (renderItems xs) ++ "]"
  | .map fs => "\x7b" ++ ",".intercalate (renderFields fs) ++ "\x7d"
  | .tagged _ node => render node

/-- The texts of some trees. -/
def renderItems : List Tree → List String
  | [] => []
  | x :: xs => render x :: renderItems xs

/-- The texts of some fields. -/
def renderFields : List (Tree × Tree) → List String
  | [] => []
  | (key, x) :: xs => (quoted (key.asText.getD "") ++ ":" ++ render x) :: renderFields xs

end

end Json

end PlanNetwork
