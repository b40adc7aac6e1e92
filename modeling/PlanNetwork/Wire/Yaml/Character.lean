/-
# The characters of YAML

Which characters a YAML text may hold, which of them end lines and words, and
places in a text.
-/

namespace PlanNetwork

namespace Yaml

/-- Whether a character may stand in a text as it is. -/
def isAllowed (c : Char) : Bool :=
  let n := c.toNat
  n == 0x9 || n == 0xA || n == 0xD || n == 0x85 || decide (0x20 ≤ n ∧ n ≤ 0x7E) ||
    decide (0xA0 ≤ n ∧ n ≤ 0xFFFD) || decide (0x10000 ≤ n)

/-- A text in which the usual line breaks are all the same. The two separators
of lines and paragraphs stay as they are, since a text keeps them. -/
def plainBreaks : List Char → List Char
  | [] => []
  | '\r' :: '\n' :: rest => '\n' :: plainBreaks rest
  | c :: rest => (if c == '\r' || c == '\u0085' then '\n' else c) :: plainBreaks rest

/-- Whether a character separates words within a line. -/
def isBlank (c : Char) : Bool := c == ' ' || c == '\t'

/-- Whether a character ends a line. -/
def isBreak (c : Char) : Bool := c == '\n' || c == '\u2028' || c == '\u2029'

/-- Whether a word ends in front of the text. -/
def endsWord : List Char → Bool
  | [] => true
  | c :: _ => isBlank c || isBreak c

/-- The characters of names. -/
def isNameChar (c : Char) : Bool := c.isAlphanum || c == '-' || c == '_'

/-- The characters with a meaning inside flow collections. -/
def isFlowMark (c : Char) : Bool := [',', '[', ']', '\x7b', '\x7d'].contains c

/-- Whether three dots or dashes stand by themselves at the start of a line,
where they separate documents. -/
def isSeparator (column : Nat) : List Char → Bool
  | '-' :: '-' :: '-' :: rest | '.' :: '.' :: '.' :: rest => column == 0 && endsWord rest
  | _ => false

/-- A place in a text. -/
structure Place where
  /-- How many lines are behind it. -/
  line : Nat
  /-- How many characters of its own line are behind it. -/
  column : Nat
  /-- What is still to be read. -/
  rest : List Char

namespace Place

/-- The start of a text. -/
def start (text : List Char) : Place := ⟨0, 0, text⟩

/-- A place further along the same line. -/
def skip (place : Place) (count : Nat) : Place :=
  ⟨place.line, place.column + count, place.rest.drop count⟩

/-- The place behind all characters of one kind, none of which ends a line. -/
def skipWhile (place : Place) (p : Char → Bool) : Place :=
  place.skip (place.rest.takeWhile p).length

/-- The place behind the blanks, the comment and the line break that end a line;
nothing if something else stands there. -/
def endLine (place : Place) : Option Place :=
  let place := place.skipWhile isBlank
  let place := match place.rest with
    | '#' :: _ => place.skipWhile (!isBreak ·)
    | _ => place
  match place.rest with
  | [] => some place
  | c :: rest => if isBreak c then some ⟨place.line + 1, 0, rest⟩ else none

end Place

end Yaml

end PlanNetwork
