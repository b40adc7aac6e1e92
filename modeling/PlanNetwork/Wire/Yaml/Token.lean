/-
# The tokens of a YAML text

Indentation and keys are made explicit here. A block collection begins where a
line is indented further than the block around it, and ends where a line is
indented less. What is a key shows only at the colon behind it: until then the
place where it began is remembered, and the tokens that announce a key are put
in there afterwards. A key stands on one line and is not too long.

At most one key can be under way in a block, and one more for each bracket that
is open. Where a line of a mapping begins, one has to follow.
-/

import PlanNetwork.Wire.Yaml.Block
import PlanNetwork.Wire.Yaml.Plain
import PlanNetwork.Wire.Yaml.Property
import PlanNetwork.Wire.Yaml.Quoted

namespace PlanNetwork

namespace Yaml

/-- A token. -/
inductive Token where
  /-- A directive. -/
  | directive (content : Directive)
  /-- The mark in front of a document. -/
  | documentStart
  /-- The mark behind a document. -/
  | documentEnd
  /-- The beginning of a block sequence. -/
  | openItems
  /-- The beginning of a block mapping. -/
  | openFields
  /-- The end of a block. -/
  | closeBlock
  /-- An opening bracket. -/
  | openBracket
  /-- A closing bracket. -/
  | closeBracket
  /-- An opening brace. -/
  | openBrace
  /-- A closing brace. -/
  | closeBrace
  /-- A dash in front of an item. -/
  | item
  /-- A comma. -/
  | comma
  /-- The beginning of a key. -/
  | key
  /-- A colon in front of a value. -/
  | value
  /-- A node that stands elsewhere. -/
  | alias (name : String)
  /-- A name for the node behind it. -/
  | anchor (name : String)
  /-- A tag for the node behind it. -/
  | tag (content : TagText)
  /-- A scalar. -/
  | scalar (content : Tree)

/-- A place where a key may have begun. -/
structure Candidate where
  /-- How many tokens are in front of it. -/
  position : Nat
  /-- Its line. -/
  line : Nat
  /-- Its column. -/
  column : Nat
  /-- Whether there has to be a key. -/
  isRequired : Bool

/-- How many characters a key may have. -/
def keyLimit : Nat := 1024

/-- Whether what is found at a place comes too late to end a key. -/
def Candidate.isStale (candidate : Candidate) (place : Place) : Bool :=
  decide (candidate.line < place.line) || decide (candidate.column + keyLimit < place.column)

/-- A text that has been cut into tokens in part. -/
structure Lexer where
  /-- Where it goes on. -/
  place : Place
  /-- The tokens so far, the last one in front. -/
  tokens : List Token
  /-- How many there are. -/
  count : Nat
  /-- The columns of the blocks that are open, the innermost in front. -/
  indents : List Nat
  /-- Whether a key may begin here. -/
  allowsKey : Bool
  /-- Where a key may be under way, inside the innermost open bracket. -/
  candidate : Option Candidate
  /-- The same outside each open bracket, the innermost in front. -/
  outer : List (Option Candidate)

namespace Lexer

/-- The beginning of a text. -/
def start (text : List Char) : Lexer :=
  { place := .start text, tokens := [], count := 0, indents := [], allowsKey := true,
    candidate := none, outer := [] }

/-- Whether a bracket is open. -/
def inFlow (s : Lexer) : Bool := !s.outer.isEmpty

/-- One more token. -/
def push (s : Lexer) (token : Token) : Lexer :=
  { s with tokens := token :: s.tokens, count := s.count + 1 }

/-- One more token, in front of which there are `position` others. -/
def insert (s : Lexer) (position : Nat) (token : Token) : Lexer :=
  let behind := s.count - position
  { s with
    tokens := s.tokens.take behind ++ token :: s.tokens.drop behind
    count := s.count + 1 }

/-- A token of `length` characters, after which a key may begin or not. -/
def mark (s : Lexer) (token : Token) (length : Nat) (allowsKey : Bool) : Lexer :=
  { s.push token with place := s.place.skip length, allowsKey }

/-! ## Blocks -/

/-- The first column that is inside the innermost open block. -/
def least (s : Lexer) : Nat := (s.indents.head?.map (· + 1)).getD 0

/-- A block at a column inside the innermost open one is opened by a token at
`position`. There are no blocks in brackets. -/
def openBlock (s : Lexer) (column position : Nat) (token : Token) : Lexer :=
  if s.inFlow || decide (column < s.least) then s
  else { s.insert position token with indents := column :: s.indents }

/-- The blocks in front of whose columns something stands are closed. -/
def closeBlocks (s : Lexer) (isBehind : Nat → Bool) : Lexer :=
  if s.inFlow then s
  else
    let closed := (s.indents.takeWhile (!isBehind ·)).length
    { s with
      tokens := List.replicate closed .closeBlock ++ s.tokens
      count := s.count + closed
      indents := s.indents.drop closed }

/-! ## Keys -/

/-- No key is under way any more; refused if there had to be one. -/
def dropKey (s : Lexer) : Option Lexer :=
  if s.candidate.any (·.isRequired) then none else some { s with candidate := none }

/-- A key may begin here. -/
def noteKey (s : Lexer) : Option Lexer :=
  if s.allowsKey then
    s.dropKey.map fun s =>
      let isRequired := !s.inFlow && s.indents.head? == some s.place.column
      { s with candidate := some ⟨s.count, s.place.line, s.place.column, isRequired⟩ }
  else some s

/-- A key that has not ended in time is none; refused if there had to be one. -/
def dropStaleKeys (s : Lexer) : Option Lexer :=
  let isStale := fun (candidate : Candidate) => candidate.isStale s.place
  let isLost := fun (candidate : Option Candidate) =>
    candidate.any fun candidate => candidate.isRequired && isStale candidate
  if isLost s.candidate || s.outer.any isLost then none
  else
    let keep := fun (candidate : Option Candidate) => candidate.filter (!isStale ·)
    some { s with candidate := keep s.candidate, outer := s.outer.map keep }

/-! ## Single tokens -/

/-- A directive, which no block reaches across. -/
def directive (s : Lexer) : Option Lexer :=
  (s.closeBlocks fun _ => false).dropKey.bind fun s =>
    (Directive.scan (s.place.skip 1)).map fun (directive, place) =>
      { s.push (.directive directive) with place, allowsKey := false }

/-- A mark between documents, which no block reaches across. -/
def separator (s : Lexer) (token : Token) : Option Lexer :=
  (s.closeBlocks fun _ => false).dropKey.map fun s => s.mark token 3 false

/-- An opening bracket, which may begin a key. -/
def openFlow (s : Lexer) (token : Token) : Option Lexer :=
  s.noteKey.map fun s =>
    { s.mark token 1 true with candidate := none, outer := s.candidate :: s.outer }

/-- A closing bracket. -/
def closeFlow (s : Lexer) (token : Token) : Option Lexer :=
  s.dropKey.map fun s =>
    { s.mark token 1 false with candidate := s.outer.head?.join, outer := s.outer.tail }

/-- A comma. -/
def comma (s : Lexer) : Option Lexer := s.dropKey.map fun s => s.mark .comma 1 true

/-- A dash in front of an item. -/
def item (s : Lexer) : Option Lexer :=
  if !s.inFlow && !s.allowsKey then none
  else (s.openBlock s.place.column s.count .openItems).dropKey.map fun s => s.mark .item 1 true

/-- A mark in front of a key. -/
def key (s : Lexer) : Option Lexer :=
  if !s.inFlow && !s.allowsKey then none
  else
    (s.openBlock s.place.column s.count .openFields).dropKey.map fun s => s.mark .key 1 !s.inFlow

/-- A colon in front of a value. It ends the key that is under way, if any. -/
def value (s : Lexer) : Option Lexer :=
  match s.candidate with
  | some candidate =>
    let s := s.insert candidate.position .key
    let s := s.openBlock candidate.column candidate.position .openFields
    some ({ s with candidate := none }.mark .value 1 false)
  | none =>
    if !s.inFlow && !s.allowsKey then none
    else some ((s.openBlock s.place.column s.count .openFields).mark .value 1 !s.inFlow)

/-- A token that may begin a key and ends where `read` says. -/
def atom (s : Lexer) (read : Lexer → Option (Token × Place)) : Option Lexer :=
  s.noteKey.bind fun s =>
    (read s).map fun (token, place) => { s.push token with place, allowsKey := false }

/-- A name behind its mark. -/
def name (s : Lexer) (token : String → Token) : Option Lexer :=
  s.atom fun s => (scanName (s.place.skip 1)).map fun (name, place) => (token name, place)

/-- A tag. -/
def tag (s : Lexer) : Option Lexer :=
  s.atom fun s => (TagText.scan s.inFlow s.place).map fun (tag, place) => (.tag tag, place)

/-- A scalar in single quotes. -/
def single (s : Lexer) : Option Lexer :=
  s.atom fun s =>
    (scanSingle [] Gap.none s.place.line (s.place.column + 1) (s.place.rest.drop 1)).map
      fun (text, place) => (.scalar (.text (String.ofList text)), place)

/-- A scalar in double quotes. -/
def double (s : Lexer) : Option Lexer :=
  s.atom fun s =>
    (scanDouble .anything [] Gap.none s.place.line (s.place.column + 1) (s.place.rest.drop 1)).map
      fun (text, place) => (.scalar (.text (String.ofList text)), place)

/-- A scalar without quotes. If it has taken in the end of its line, a key may
begin behind it. -/
def plain (s : Lexer) : Option Lexer :=
  if startsPlain s.inFlow s.place.rest then
    s.noteKey.bind fun s =>
      (scanPlain s.inFlow s.least [] Gap.none s.place.line s.place.column s.place.rest).map
        fun plain =>
          { s.push (.scalar (.plain (String.ofList plain.text))) with
            place := plain.behind, allowsKey := plain.endsLine }
  else none

/-- A block scalar, which there is none of in brackets. A key may begin behind it. -/
def block (s : Lexer) (isLiteral : Bool) : Option Lexer :=
  if s.inFlow then none
  else
    s.dropKey.bind fun s =>
      (BlockHeader.scan isLiteral (s.place.skip 1)).bind fun (header, place) =>
        let indent := header.indent.map (s.indents.headD 0 + ·)
        (scanBlock header s.least (.start indent) false place.line place.column place.rest).map
          fun (text, place) =>
            let scalar := if isLiteral then Tree.literal (String.ofList text)
              else .text (String.ofList text)
            { s.push (.scalar scalar) with place, allowsKey := true }

/-- The token that begins with a character, which has `rest` behind it. -/
def token (s : Lexer) (c : Char) (rest : List Char) : Option Lexer :=
  if s.place.column == 0 && c == '%' then s.directive
  else if isSeparator s.place.column (c :: rest) then
    s.separator (if c == '-' then .documentStart else .documentEnd)
  else match c with
    | '[' => s.openFlow .openBracket
    | '\x7b' => s.openFlow .openBrace
    | ']' => s.closeFlow .closeBracket
    | '\x7d' => s.closeFlow .closeBrace
    | ',' => s.comma
    | '-' => if endsWord rest then s.item else s.plain
    | '?' => if s.inFlow || endsWord rest then s.key else s.plain
    | ':' => if s.inFlow || endsWord rest then s.value else s.plain
    | '*' => s.name .alias
    | '&' => s.name .anchor
    | '!' => s.tag
    | '|' => s.block true
    | '>' => s.block false
    | '\x27' => s.single
    | '\x22' => s.double
    | _ => s.plain

/-! ## Whole texts -/

/-- The next place where a token may begin, and whether a key may begin there.
Tabs must not indent a block. In front of a line a byte order mark is passed
over. -/
def skipGap (flow allowsKey inComment : Bool) (line column : Nat) : List Char → Place × Bool
  | [] => (⟨line, column, []⟩, allowsKey)
  | c :: rest =>
    if isBreak c then skipGap flow (allowsKey || !flow) false (line + 1) 0 rest
    else if inComment then skipGap flow allowsKey true line (column + 1) rest
    else if c == '#' then skipGap flow allowsKey true line (column + 1) rest
    else if c == ' ' || c == '\t' && (flow || !allowsKey) || c == '\ufeff' && column == 0 then
      skipGap flow allowsKey false line (column + 1) rest
    else (⟨line, column, c :: rest⟩, allowsKey)

/-- The place of the next token, with the keys and blocks that end in front of
it. -/
def advance (s : Lexer) : Option Lexer :=
  let (place, allowsKey) :=
    skipGap s.inFlow s.allowsKey false s.place.line s.place.column s.place.rest
  let s := { s with place, allowsKey }
  s.dropStaleKeys.map fun s => s.closeBlocks fun column => decide (column ≤ s.place.column)

/-- The end of a text, which ends all blocks. -/
def finish (s : Lexer) : Option Lexer := (s.closeBlocks fun _ => false).dropKey

/-- All tokens of a text; each costs one of `fuel`. -/
def run : Nat → Lexer → Option Lexer
  | 0, _ => none
  | fuel + 1, s =>
    s.advance.bind fun s =>
      match s.place.rest with
      | [] => s.finish
      | c :: rest => (s.token c rest).bind fun s => run fuel s

end Lexer

/-- The tokens of a text. -/
def tokens (text : String) : Option (List Token) :=
  if text.toList.all isAllowed then
    let text := plainBreaks text.toList
    ((Lexer.start text).run (text.length + 1)).map fun s => s.tokens.reverse
  else none

end Yaml

end PlanNetwork
