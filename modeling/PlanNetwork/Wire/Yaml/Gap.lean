/-
# Gaps between words

A scalar may go on over several lines. What stands between two of its words is
kept if they are on one line. Otherwise the line breaks count: a single one
becomes a space, and of several the first is dropped. Separators of lines and
paragraphs are kept wherever they stand.
-/

import PlanNetwork.Wire.Yaml.Character

namespace PlanNetwork

namespace Yaml

/-- What has been read since the last word; texts are held back to front. -/
inductive Gap where
  /-- Blanks on one line. -/
  | blanks (text : List Char)
  /-- A line break, which is absent if it was taken away by an escape, and the
  breaks behind it. -/
  | breaks (first : Option Char) (others : List Char)

namespace Gap

/-- No gap at all. -/
def none : Gap := .blanks []

/-- Whether there is no gap. -/
def isNone : Gap → Bool
  | .blanks [] => true
  | _ => false

/-- Whether the gap reaches into another line. -/
def isBroken : Gap → Bool
  | .blanks _ => false
  | .breaks _ _ => true

/-- A gap and a character that separates words behind it. -/
def push (gap : Gap) (c : Char) : Gap :=
  match gap with
  | .blanks text => if isBreak c then .breaks (some c) [] else .blanks (c :: text)
  | .breaks first others => if isBreak c then .breaks first (c :: others) else gap

/-- What a gap adds to the text in front of it, both back to front. -/
def onto (gap : Gap) (said : List Char) : List Char :=
  match gap with
  | .blanks text => text ++ said
  | .breaks (some '\n') [] => ' ' :: said
  | .breaks (some '\n') others => others ++ said
  | .breaks (some c) others => others ++ c :: said
  | .breaks Option.none others => others ++ said

end Gap

end Yaml

end PlanNetwork
