/-
# Scalars without quotes

A scalar without quotes begins with a character that means nothing else there
and goes on, over lines that are indented far enough, up to a comment, a colon
in front of a gap, or inside brackets one of their marks.
-/

import PlanNetwork.Wire.Yaml.Gap

namespace PlanNetwork

namespace Yaml

/-- The characters that no scalar without quotes begins with. -/
def isIndicator (c : Char) : Bool :=
  isFlowMark c ||
    ['#', '&', '*', '!', '|', '>', '\x27', '\x22', '%', '@', '\x60'].contains c

/-- Whether a scalar without quotes can begin like this. -/
def startsPlain (flow : Bool) : List Char → Bool
  | [] => false
  | c :: rest =>
    if c == '-' then !endsWord rest
    else if c == '?' || c == ':' then !flow && !endsWord rest
    else !(isBlank c || isBreak c || isIndicator c)

/-- A scalar without quotes, as far as it has been read. -/
structure Plain where
  /-- Its text. -/
  text : List Char
  /-- The place of what follows. -/
  behind : Place
  /-- Whether what follows is on another line. -/
  endsLine : Bool

/-- The rest of a scalar without quotes, behind the part `said`, which is held
back to front, and a gap. In front of the column `least` a later line does not
belong to it, unless it is inside brackets. There a colon must not stand directly
in front of a mark. -/
def scanPlain (flow : Bool) (least : Nat) (said : List Char) (gap : Gap) (line column : Nat) :
    List Char → Option Plain
  | [] => some ⟨said.reverse, ⟨line, column, []⟩, gap.isBroken⟩
  | c :: rest =>
    if isBreak c then scanPlain flow least said (gap.push c) (line + 1) 0 rest
    else if isBlank c then
      if gap.isBroken && c == '\t' && decide (column < least) then none
      else scanPlain flow least said (gap.push c) line (column + 1) rest
    else if !gap.isNone && (c == '#' || isSeparator column (c :: rest)
        || !flow && decide (column < least))
        || c == ':' && endsWord rest || flow && isFlowMark c then
      some ⟨said.reverse, ⟨line, column, c :: rest⟩, gap.isBroken⟩
    else if flow && c == ':' && rest.head?.any fun d => d == '?' || isFlowMark d then none
    else scanPlain flow least (c :: gap.onto said) Gap.none line (column + 1) rest

end Yaml

end PlanNetwork
