/-
# Scalars in quotes

In single quotes a quote is written twice and nothing else is special. In double
quotes a backslash introduces characters that cannot stand there as they are,
and takes away the line break in front of which it stands.
-/

import PlanNetwork.Wire.Scalar
import PlanNetwork.Wire.Yaml.Gap

namespace PlanNetwork

namespace Yaml

/-- The text up to the closing single quote behind the part `said`, which is
held back to front, and a gap; and the place behind the quote. -/
def scanSingle (said : List Char) (gap : Gap) (line column : Nat) :
    List Char → Option (List Char × Place)
  | [] => none
  | c :: rest =>
    if isBreak c then scanSingle said (gap.push c) (line + 1) 0 rest
    else if isBlank c then scanSingle said (gap.push c) line (column + 1) rest
    else if isSeparator column (c :: rest) then none
    else if c == '\x27' then
      match rest with
      | '\x27' :: rest => scanSingle ('\x27' :: gap.onto said) Gap.none line (column + 2) rest
      | rest => some ((gap.onto said).reverse, ⟨line, column + 1, rest⟩)
    else scanSingle (c :: gap.onto said) Gap.none line (column + 1) rest

/-- What a letter stands for behind a backslash. -/
def unescape? : Char → Option Char
  | '0' => some '\x00'
  | 'a' => some '\x07'
  | 'b' => some '\x08'
  | 't' => some '\t'
  | '\t' => some '\t'
  | 'n' => some '\n'
  | 'v' => some '\x0b'
  | 'f' => some '\x0c'
  | 'r' => some '\r'
  | 'e' => some '\x1b'
  | ' ' => some ' '
  | '\x22' => some '\x22'
  | '/' => some '/'
  | '\\' => some '\\'
  | 'N' => some '\u0085'
  | '_' => some '\u00a0'
  | 'L' => some '\u2028'
  | 'P' => some '\u2029'
  | _ => none

/-- How many digits follow a letter behind a backslash that introduces the number
of a character. -/
def codeLength? : Char → Option Nat
  | 'x' => some 2
  | 'u' => some 4
  | 'U' => some 8
  | _ => none

/-- What is expected next in double quotes. -/
inductive Expected where
  /-- Anything. -/
  | anything
  /-- What a backslash introduces. -/
  | escape
  /-- Digits, at least one, of the number of a character that begins like this. -/
  | digits (left value : Nat)

/-- The text up to the closing double quote behind the part `said`, which is
held back to front, and a gap; and the place behind the quote. -/
def scanDouble (expected : Expected) (said : List Char) (gap : Gap) (line column : Nat) :
    List Char → Option (List Char × Place)
  | [] => none
  | c :: rest =>
    match expected with
    | .escape =>
      if isBreak c then scanDouble .anything said (.breaks none []) (line + 1) 0 rest
      else match codeLength? c with
        | some left => scanDouble (.digits left 0) said Gap.none line (column + 1) rest
        | none =>
          (unescape? c).bind fun x =>
            scanDouble .anything (x :: said) Gap.none line (column + 1) rest
    | .digits left value =>
      (Scalar.digit? 16 c).bind fun digit =>
        let value := 16 * value + digit
        if 1 < left then scanDouble (.digits (left - 1) value) said Gap.none line (column + 1) rest
        else if value.isValidChar then
          scanDouble .anything (Char.ofNat value :: said) Gap.none line (column + 1) rest
        else none
    | .anything =>
      if isBreak c then scanDouble .anything said (gap.push c) (line + 1) 0 rest
      else if isBlank c then scanDouble .anything said (gap.push c) line (column + 1) rest
      else if isSeparator column (c :: rest) then none
      else if c == '\x22' then some ((gap.onto said).reverse, ⟨line, column + 1, rest⟩)
      else if c == '\\' then scanDouble .escape (gap.onto said) Gap.none line (column + 1) rest
      else scanDouble .anything (c :: gap.onto said) Gap.none line (column + 1) rest

end Yaml

end PlanNetwork
