/-
# Scalars without quotes

What a YAML scalar without quotes can mean. Nothing is a number that begins
with a zero and goes on with digits only, except where a floating-point number
is wanted.
-/

import PlanNetwork.Wire.Tree

namespace PlanNetwork

namespace Scalar

/-- The spellings of nothing. -/
def isNull (s : String) : Bool := ["", "~", "null", "Null", "NULL"].contains s

/-- The spellings of the truth values. -/
def bool? (s : String) : Option Bool :=
  if ["true", "True", "TRUE"].contains s then some true
  else if ["false", "False", "FALSE"].contains s then some false
  else none

/-- The value of a digit in some base up to sixteen. -/
def digit? (base : Nat) (c : Char) : Option Nat :=
  let value :=
    if c.isDigit then c.toNat - '0'.toNat
    else if 'a' ≤ c ∧ c ≤ 'f' then c.toNat - 'a'.toNat + 10
    else if 'A' ≤ c ∧ c ≤ 'F' then c.toNat - 'A'.toNat + 10
    else base
  if value < base then some value else none

/-- The count that some digits stand for; there is at least one. -/
def digits? (base : Nat) (digits : List Char) : Option Nat :=
  if digits.isEmpty then none
  else digits.foldlM (fun n c => (digit? base c).map (base * n + ·)) 0

/-- Digits behind a mark for their base, or in base ten. -/
def count? : List Char → Option Nat
  | '0' :: 'x' :: digits => digits? 16 digits
  | '0' :: 'o' :: digits => digits? 8 digits
  | '0' :: 'b' :: digits => digits? 2 digits
  | ['0'] => some 0
  | '0' :: _ => none
  | digits => digits? 10 digits

/-- A whole number with an optional sign. -/
def integer? : List Char → Option Int
  | '+' :: digits => (count? digits).map Int.ofNat
  | '-' :: digits => (count? digits).map fun n => -Int.ofNat n
  | digits => (count? digits).map Int.ofNat

/-- A whole number that is not negative and has at most 64 bits. A minus sign
is not allowed even for zero. -/
def whole? (s : String) : Option Nat :=
  match s.toList with
  | '-' :: _ => none
  | cs => (integer? cs).bind fun i =>
    if i.toNat < Number.twoTo 64 then some i.toNat else none

/-- A decimal numeral with an optional sign that is not too large. -/
def decimal? (negative : Bool) (cs : List Char) : Option Number :=
  match Numeral.scan cs with
  | some (numeral, []) =>
    let x := numeral.toNumber negative
    if numeral.hasDigits && x.isFinite then some x else none
  | _ => none

/-- A floating-point number. -/
def number? (s : String) : Option Number :=
  if [".inf", ".Inf", ".INF", "+.inf", "+.Inf", "+.INF"].contains s then some (.infinite false)
  else if ["-.inf", "-.Inf", "-.INF"].contains s then some (.infinite true)
  else if [".nan", ".NaN", ".NAN"].contains s then some .nan
  else match s.toList with
    | '-' :: cs => decimal? true cs
    | '+' :: cs => decimal? false cs
    | cs => decimal? false cs

/-- Whether a scalar begins with a zero and goes on with digits only. -/
def isPadded (s : String) : Bool :=
  let digits := match s.toList with
    | '-' :: cs | '+' :: cs => cs
    | cs => cs
  match digits with
  | '0' :: c :: cs => (c :: cs).all Char.isDigit
  | _ => false

/-- A whole number where anything is welcome. Below zero, and with a minus sign
even at zero, it counts as a number of another kind. Whole numbers of more than
64 bits are refused unless they have more than 128. -/
def wholeTree? (s : String) : Option (Option Tree) :=
  (integer? s.toList).bind fun i =>
    let size := i.natAbs
    let isSigned := s.startsWith "-"
    if !isSigned && size < Number.twoTo 64 then some (some (.whole size))
    else if isSigned && size ≤ Number.twoTo 63 then
      some (some (.number (.ofDecimal (decide (i < 0)) size 0)))
    else if size < (if isSigned then Number.twoTo 127 + 1 else Number.twoTo 128) then some none
    else none

/-- What a scalar without quotes means where anything is welcome. -/
def resolve (s : String) : Option Tree :=
  if isNull s then some .null
  else match bool? s with
    | some b => some (.bool b)
    | none =>
      match wholeTree? s with
      | some found => found
      | none =>
        if isPadded s then some (.text s)
        else some ((number? s).elim (.text s) .number)

/-- What a scalar with a tag means where anything is welcome. A tag that asks
for a value settles its kind, quotes or not; any other leaves a text. -/
def resolveAs (tag : Tag) (s : String) : Option Tree :=
  match tag with
  | .truth => (bool? s).map .bool
  | .integer => (wholeTree? s).join
  | .float => (number? s).map .number
  | .nothing => if isNull s && s != "" then some .null else none
  | .own _ => none
  | .other => some (.text s)

end Scalar

end PlanNetwork
