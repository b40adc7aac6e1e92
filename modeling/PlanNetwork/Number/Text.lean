/-
# How numbers are written

Two styles are in use. Messages and formulas write every number in full,
without an exponent. Data files put `.0` behind whole numbers and change to an
exponent where the point would stand far from the digits.
-/

import PlanNetwork.Number.Shortest

namespace PlanNetwork

namespace Number

/-- A style of writing numbers. -/
structure Style where
  /-- The places of the point, counted from the first digit, that are written
  without an exponent; every place if absent. -/
  positional : Option (Int × Int)
  /-- What stands behind a whole number. -/
  wholeMark : String
  /-- How an exact tie between two decimals goes. -/
  tie : Tie
  /-- Positive infinity. -/
  infinityMark : String
  /-- What is not a number. -/
  nanMark : String

/-- Messages write numbers in full; a tie goes to the larger decimal. -/
def Style.message : Style := ⟨none, "", .up, "inf", "NaN"⟩

/-- Data files write `1e16`, `100000.0`, `0.00001` and `1e-6`; a tie goes to
the even digit. -/
def Style.data : Style := ⟨some (-4, 16), ".0", .even, ".inf", ".nan"⟩

/-- A run of zeros. -/
def zeros (n : Int) : List Char := List.replicate n.toNat '0'

/-- Digits with the point written behind the first `point` of them, and zeros
where the digits do not reach. -/
def positionalText (wholeMark : String) (digits : List Char) (point : Int) : List Char :=
  if (digits.length : Int) ≤ point then
    digits ++ zeros (point - digits.length) ++ wholeMark.toList
  else if 0 < point then
    digits.take point.toNat ++ '.' :: digits.drop point.toNat
  else
    '0' :: '.' :: zeros (-point) ++ digits

/-- One digit, the point, the others, and the exponent. -/
def exponentText (digits : List Char) (point : Int) : List Char :=
  let significand := match digits with
    | first :: second :: rest => first :: '.' :: second :: rest
    | short => short
  significand ++ 'e' :: (toString (point - 1)).toList

/-- The magnitude of a finite number in the given style. -/
def magnitudeText (style : Style) (units : Nat) : List Char :=
  if units = 0 then '0' :: style.wholeMark.toList
  else
    let (value, place) := shortest style.tie units
    let digits := Nat.toDigits 10 value
    let point := digits.length + place
    let inFull := match style.positional with
      | none => true
      | some (least, most) => decide (least ≤ point) && decide (point ≤ most)
    if inFull then positionalText style.wholeMark digits point
    else exponentText digits point

/-- A number in the given style. -/
def render (style : Style) : Number → String
  | .nan => style.nanMark
  | .infinite negative => (if negative then "-" else "") ++ style.infinityMark
  | .finite negative units _ =>
    (if negative then "-" else "") ++ String.ofList (magnitudeText style units)

/-- A number as messages and formulas show it. -/
def text (x : Number) : String := x.render .message

end Number

end PlanNetwork
