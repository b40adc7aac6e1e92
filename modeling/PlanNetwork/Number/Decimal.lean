/-
# Decimal numerals and the doubles they stand for

A numeral can be read exactly, as an integer times a power of ten, and rounded
to the nearest double once. A power so large that the value lies far outside the
doubles is not written out: the size of the numeral settles the answer.
-/

import PlanNetwork.Number.Basic

namespace PlanNetwork

namespace Number

/-- How many decimal digits a count has; zero has one. -/
def decimalLength (n : Nat) : Nat := (Nat.toDigits 10 n).length

/-- The double nearest to `digits * 10 ^ exponent`. -/
def ofDecimal (negative : Bool) (digits : Nat) (exponent : Int) : Number :=
  if digits = 0 then zeroOf negative
  else
    -- the value is below `10 ^ size` and at least a tenth of that
    let size : Int := decimalLength digits + exponent
    if 310 < size then .infinite negative
    else if size < -330 then zeroOf negative
    else if 0 ≤ exponent then ofRatio negative (digits * tenTo exponent.toNat * unit) 1
    else ofRatio negative (digits * unit) (tenTo (-exponent).toNat)

end Number

/-- The parts of an unsigned decimal numeral. -/
structure Numeral where
  /-- The digits in front of the point. -/
  whole : List Char
  /-- The digits behind the point, if there is one. -/
  fraction : Option (List Char)
  /-- The exponent, if one is written. -/
  exponent : Option Int

namespace Numeral

/-- The count that a list of decimal digits stands for. -/
def digitsValue (digits : List Char) : Nat :=
  digits.foldl (fun n c => 10 * n + (c.toNat - '0'.toNat)) 0

/-- An exponent behind its mark: a sign, if any, and at least one digit. -/
def scanExponent (text : List Char) : Option (Int × List Char) :=
  let (negative, body) := match text with
    | '-' :: body => (true, body)
    | '+' :: body => (false, body)
    | body => (false, body)
  match body.takeWhile Char.isDigit with
  | [] => none
  | digits =>
    let size : Int := digitsValue digits
    some (if negative then -size else size, body.dropWhile Char.isDigit)

/-- The longest numeral at the front of a text, and the text behind it. An
exponent mark without digits is a fault, not an end. -/
def scan (text : List Char) : Option (Numeral × List Char) :=
  let whole := text.takeWhile Char.isDigit
  let (fraction, rest) := match text.dropWhile Char.isDigit with
    | '.' :: rest => (some (rest.takeWhile Char.isDigit), rest.dropWhile Char.isDigit)
    | rest => (none, rest)
  match rest with
  | 'e' :: more | 'E' :: more =>
    (scanExponent more).map fun (exponent, rest) => (⟨whole, fraction, some exponent⟩, rest)
  | rest => some (⟨whole, fraction, none⟩, rest)

/-- Whether there is a digit at all, on either side of the point. -/
def hasDigits (n : Numeral) : Bool := !n.whole.isEmpty || !(n.fraction.getD []).isEmpty

/-- Whether the numeral is written without point and exponent. -/
def isWhole (n : Numeral) : Bool := n.fraction.isNone && n.exponent.isNone

/-- The double nearest to the numeral. -/
def toNumber (n : Numeral) (negative : Bool) : Number :=
  let fraction := n.fraction.getD []
  Number.ofDecimal negative (digitsValue (n.whole ++ fraction))
    (n.exponent.getD 0 - fraction.length)

end Numeral

end PlanNetwork
