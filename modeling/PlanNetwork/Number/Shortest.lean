/-
# The shortest decimal that reads back

Among the decimals with one digit, two digits and so on, the first grid that
has a point reading back to the double gives its digits. On each grid only the
two neighbours of the exact value need a look. Where both read back the nearer
one is taken, and a convention settles exact ties.

Should no grid with up to seventeen digits do, the exact expansion is written,
so the result reads back in any case.
-/

import PlanNetwork.Number.Decimal

namespace PlanNetwork

namespace Number

/-- Which of two equally near decimals is written. -/
inductive Tie where
  /-- The one with the even last digit. -/
  | even
  /-- The larger one. -/
  | up
deriving DecidableEq

/-- The place of the leading digit: the power of ten at or below the value.
Every double is well above `10 ^ -400`. -/
def leadingPlace (units : Nat) : Int :=
  decimalLength (units * tenTo 400 / unit) - 401

/-- The value of `units` over `10 ^ place`, as a fraction. -/
def gridRatio (units : Nat) (place : Int) : Nat × Nat :=
  if 0 ≤ place then (units, unit * tenTo place.toNat)
  else (units * tenTo (-place).toNat, unit)

/-- Whether `digits * 10 ^ place` reads back to `units`. -/
def readsBack (units digits : Nat) (place : Int) : Bool :=
  match ofDecimal false digits place with
  | .finite _ found _ => found == units
  | _ => false

/-- The nearest multiple of `10 ^ place` that reads back, if one does. -/
def onGrid (tie : Tie) (units : Nat) (place : Int) : Option (Nat × Int) :=
  let (num, den) := gridRatio units place
  let below := num / den
  let twice := 2 * (num % den)
  let upFirst := decide (den < twice) ||
    (twice == den && (tie == .up || below % 2 == 1))
  let first := if upFirst then below + 1 else below
  let second := if upFirst then below else below + 1
  if readsBack units first place then some (first, place)
  else if readsBack units second place then some (second, place)
  else none

/-- Drop the zeros at the end of a count of at most `fuel` digits. -/
def dropZeros : Nat → Nat × Int → Nat × Int
  | 0, d => d
  | fuel + 1, (digits, place) =>
    if digits ≠ 0 ∧ digits % 10 = 0 then dropZeros fuel (digits / 10, place + 1)
    else (digits, place)

/-- The shortest digits of a positive double with the place of their last one.
The fallback is the exact expansion, for `2 ^ -1074` is `5 ^ 1074 / 10 ^ 1074`. -/
def shortest (tie : Tie) (units : Nat) : Nat × Int :=
  let top := leadingPlace units
  let found := (List.range 17).findSome? fun (n : Nat) => onGrid tie units (top - n)
  found.elim (units * Nat.pow 5 unitExponent, -unitExponent) (dropZeros 17)

end Number

end PlanNetwork
