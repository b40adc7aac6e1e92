/-
# Numbers of double precision, held exactly

Times, costs and probabilities are doubles. Every finite double is a whole
number of units of 2^-1074, so a finite number is a sign and a count of units,
and comparing or adding two of them is integer arithmetic. A sum is formed
exactly and then rounded once, to the nearest double and to the even one of
two that are equally near.

There are two zeros, which compare as equal and are written differently, two
infinities, and a value that is not a number and compares with nothing.
-/

namespace PlanNetwork

namespace Number

/-- A power of two. -/
def twoTo (n : Nat) : Nat := Nat.pow 2 n

/-- A power of ten. -/
def tenTo (n : Nat) : Nat := Nat.pow 10 n

/-- How many units one is: the exponent of the smallest positive double. -/
def unitExponent : Nat := 1074

/-- One, in units. -/
def unit : Nat := twoTo unitExponent

/-- The first count of units that is too large for a double. -/
def limit : Nat := twoTo 2098

/-- The distance between neighbouring doubles of about this many units. A
significand has 53 binary digits; below 2^53 units every count is a double. -/
def spacing (units : Nat) : Nat := twoTo (units.log2 - 52)

/-- Whether a count of units is the magnitude of a double. -/
def Fits (units : Nat) : Prop := units < limit ∧ spacing units ∣ units

instance : DecidablePred Fits := fun units =>
  inferInstanceAs (Decidable (units < limit ∧ spacing units ∣ units))

/-- The count of units nearest to `num / den` among those with at most 53
significant binary digits; of two that are equally near, the one whose last
digit is even. -/
def nearest (num den : Nat) : Nat :=
  let step := spacing (num / den)
  let whole := num / (den * step)
  let twice := 2 * (num % (den * step))
  if den * step < twice ∨ twice = den * step ∧ whole % 2 = 1 then
    (whole + 1) * step
  else
    whole * step

end Number

/-- A double. -/
inductive Number where
  /-- What is not a number. -/
  | nan
  /-- An infinity, negative or positive. -/
  | infinite (negative : Bool)
  /-- A sign and a count of units; zero has both signs. -/
  | finite (negative : Bool) (units : Nat) (fits : Number.Fits units)
deriving DecidableEq

namespace Number

/-- A sign and a count of units; a count past the largest double is infinite. -/
def ofUnits (negative : Bool) (units : Nat) : Number :=
  if fits : Fits units then .finite negative units fits else .infinite negative

/-- The double nearest to `num / den` units. -/
def ofRatio (negative : Bool) (num den : Nat) : Number := ofUnits negative (nearest num den)

/-- Zero, of the given sign. -/
def zeroOf (negative : Bool) : Number := ofUnits negative 0

/-- Positive zero. -/
def zero : Number := zeroOf false

/-- One. -/
def one : Number := ofUnits false unit

/-- Positive infinity. -/
def infinity : Number := .infinite false

instance : Inhabited Number := ⟨zero⟩

/-- A count of units with its sign. -/
def signed (negative : Bool) (units : Nat) : Int := if negative then -units else units

/-- Where a number stands on the line, in units. The infinities stand just
outside the finite doubles, the two zeros share a place, and what is not a
number has none. -/
def position : Number → Option Int
  | .nan => none
  | .infinite negative => some (signed negative limit)
  | .finite negative units _ => some (signed negative units)

/-- Whether both numbers have places and `related` holds of them. -/
def compareBy (related : Int → Int → Bool) (x y : Number) : Bool :=
  match x.position, y.position with
  | some a, some b => related a b
  | _, _ => false

/-- `x ≤ y`; false where one of them is not a number. -/
def le (x y : Number) : Bool := compareBy (fun a b => decide (a ≤ b)) x y

/-- `x < y`; false where one of them is not a number. -/
def lt (x y : Number) : Bool := compareBy (fun a b => decide (a < b)) x y

/-- Whether the two are numerically equal: the zeros are, and what is not a
number is not equal even to itself. -/
def equals (x y : Number) : Bool := compareBy (fun a b => decide (a = b)) x y

/-- Whether `x` is not a number. -/
def isNaN (x : Number) : Bool := x.position.isNone

/-- Whether `x` is neither infinite nor not a number. -/
def isFinite : Number → Bool
  | .finite .. => true
  | _ => false

/-- The larger of two; what is not a number gives way to the other. -/
def max (x y : Number) : Number :=
  if x.isNaN then y else if x.lt y then y else x

/-- The smaller of two; what is not a number gives way to the other. -/
def min (x y : Number) : Number :=
  if x.isNaN then y else if y.lt x then y else x

/-- The number with the other sign. -/
def neg : Number → Number
  | .nan => .nan
  | .infinite negative => .infinite !negative
  | .finite negative units fits => .finite (!negative) units fits

/-- The number without its sign. -/
def abs : Number → Number
  | .nan => .nan
  | .infinite _ => .infinite false
  | .finite _ units fits => .finite false units fits

/-- The exact sum, rounded once. Opposite infinities have none. A sum that
cancels is positive zero, unless both zeros are negative. -/
def add : Number → Number → Number
  | .nan, _ => .nan
  | _, .nan => .nan
  | .infinite s, .infinite t => if s = t then .infinite s else .nan
  | .infinite s, .finite .. => .infinite s
  | .finite .., .infinite t => .infinite t
  | .finite s a _, .finite t b _ =>
    let total := signed s a + signed t b
    if total = 0 then zeroOf (s && t) else ofRatio (decide (total < 0)) total.natAbs 1

/-- The exact difference, rounded once. -/
def sub (x y : Number) : Number := x.add y.neg

/-- The sum of a list, added up from the left with a rounding at each step. -/
def sum (xs : List Number) : Number := xs.foldl add (zeroOf true)

end Number

end PlanNetwork
