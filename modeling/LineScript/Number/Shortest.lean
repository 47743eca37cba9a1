/-
# The shortest decimal

A finite double is written with the fewest decimal digits that read back as the same double. For
each number of digits the two neighbours of the exact value on that decimal grid are tested against
the interval of reals that round to the double; the first grid with a hit gives the digits, and of
two hits the nearer one, an exact tie going to the even digit.
-/

import LineScript.Number.Power

namespace LineScript.Number

/-- A positive decimal `digits · 10 ^ exponent`. -/
structure Decimal where
  digits : Nat
  exponent : Int
  deriving DecidableEq, Repr

namespace Shortest

/-- The value and the ends of its rounding interval over one denominator. The ends belong to the
interval when the mantissa is even. -/
structure Interval where
  value : Nat
  low : Nat
  high : Nat
  unit : Nat
  closed : Bool

/-- The reals that round to `mantissa · 2 ^ exponent`, in quarters of the last place. Below a power
of two the spacing halves, except at the least exponent. -/
def interval (mantissa : Nat) (exponent : Int) : Interval :=
  let below := if mantissa = twoTo 52 && decide (-1074 < exponent) then 1 else 2
  let scale := if 2 ≤ exponent then twoTo (exponent - 2).toNat else 1
  let unit := if 2 ≤ exponent then 1 else twoTo (2 - exponent).toNat
  { value := 4 * mantissa * scale
    low := (4 * mantissa - below) * scale
    high := (4 * mantissa + 2) * scale
    unit := unit
    closed := mantissa % 2 = 0 }

/-- The interval in units of `10 ^ exponent`. -/
def Interval.inUnits (i : Interval) (exponent : Int) : Interval :=
  if 0 ≤ exponent then { i with unit := i.unit * tenTo exponent.toNat }
  else
    let factor := tenTo (-exponent).toNat
    { i with value := i.value * factor, low := i.low * factor, high := i.high * factor }

/-- Whether a natural number of units lies in the interval. -/
def Interval.contains (i : Interval) (n : Nat) : Bool :=
  let point := n * i.unit
  if i.closed then decide (i.low ≤ point) && decide (point ≤ i.high)
  else decide (i.low < point) && decide (point < i.high)

/-- The number of units in the interval nearest to the value among its two neighbours on the grid,
if one of them is in the interval. -/
def Interval.hit? (i : Interval) : Option Nat :=
  let below := i.value / i.unit
  let twice := 2 * (i.value % i.unit)
  match i.contains below, i.contains (below + 1) with
  | true, true =>
    if i.unit < twice then some (below + 1)
    else if twice = i.unit then some (below + below % 2)
    else some below
  | true, false => some below
  | false, true => some (below + 1)
  | false, false => none

/-- How often a value below its unit must be multiplied by ten to reach the unit. -/
def shortfall : Nat → Nat → Nat → Nat
  | 0, _, _ => 0
  | fuel + 1, value, unit => if unit ≤ value then 0 else 1 + shortfall fuel (value * 10) unit

/-- The decimal exponent of the leading digit of a positive value. -/
def magnitude (value unit : Nat) : Int :=
  if unit ≤ value then ((Nat.toDigits 10 (value / unit)).length : Int) - 1
  else -(shortfall 400 value unit : Int)

/-- The first grid with a hit, from `count` digits on. -/
def search (i : Interval) (top : Int) : Nat → Nat → Decimal
  | 0, count =>
    let exponent := top - count + 1
    let grid := i.inUnits exponent
    ⟨grid.value / grid.unit, exponent⟩
  | fuel + 1, count =>
    let exponent := top - count + 1
    match (i.inUnits exponent).hit? with
    | some digits => ⟨digits, exponent⟩
    | none => search i top fuel (count + 1)

end Shortest

/-- The shortest decimal that rounds to `mantissa · 2 ^ exponent`, for a positive mantissa. Seventeen
digits always suffice. -/
def shortest (mantissa : Nat) (exponent : Int) : Decimal :=
  let i := Shortest.interval mantissa exponent
  Shortest.search i (Shortest.magnitude i.value i.unit) 17 1

end LineScript.Number
