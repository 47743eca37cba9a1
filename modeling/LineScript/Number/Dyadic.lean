/-
# Doubles as dyadic numbers

Every finite double is a natural mantissa times a power of two, with a sign. Reading and writing
numbers, cutting them to integers and storing them compactly are all exact computations on that
form, so none of them depends on how a machine rounds.
-/

import LineScript.Number.Power

namespace LineScript.Number

/-- What a double is: no number, an infinity, or `± mantissa · 2 ^ exponent`. -/
inductive Dyadic where
  | undefined
  | infinite (negative : Bool)
  | finite (negative : Bool) (mantissa : Nat) (exponent : Int)
  deriving DecidableEq, Repr

namespace Dyadic

/-- The parts of a double. Normal numbers have a mantissa of exactly 53 bits; the others have the
least exponent. -/
def ofFloat (x : Float) : Dyadic :=
  let bits := x.toBits.toNat
  let negative := decide (twoTo 63 ≤ bits)
  let field : Nat := bits / twoTo 52 % 2048
  let fraction := bits % twoTo 52
  if field = 2047 then
    if fraction = 0 then .infinite negative else .undefined
  else if field = 0 then .finite negative fraction (-1074)
  else .finite negative (twoTo 52 + fraction) ((field : Int) - 1075)

/-- The double with the given sign and the bits of its magnitude. -/
def withSign (negative : Bool) (magnitude : Nat) : Float :=
  Float.ofBits (UInt64.ofNat (magnitude + if negative then twoTo 63 else 0))

/-- The double `± mantissa · 2 ^ exponent`, for a mantissa of at most 53 bits that is normal or
comes with the least exponent. -/
def pack (negative : Bool) (mantissa : Nat) (exponent : Int) : Float :=
  if mantissa < twoTo 52 then withSign negative mantissa
  else withSign negative ((exponent + 1075).toNat * twoTo 52 + (mantissa - twoTo 52))

/-- The quotient rounded to the nearest natural number, a half to the even one. -/
def roundDiv (num den : Nat) : Nat :=
  let quotient := num / den
  let rest := 2 * (num % den)
  if den < rest then quotient + 1
  else if rest = den then quotient + quotient % 2
  else quotient

/-- `num / den / 2 ^ exponent` as a fraction of natural numbers. -/
def scaled (num den : Nat) (exponent : Int) : Nat × Nat :=
  if 0 ≤ exponent then (num, den * twoTo exponent.toNat) else (num * twoTo (-exponent).toNat, den)

/-- The exponent at which `num / den` has at most 53 bits before the binary point, and no fewer
unless the exponent is the least one. -/
def fittingExponent (num den : Nat) : Int :=
  let guess := max ((num.log2 : Int) - den.log2 - 53) (-1074)
  let (n, d) := scaled num den guess
  if twoTo 53 ≤ n / d then guess + 1 else guess

/-- The double nearest to the positive fraction `num / den`, a tie going to the even mantissa;
nothing when the fraction lies beyond the largest double. -/
def nearest? (negative : Bool) (num den : Nat) : Option Float :=
  if num = 0 then some (withSign negative 0)
  else
    let exponent := fittingExponent num den
    let (n, d) := scaled num den exponent
    let mantissa := roundDiv n d
    let (mantissa, exponent) :=
      if mantissa = twoTo 53 then (twoTo 52, exponent + 1) else (mantissa, exponent)
    if 971 < exponent then none else some (pack negative mantissa exponent)

end Dyadic

/-- The greatest integer not above a finite double, as an integer. -/
def floorInt (negative : Bool) (mantissa : Nat) (exponent : Int) : Int :=
  if 0 ≤ exponent then
    let whole : Int := (mantissa * twoTo exponent.toNat : Nat)
    if negative then -whole else whole
  else
    let unit := twoTo (-exponent).toNat
    if negative then -((mantissa + (unit - 1)) / unit : Nat) else (mantissa / unit : Nat)

/-- The greatest integral double not above a double. Zeros, infinities and what is no number stay
as they are. -/
def floor (x : Float) : Float :=
  match Dyadic.ofFloat x with
  | .finite negative mantissa exponent =>
    if mantissa = 0 || 0 ≤ exponent then x
    else
      let whole := floorInt negative mantissa exponent
      (Dyadic.nearest? negative whole.natAbs 1).getD x
  | _ => x

/-- The integer that a double is, if it is one. Infinities count as integers beyond every
bound. -/
inductive Whole where
  | fraction
  | beyond
  | exactly (value : Int)
  deriving DecidableEq, Repr

/-- Whether a double is an integer, and which. -/
def whole (x : Float) : Whole :=
  match Dyadic.ofFloat x with
  | .undefined => .fraction
  | .infinite _ => .beyond
  | .finite negative mantissa exponent =>
    if 0 ≤ exponent then .exactly (floorInt negative mantissa exponent)
    else if mantissa % twoTo (-exponent).toNat = 0 then
      .exactly (floorInt negative mantissa exponent)
    else .fraction

/-- A natural number as the nearest double. -/
def ofNat (n : Nat) : Float :=
  (Dyadic.nearest? false n 1).getD 0

end LineScript.Number
