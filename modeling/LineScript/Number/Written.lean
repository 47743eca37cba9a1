/-
# Numbers as text

How a number looks in listings, messages and script output: the shortest digits that read back, in
positional form for moderate magnitudes and with a decimal exponent otherwise.
-/

import LineScript.Number.Dyadic
import LineScript.Number.Shortest

namespace LineScript.Number

/-- Which magnitudes are written positionally, and how wide an exponent is at least. -/
structure Style where
  leastPositional : Int
  pastPositional : Int
  exponentDigits : Nat

/-- Script numbers are positional from `0.0001` up to, and not including, a million; exponents
have two digits at least. -/
def Style.script : Style := ⟨-4, 6, 2⟩

/-- The decimal digits of a positive number without its trailing zeros. -/
def significant (n : Nat) : List Char :=
  ((Nat.toDigits 10 n).reverse.dropWhile (· = '0')).reverse

/-- The exponent part: its sign and its digits, padded on the left with zeros. -/
def exponentChars (width : Nat) (exponent : Int) : List Char :=
  let digits := Nat.toDigits 10 exponent.natAbs
  'e' :: (if exponent < 0 then '-' else '+') :: (List.replicate (width - digits.length) '0' ++ digits)

/-- Digits with a point after the first `whole` of them, filled up with zeros where there are fewer. -/
def positional (digits : List Char) (whole : Nat) : List Char :=
  let before := digits.take whole ++ List.replicate (whole - digits.length) '0'
  match digits.drop whole with
  | [] => before
  | after => before ++ '.' :: after

/-- A positive decimal in the given style. -/
def Decimal.chars (style : Style) (d : Decimal) : List Char :=
  let top : Int := d.exponent + (Nat.toDigits 10 d.digits).length - 1
  let digits := significant d.digits
  if top < style.leastPositional || style.pastPositional ≤ top then
    positional digits 1 ++ exponentChars style.exponentDigits top
  else if top < 0 then
    '0' :: '.' :: (List.replicate (-top - 1).toNat '0' ++ digits)
  else positional digits (top + 1).toNat

/-- A double in the given style. -/
def chars (style : Style) (x : Float) : List Char :=
  match Dyadic.ofFloat x with
  | .undefined => ['N', 'a', 'N']
  | .infinite negative => (if negative then '-' else '+') :: ['I', 'n', 'f']
  | .finite negative mantissa exponent =>
    let magnitude := if mantissa = 0 then ['0'] else (shortest mantissa exponent).chars style
    if negative then '-' :: magnitude else magnitude

/-- The text of a number in scripts. -/
def written (x : Float) : String :=
  String.ofList (chars .script x)

end LineScript.Number
