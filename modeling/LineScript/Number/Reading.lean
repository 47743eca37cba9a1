/-
# Numbers from text

Reading a number rounds the exact value of the text to the nearest double. A text is decimal with
an optional exponent of ten, or hexadecimal with a mandatory exponent of two; infinities and the
undefined number have names. A value beyond the largest double is refused, one too small is zero.
-/

import LineScript.Number.Dyadic
import LineScript.Text.Hex

namespace LineScript.Number

/-- The base of the digits of a text. -/
inductive Base where
  | ten
  | sixteen
  deriving DecidableEq, Repr

namespace Base

/-- How many digits the base has. -/
def size : Base → Nat
  | ten => 10
  | sixteen => 16

/-- The value of a digit in the base. -/
def digit? (base : Base) (c : Char) : Option Nat :=
  match base, Text.hexValue? c with
  | ten, some n => if n < 10 then some n else none
  | sixteen, some n => some n
  | _, none => none

/-- The letter that introduces the exponent. -/
def exponentMark : Base → Char
  | ten => 'e'
  | sixteen => 'p'

end Base

/-- Digits read so far: their value, how many stand after the point, whether there are any, and
whether a point was seen. -/
structure Mantissa where
  value : Nat := 0
  places : Nat := 0
  some : Bool := false
  point : Bool := false

/-- The digits, low lines and the single point at the front of a text. -/
def Mantissa.read (base : Base) : Mantissa → List Char → Mantissa × List Char
  | m, [] => (m, [])
  | m, c :: rest =>
    if c = '_' then m.read base rest
    else if c = '.' && !m.point then Mantissa.read base { m with point := true } rest
    else
      match base.digit? c with
      | .some d =>
        Mantissa.read base
          { m with
            value := m.value * base.size + d
            places := if m.point then m.places + 1 else m.places
            some := true } rest
      | .none => (m, c :: rest)

/-- The digits of an exponent. Past ten thousand further digits change nothing that matters, and
they are passed over. -/
def exponentDigits : Nat → List Char → Nat × List Char
  | n, [] => (n, [])
  | n, c :: rest =>
    if c = '_' then exponentDigits n rest
    else if '0' ≤ c && c ≤ '9' then
      exponentDigits (if n < 10000 then n * 10 + (c.toNat - 48) else n) rest
    else (n, c :: rest)

/-- The exponent after its mark: an optional sign and at least one digit. -/
def signedExponent? (cs : List Char) : Option (Int × List Char) :=
  let (negative, cs) :=
    match cs with
    | '+' :: rest => (false, rest)
    | '-' :: rest => (true, rest)
    | _ => (false, cs)
  match cs with
  | c :: _ =>
    if '0' ≤ c && c ≤ '9' then
      let (n, rest) := exponentDigits 0 cs
      some (if negative then -(n : Int) else n, rest)
    else none
  | [] => none

/-- What a low line may stand next to: it has to follow a digit, or the mark of the base, and be
followed by a digit. `afterDigit` is whether one of those came last, `afterLine` whether a low line
did. -/
def lowLinesSeparate (base : Base) : Bool → Bool → List Char → Bool
  | _, afterLine, [] => !afterLine
  | afterDigit, afterLine, c :: rest =>
    if (base.digit? c).isSome then lowLinesSeparate base true false rest
    else if c = '_' then afterDigit && lowLinesSeparate base false true rest
    else !afterLine && lowLinesSeparate base false false rest

/-- The exact value of a mantissa and an exponent, rounded. -/
def Mantissa.round? (base : Base) (negative : Bool) (m : Mantissa) (exponent : Int) : Option Float :=
  match base with
  | .ten =>
    let e := exponent - m.places
    if 0 ≤ e then Dyadic.nearest? negative (m.value * tenTo e.toNat) 1
    else Dyadic.nearest? negative m.value (tenTo (-e).toNat)
  | .sixteen =>
    let e := exponent - 4 * m.places
    if 0 ≤ e then Dyadic.nearest? negative (m.value * twoTo e.toNat) 1
    else Dyadic.nearest? negative m.value (twoTo (-e).toNat)

/-- An unsigned number in digits. -/
def unsigned? (negative : Bool) (cs : List Char) : Option Float :=
  let (base, body) : Base × List Char :=
    match cs with
    | '0' :: 'x' :: c :: rest => (.sixteen, c :: rest)
    | '0' :: 'X' :: c :: rest => (.sixteen, c :: rest)
    | _ => (.ten, cs)
  let (m, rest) := Mantissa.read base {} body
  if !m.some then none
  else if cs.contains '_' && !lowLinesSeparate base (base = .sixteen) false body then none
  else
    match rest with
    | [] => if base = .ten then m.round? base negative 0 else none
    | c :: after =>
      if c.toLower = base.exponentMark then
        match signedExponent? after with
        | some (e, []) => m.round? base negative e
        | _ => none
      else none

/-- The largest magnitude has a name of its own; so has the undefined number, which takes no
sign. -/
def named? (signed negative : Bool) (cs : List Char) : Option Float :=
  let name := String.ofList (cs.map Char.toLower)
  if name = "inf" || name = "infinity" then
    some (Dyadic.withSign negative (2047 * twoTo 52))
  else if name = "nan" && !signed then
    some (Dyadic.withSign false (2047 * twoTo 52 + twoTo 51 + 1))
  else none

/-- The number that a text stands for, if it stands for one that is not too large. -/
def read? (s : String) : Option Float :=
  let (signed, negative, cs) :=
    match s.toList with
    | '+' :: rest => (true, false, rest)
    | '-' :: rest => (true, true, rest)
    | cs => (false, false, cs)
  match named? signed negative cs with
  | some x => some x
  | none => unsigned? negative cs

end LineScript.Number
