/-
# Floating-point layouts

The three widths of a floating-point number in a data item. A number is written in the narrowest
layout that keeps its value, and read from any of them; what is no number has one written form.
-/

import LineScript.Number.Dyadic
import LineScript.Wire.Head

namespace LineScript.Wire

open LineScript.Text (Bytes)

/-- A binary floating-point layout: how many bits its fraction has, the exponent of the last place of
its smallest numbers, and its exponent bias. -/
structure Layout where
  fractionBits : Nat
  leastExponent : Int
  bias : Nat

/-- Two bytes. -/
def Layout.half : Layout := ⟨10, -24, 15⟩

/-- Four bytes. -/
def Layout.single : Layout := ⟨23, -149, 127⟩

/-- Eight bytes. -/
def Layout.double : Layout := ⟨52, -1074, 1023⟩

/-- The sign bit of a layout as a number. -/
def Layout.signBit (l : Layout) (negative : Bool) : Nat :=
  if negative then (2 * l.bias + 2) * Number.twoTo l.fractionBits else 0

/-- The bits of `± mantissa · 2 ^ exponent` in a layout, if it is representable there. -/
def Layout.bits? (l : Layout) (negative : Bool) (mantissa : Nat) (exponent : Int) : Option Nat :=
  if mantissa = 0 then some (l.signBit negative)
  else
    let top : Int := exponent + mantissa.log2
    let last := max (top - l.fractionBits) l.leastExponent
    let shifted? : Option Nat :=
      if last ≤ exponent then some (mantissa * Number.twoTo (exponent - last).toNat)
      else
        let unit := Number.twoTo (last - exponent).toNat
        if mantissa % unit = 0 then some (mantissa / unit) else none
    match shifted? with
    | none => none
    | some shifted =>
      if (l.bias : Int) < top then none
      else
        let field := if shifted < Number.twoTo l.fractionBits then 0 else (last - l.leastExponent + 1).toNat
        some (l.signBit negative + field * Number.twoTo l.fractionBits + shifted % Number.twoTo l.fractionBits)

/-- The double that the bits of a layout stand for. -/
def Layout.number (l : Layout) (bits : Nat) : Float :=
  let unit := Number.twoTo l.fractionBits
  let fields := 2 * l.bias + 2
  let negative := bits / unit / fields % 2 = 1
  let field := bits / unit % fields
  let fraction := bits % unit
  if field = fields - 1 then
    if fraction = 0 then Number.Dyadic.withSign negative (2047 * Number.twoTo 52)
    else Number.Dyadic.withSign negative (2047 * Number.twoTo 52 + Number.twoTo 51 + 1)
  else
    let mantissa := if field = 0 then fraction else unit + fraction
    let exponent : Int := l.leastExponent + (if field = 0 then 0 else (field : Int) - 1)
    let value? :=
      if 0 ≤ exponent then Number.Dyadic.nearest? negative (mantissa * Number.twoTo exponent.toNat) 1
      else Number.Dyadic.nearest? negative mantissa (Number.twoTo (-exponent).toNat)
    value?.getD 0

/-- A floating-point number in the shortest layout that keeps its value. -/
def encodeFloat (x : Float) : Bytes :=
  match Number.Dyadic.ofFloat x with
  | .undefined => [0xf9, 0x7e, 0x00]
  | .infinite negative => [0xf9, if negative then 0xfc else 0x7c, 0x00]
  | .finite negative mantissa exponent =>
    match Layout.half.bits? negative mantissa exponent with
    | some bits => 0xf9 :: bigEndian 2 bits
    | none =>
      match Layout.single.bits? negative mantissa exponent with
      | some bits => 0xfa :: bigEndian 4 bits
      | none => 0xfb :: bigEndian 8 x.toBits.toNat

end LineScript.Wire
