/-
# Integers in digits

Natural numbers written in a base, and integers whose base shows in how they begin.
-/

import LineScript.Number.Power
import LineScript.Text.Hex

namespace LineScript.Number

/-- The number that digits of a base stand for. There has to be at least one digit. -/
def inBase? (size : Nat) (cs : List Char) : Option Nat :=
  if cs.isEmpty then none
  else
    cs.foldlM
      (fun n c => (Text.hexValue? c).bind fun d => if d < size then some (size * n + d) else none) 0

/-- The number that digits stand for when their base shows in their front. A zero before further
digits means base eight. -/
def magnitude? : List Char → Option Nat
  | '0' :: 'x' :: ds => inBase? 16 ds
  | '0' :: 'X' :: ds => inBase? 16 ds
  | '0' :: 'o' :: ds => inBase? 8 ds
  | '0' :: 'O' :: ds => inBase? 8 ds
  | '0' :: 'b' :: ds => inBase? 2 ds
  | '0' :: 'B' :: ds => inBase? 2 ds
  | '0' :: d :: ds => inBase? 8 (d :: ds)
  | ds => inBase? 10 ds

/-- The integer that digits after an optional sign stand for. -/
def integer? : List Char → Option Int
  | '-' :: ds => (magnitude? ds).map fun n => -(n : Int)
  | '+' :: ds => (magnitude? ds).map Int.ofNat
  | ds => (magnitude? ds).map Int.ofNat

/-- The integer that digits after an optional sign stand for, if it fits in 64 signed bits. -/
def integer64? (cs : List Char) : Option Int :=
  (integer? cs).bind fun n => if fits64 n then some n else none

end LineScript.Number
