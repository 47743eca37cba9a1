/-
# Bytes in base 64

The standard base 64 form of bytes: three bytes in four digits of six bits each, the last group filled
up with equal signs. Line breaks between the digits do not count when it is read.
-/

import LineScript.Text.Utf8

namespace LineScript.Text

/-- The digit of the standard base 64 alphabet. -/
def base64Digit (n : Nat) : Char :=
  if n < 26 then Char.ofNat (65 + n)
  else if n < 52 then Char.ofNat (71 + n)
  else if n < 62 then Char.ofNat (n - 4)
  else if n = 62 then '+' else '/'

/-- The characters of the standard base 64 form, three bytes to four digits, padded with `=`. -/
def base64Chars : Bytes → List Char
  | [] => []
  | [a] =>
    let n := a.toNat * 65536
    [base64Digit (n / 262144), base64Digit (n / 4096 % 64), '=', '=']
  | [a, b] =>
    let n := a.toNat * 65536 + b.toNat * 256
    [base64Digit (n / 262144), base64Digit (n / 4096 % 64), base64Digit (n / 64 % 64), '=']
  | a :: b :: c :: rest =>
    let n := a.toNat * 65536 + b.toNat * 256 + c.toNat
    base64Digit (n / 262144) :: base64Digit (n / 4096 % 64) :: base64Digit (n / 64 % 64)
      :: base64Digit (n % 64) :: base64Chars rest

/-- The standard base 64 form of a byte sequence. -/
def toBase64 (bytes : Bytes) : String :=
  String.ofList (base64Chars bytes)

/-- The six bits that a digit stands for. -/
def sixBits? (c : Char) : Option Nat :=
  if c.isUpper then some (c.toNat - 65)
  else if c.isLower then some (c.toNat - 71)
  else if c.isDigit then some (c.toNat + 4)
  else if c == '+' then some 62
  else if c == '/' then some 63
  else none

/-- The bytes that groups of four digits stand for. -/
def base64From? : List Char → Option Bytes
  | [] => some []
  | [a, b, '=', '='] => do
    let n := 64 * (← sixBits? a) + (← sixBits? b)
    some [UInt8.ofNat (n / 16)]
  | [a, b, c, '='] => do
    let n := 4096 * (← sixBits? a) + 64 * (← sixBits? b) + (← sixBits? c)
    some [UInt8.ofNat (n / 1024), UInt8.ofNat (n / 4)]
  | a :: b :: c :: d :: rest => do
    let n := 262144 * (← sixBits? a) + 4096 * (← sixBits? b) + 64 * (← sixBits? c) + (← sixBits? d)
    let more ← base64From? rest
    some (UInt8.ofNat (n / 65536) :: UInt8.ofNat (n / 256) :: UInt8.ofNat n :: more)
  | _ => none

/-- The bytes that a text in base 64 stands for. -/
def ofBase64? (s : String) : Option Bytes :=
  base64From? (s.toList.filter fun c => c ≠ '\n' && c ≠ '\r')

end LineScript.Text
