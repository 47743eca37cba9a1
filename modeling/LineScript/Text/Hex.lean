/-
# Hexadecimal and padded texts

Bytes written as pairs of hexadecimal digits, and numbers and texts padded to a width, as listings,
traces and digests show them.
-/

import LineScript.Text.Quoted
import LineScript.Text.Utf8

namespace LineScript.Text

/-- A byte as two lower-case hexadecimal digits. -/
def hexByte (b : UInt8) : List Char :=
  hexDigits 2 b.toNat

/-- Bytes as pairs of lower-case hexadecimal digits. -/
def toHex (bytes : Bytes) : String :=
  String.ofList (bytes.flatMap hexByte)

/-- The value of a hexadecimal digit in either case. -/
def hexValue? (c : Char) : Option Nat :=
  if '0' ≤ c && c ≤ '9' then some (c.toNat - 48)
  else if 'a' ≤ c && c ≤ 'f' then some (c.toNat - 87)
  else if 'A' ≤ c && c ≤ 'F' then some (c.toNat - 55)
  else none

/-- The bytes that pairs of hexadecimal digits stand for. -/
def ofHexChars? : List Char → Option Bytes
  | [] => some []
  | [_] => none
  | high :: low :: rest => do
    let h ← hexValue? high
    let l ← hexValue? low
    let bytes ← ofHexChars? rest
    pure (UInt8.ofNat (16 * h + l) :: bytes)

/-- The bytes that a hexadecimal text stands for. -/
def ofHex? (s : String) : Option Bytes :=
  ofHexChars? s.toList

/-- An upper-case hexadecimal byte. -/
def upperHexByte (b : UInt8) : String :=
  String.ofList ((hexByte b).map Char.toUpper)

/-- A text followed by as many spaces as it is short of `width` characters. -/
def padRight (width : Nat) (s : String) : String :=
  s ++ String.ofList (List.replicate (width - s.length) ' ')

/-- A natural number with at least four digits, as instruction addresses are listed. -/
def fourDigits (n : Nat) : String :=
  let digits := toString n
  String.ofList (List.replicate (4 - digits.length) '0') ++ digits

/-- Texts with a separator between each two. -/
def joined (separator : String) : List String → String
  | [] => ""
  | s :: rest => rest.foldl (fun out t => out ++ separator ++ t) s

/-- The pieces of a character list between the occurrences of a separator; there is always at
least one piece. -/
def splitOnChar (separator : Char) : List Char → List (List Char)
  | [] => [[]]
  | c :: rest =>
    if c = separator then [] :: splitOnChar separator rest
    else
      match splitOnChar separator rest with
      | [] => [[c]]
      | piece :: pieces => (c :: piece) :: pieces

/-- The lines of a text: the pieces between line feeds. -/
def lines (s : String) : List String :=
  (splitOnChar '\n' s.toList).map String.ofList

end LineScript.Text
