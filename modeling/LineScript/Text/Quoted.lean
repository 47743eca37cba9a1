/-
# Quoted texts

A text between double quotes, written so that every character is visible: the usual backslash
letters for control characters, hexadecimal forms for whatever else has no visible form, and
everything printable as itself.
-/

import LineScript.Text.Printable
import LineScript.Text.Utf8

namespace LineScript.Text

/-- The lower-case hexadecimal digit for a number below sixteen. -/
def hexDigit (n : Nat) : Char :=
  if n < 10 then Char.ofNat (48 + n) else Char.ofNat (87 + n)

/-- The lowest `width` hexadecimal digits of a number, most significant first. -/
def hexDigits : Nat → Nat → List Char
  | 0, _ => []
  | width + 1, n => hexDigits width (n / 16) ++ [hexDigit (n % 16)]

/-- The form of one character inside double quotes. -/
def quoteChar (c : Char) : List Char :=
  match c.toNat with
  | 0x22 => ['\\', '\x22']
  | 0x5c => ['\\', '\\']
  | 0x07 => ['\\', 'a']
  | 0x08 => ['\\', 'b']
  | 0x0c => ['\\', 'f']
  | 0x0a => ['\\', 'n']
  | 0x0d => ['\\', 'r']
  | 0x09 => ['\\', 't']
  | 0x0b => ['\\', 'v']
  | n =>
    if isPrintable c then [c]
    else if n < 0x20 || n = 0x7f then '\\' :: 'x' :: hexDigits 2 n
    else if n ≤ 0xffff then '\\' :: 'u' :: hexDigits 4 n
    else '\\' :: 'U' :: hexDigits 8 n

/-- A text between double quotes with every character visible. -/
def quote (s : String) : String :=
  String.ofList ('\x22' :: (s.toList.flatMap quoteChar ++ ['\x22']))

/-- The form of bytes inside double quotes, with `skip` bytes of the current character still to pass
over. A byte outside every well-formed sequence is written in hexadecimal digits. -/
def quoteFrom : Nat → Bytes → List Char
  | _, [] => []
  | skip + 1, _ :: rest => quoteFrom skip rest
  | 0, b :: rest =>
    match leading? b rest with
    | some (c, further) => quoteChar c ++ quoteFrom further rest
    | none => '\\' :: 'x' :: (hexDigits 2 b.toNat ++ quoteFrom 0 rest)

/-- A text in bytes between double quotes with every character visible. -/
def quoteBytes (bytes : Bytes) : String :=
  String.ofList ('\x22' :: (quoteFrom 0 bytes ++ ['\x22']))

end LineScript.Text
