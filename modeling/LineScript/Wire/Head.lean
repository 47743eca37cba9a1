/-
# Heads

Every data item begins with a head: a major type, a length code, and a number of up to eight bytes,
most significant first. Heads are written in the shortest form and read in every form.
-/

import LineScript.Number.Power
import LineScript.Text.Utf8

namespace LineScript.Wire

open LineScript.Text (Bytes)

/-- The lowest `width` bytes of a number, most significant first. -/
def bigEndian : Nat → Nat → Bytes
  | 0, _ => []
  | width + 1, n => bigEndian width (n / 256) ++ [UInt8.ofNat (n % 256)]

/-- The shortest head with the given major type and number. -/
def head (major n : Nat) : Bytes :=
  let lead := 32 * major
  if n < 24 then [UInt8.ofNat (lead + n)]
  else if n < Number.twoTo 8 then UInt8.ofNat (lead + 24) :: bigEndian 1 n
  else if n < Number.twoTo 16 then UInt8.ofNat (lead + 25) :: bigEndian 2 n
  else if n < Number.twoTo 32 then UInt8.ofNat (lead + 26) :: bigEndian 4 n
  else UInt8.ofNat (lead + 27) :: bigEndian 8 n

/-- The first bytes of an item: its major type, the length code, and the number that goes with them;
no number means that the length is not announced. -/
structure Head where
  major : Nat
  code : Nat
  number? : Option Nat

/-- The number in the next `width` bytes. -/
def bigEndian? : Nat → Nat → Bytes → Option (Nat × Bytes)
  | 0, n, rest => some (n, rest)
  | _ + 1, _, [] => none
  | width + 1, n, b :: rest => bigEndian? width (256 * n + b.toNat) rest

/-- Reads a head. Reserved length codes are refused, and so is a two-byte head for a simple value that
has a shorter one. -/
def head? : Bytes → Option (Head × Bytes)
  | [] => none
  | b :: rest =>
    let major := b.toNat / 32
    let code := b.toNat % 32
    let wide (width : Nat) : Option (Head × Bytes) :=
      (bigEndian? width 0 rest).map fun (n, rest) => (⟨major, code, some n⟩, rest)
    if code < 24 then some (⟨major, code, some code⟩, rest)
    else if code = 24 then
      match wide 1 with
      | some (h, rest) => if major = 7 && h.number?.any (· < 32) then none else some (h, rest)
      | none => none
    else if code = 25 then wide 2
    else if code = 26 then wide 4
    else if code = 27 then wide 8
    else if code = 31 && 2 ≤ major && major ≠ 6 then some (⟨major, code, none⟩, rest)
    else none

/-- The next `count` bytes. -/
def take? (count : Nat) (bytes : Bytes) : Option (Bytes × Bytes) :=
  let taken := bytes.take count
  if taken.length = count then some (taken, bytes.drop count) else none

end LineScript.Wire
