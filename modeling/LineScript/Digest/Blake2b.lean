/-
# The BLAKE2b digest

The unkeyed BLAKE2b digest of 256 bits. Sixteen words are mixed for twelve rounds with each block of
128 bytes; the last block is filled up with zeros and marked, and every block is told how many bytes
came before its end, so that messages that differ only in trailing zeros have different digests.
-/

import LineScript.Number.Power
import LineScript.Text.Utf8

namespace LineScript.Digest

open LineScript.Text (Bytes)

/-- The initial words: the fractional parts of the square roots of the first eight primes. -/
def initial : List UInt64 :=
  [0x6a09e667f3bcc908, 0xbb67ae8584caa73b, 0x3c6ef372fe94f82b, 0xa54ff53a5f1d36f1,
   0x510e527fade682d1, 0x9b05688c2b3e6c1f, 0x1f83d9abfb41bd6b, 0x5be0cd19137e2179]

/-- The order in which each round takes the words of a block. -/
def schedule : List (List Nat) :=
  [[0, 1, 2, 3, 4, 5, 6, 7, 8, 9, 10, 11, 12, 13, 14, 15],
   [14, 10, 4, 8, 9, 15, 13, 6, 1, 12, 0, 2, 11, 7, 5, 3],
   [11, 8, 12, 0, 5, 2, 15, 13, 10, 14, 3, 6, 7, 1, 9, 4],
   [7, 9, 3, 1, 13, 12, 11, 14, 2, 6, 5, 10, 4, 0, 15, 8],
   [9, 0, 5, 7, 2, 4, 10, 15, 14, 1, 11, 12, 6, 8, 3, 13],
   [2, 12, 6, 10, 0, 11, 8, 3, 4, 13, 7, 5, 15, 14, 1, 9],
   [12, 5, 1, 15, 14, 13, 4, 10, 0, 7, 6, 3, 9, 2, 8, 11],
   [13, 11, 7, 14, 12, 1, 3, 9, 5, 0, 15, 4, 8, 6, 2, 10],
   [6, 15, 14, 9, 11, 3, 0, 8, 12, 2, 13, 7, 1, 4, 10, 5],
   [10, 2, 8, 4, 7, 6, 1, 5, 15, 11, 9, 14, 3, 12, 13, 0],
   [0, 1, 2, 3, 4, 5, 6, 7, 8, 9, 10, 11, 12, 13, 14, 15],
   [14, 10, 4, 8, 9, 15, 13, 6, 1, 12, 0, 2, 11, 7, 5, 3]]

/-- The places of the words that the eight mixings of a round touch: the columns, then the
diagonals. -/
def lanes : List (Nat × Nat × Nat × Nat) :=
  [(0, 4, 8, 12), (1, 5, 9, 13), (2, 6, 10, 14), (3, 7, 11, 15),
   (0, 5, 10, 15), (1, 6, 11, 12), (2, 7, 8, 13), (3, 4, 9, 14)]

/-- A word turned right by a number of bits between 1 and 63. -/
def turnRight (w : UInt64) (bits : UInt64) : UInt64 :=
  (w >>> bits) ||| (w <<< (64 - bits))

/-- Mixes two words of a block into four words. -/
def mix (v : Array UInt64) (lane : Nat × Nat × Nat × Nat) (x y : UInt64) : Array UInt64 :=
  let (ia, ib, ic, id) := lane
  let a := v.getD ia 0
  let b := v.getD ib 0
  let c := v.getD ic 0
  let d := v.getD id 0
  let a := a + b + x
  let d := turnRight (d ^^^ a) 32
  let c := c + d
  let b := turnRight (b ^^^ c) 24
  let a := a + b + y
  let d := turnRight (d ^^^ a) 16
  let c := c + d
  let b := turnRight (b ^^^ c) 63
  (((v.setIfInBounds ia a).setIfInBounds ib b).setIfInBounds ic c).setIfInBounds id d

/-- The mixings of one round, each with the next two words of the block in the round's order. -/
def mixings (block : Array UInt64) :
    List (Nat × Nat × Nat × Nat) → List Nat → Array UInt64 → Array UInt64
  | lane :: lanes, i :: j :: order, v =>
    mixings block lanes order (mix v lane (block.getD i 0) (block.getD j 0))
  | _, _, v => v

/-- One round over a block. -/
def round (block : Array UInt64) (v : Array UInt64) (order : List Nat) : Array UInt64 :=
  mixings block lanes order v

/-- Takes a block into the eight chained words, `count` bytes of the message being taken with it. -/
def compress (h : List UInt64) (block : Array UInt64) (count : Nat) (final : Bool) : List UInt64 :=
  let v := (h ++ initial).toArray
  let v := v.modify 12 (· ^^^ UInt64.ofNat count)
  let v := v.modify 13 (· ^^^ UInt64.ofNat (count / Number.twoTo 64))
  let v := if final then v.modify 14 (fun w => ~~~ w) else v
  let v := schedule.foldl (round block) v
  (h.zip ((v.toList.take 8).zip (v.toList.drop 8))).map fun (w, low, high) => w ^^^ low ^^^ high

/-- The word that up to eight bytes stand for, the least significant byte first. -/
def littleEndian (bytes : Bytes) : UInt64 :=
  bytes.foldr (fun b w => w * 256 + b.toUInt64) 0

/-- The sixteen words of a block; what is missing at the end counts as zeros. -/
def blockWords (block : Bytes) : Array UInt64 :=
  ((List.range 16).map fun i => littleEndian ((block.drop (8 * i)).take 8)).toArray

/-- Takes the blocks of a message, of which `count` bytes have been taken before. The last block has
at most 128 bytes and is never empty unless the message is. -/
def absorb (h : List UInt64) (count : Nat) (message : Bytes) : List UInt64 :=
  if message.length ≤ 128 then compress h (blockWords message) (count + message.length) true
  else
    absorb (compress h (blockWords (message.take 128)) (count + 128) false) (count + 128)
      (message.drop 128)
termination_by message.length
decreasing_by simp_wf; omega

/-- The bytes of a word, the least significant first. -/
def wordBytes (w : UInt64) : Bytes :=
  (List.range 8).map fun i => (w >>> UInt64.ofNat (8 * i)).toUInt8

/-- The digest of a message, 32 bytes. -/
def blake2b (message : Bytes) : Bytes :=
  match initial with
  | [] => []
  | w :: rest => ((absorb ((w ^^^ 0x01010020) :: rest) 0 message).flatMap wordBytes).take 32

end LineScript.Digest
