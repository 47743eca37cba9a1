/-
# Bytes and characters

Scripts arrive as bytes. They are read leniently: a well-formed UTF-8 sequence is its character,
and every byte that begins no such sequence is one replacement character, so that reading never
fails and line numbers stay meaningful. Stored programs are read strictly instead.
-/

namespace LineScript.Text

/-- A sequence of bytes, as files, stored programs and digests hold them. -/
abbrev Bytes := List UInt8

/-- The character that stands for a byte outside every well-formed sequence. -/
def replacement : Char := '\uFFFD'

/-- Whether a byte continues a multi-byte sequence. -/
def isContinuation (b : UInt8) : Bool :=
  0x80 ≤ b && b ≤ 0xbf

/-- The six payload bits of a continuation byte. -/
def payload (b : UInt8) : Nat :=
  b.toNat % 64

/-- The character whose encoding begins with `b` and goes on in `rest`, with the number of
further bytes it takes. The bounds on the second byte exclude overlong forms, surrogates and code
points past the last one. -/
def leading? (b : UInt8) (rest : Bytes) : Option (Char × Nat) :=
  if b < 0x80 then some (Char.ofNat b.toNat, 0)
  else if b < 0xc2 then none
  else if b < 0xe0 then
    match rest with
    | b₁ :: _ =>
      if isContinuation b₁ then some (Char.ofNat (b.toNat % 32 * 64 + payload b₁), 1) else none
    | _ => none
  else if b < 0xf0 then
    match rest with
    | b₁ :: b₂ :: _ =>
      let low : UInt8 := if b = 0xe0 then 0xa0 else 0x80
      let high : UInt8 := if b = 0xed then 0x9f else 0xbf
      if low ≤ b₁ && b₁ ≤ high && isContinuation b₂ then
        some (Char.ofNat ((b.toNat % 16 * 64 + payload b₁) * 64 + payload b₂), 2)
      else none
    | _ => none
  else if b < 0xf5 then
    match rest with
    | b₁ :: b₂ :: b₃ :: _ =>
      let low : UInt8 := if b = 0xf0 then 0x90 else 0x80
      let high : UInt8 := if b = 0xf4 then 0x8f else 0xbf
      if low ≤ b₁ && b₁ ≤ high && isContinuation b₂ && isContinuation b₃ then
        some (Char.ofNat (((b.toNat % 8 * 64 + payload b₁) * 64 + payload b₂) * 64 + payload b₃), 3)
      else none
    | _ => none
  else none

/-- Lenient reading with `skip` bytes of the current character still to pass over. -/
def decodeFrom : Nat → Bytes → List Char
  | _, [] => []
  | skip + 1, _ :: rest => decodeFrom skip rest
  | 0, b :: rest =>
    match leading? b rest with
    | some (c, further) => c :: decodeFrom further rest
    | none => replacement :: decodeFrom 0 rest

/-- Lenient reading of a text: every byte outside a well-formed sequence is one replacement
character. -/
def decode (bytes : Bytes) : String :=
  String.ofList (decodeFrom 0 bytes)

/-- The UTF-8 bytes of a text. -/
def encode (s : String) : Bytes :=
  s.toList.flatMap String.utf8EncodeChar

/-- The text of the first bytes of a text. What is left of a character that was cut is read leniently. -/
def front (bytes : Nat) (s : String) : String :=
  decode ((encode s).take bytes)

/-- Strict reading of a text: nothing but well-formed sequences. -/
def decodeStrictFrom : Nat → Bytes → Option (List Char)
  | 0, [] => some []
  | _ + 1, [] => none
  | skip + 1, _ :: rest => decodeStrictFrom skip rest
  | 0, b :: rest =>
    match leading? b rest with
    | some (c, further) => (decodeStrictFrom further rest).map (c :: ·)
    | none => none

/-- The text that a byte sequence encodes, if it is well formed throughout. -/
def decode? (bytes : Bytes) : Option String :=
  (decodeStrictFrom 0 bytes).map String.ofList

end LineScript.Text
