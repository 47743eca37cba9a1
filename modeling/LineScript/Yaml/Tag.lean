/-
# YAML tags and directives

A tag says what kind of node follows it: in full between angle brackets, or shortened by a handle. A
directive stands on a line of its own before a document and says which version the document is written
for, or what a handle stands for.
-/

import LineScript.Number.Integer
import LineScript.Yaml.Cursor
import LineScript.Yaml.Token
import LineScript.Text.Utf8

namespace LineScript.Yaml

open LineScript.Text (Bytes)

/-! ## Names of tags -/

/-- Whether a character can be part of the name of a tag. -/
def isTagChar (c : Char) : Bool :=
  isNameChar c || ";/?:@&=+$,.!~*'()[]%".toList.contains c

/-- How many bytes a character takes whose first byte is given; zero if no character begins with it. -/
def claimedWidth (b : Nat) : Nat :=
  if b < 0x80 then 1 else if b < 0xc0 then 0 else if b < 0xe0 then 2 else if b < 0xf0 then 3
  else if b < 0xf8 then 4 else 0

/-- A byte written as a percent sign and two hexadecimal digits. -/
def escapedByte? : List Char → Option (Nat × List Char)
  | '%' :: a :: b :: rest => (Number.inBase? 16 [a, b]).map (·, rest)
  | _ => none

/-- The further bytes of an escaped character. -/
def furtherBytes? : Nat → List Char → Option (Bytes × List Char)
  | 0, cs => some ([], cs)
  | n + 1, cs =>
    (escapedByte? cs).bind fun (b, cs) =>
      if b / 64 = 2 then (furtherBytes? n cs).map fun (bs, cs) => (UInt8.ofNat b :: bs, cs) else none

/-- The name of a tag in bytes, and what follows it. Every step takes a character. -/
def tagBytes? : Nat → List Char → Option (Bytes × List Char)
  | 0, cs => some ([], cs)
  | _, [] => some ([], [])
  | fuel + 1, c :: rest =>
    if c == '%' then
      (escapedByte? (c :: rest)).bind fun (b, cs) =>
        if claimedWidth b = 0 then none
        else
          (furtherBytes? (claimedWidth b - 1) cs).bind fun (bs, cs) =>
            (tagBytes? fuel cs).map fun (more, cs) => (UInt8.ofNat b :: (bs ++ more), cs)
    else if isTagChar c then
      (tagBytes? fuel rest).map fun (more, cs) => (Text.encode (String.singleton c) ++ more, cs)
    else some ([], c :: rest)

/-- The name of a tag after a front that was read already. Without a front it must not be empty. -/
def tagName? (front : List Char) (c : Cursor) : Option (String × Cursor) :=
  (tagBytes? c.rest.length c.rest).bind fun (bytes, rest) =>
    if front.isEmpty && bytes.isEmpty then none
    else
      some (String.ofList (front.drop 1) ++ Text.decode bytes,
        c.skip (c.rest.length - rest.length))

/-- A handle: an exclamation mark, a name, and an exclamation mark if there is one. -/
def handle? (c : Cursor) : Option (List Char × Cursor) :=
  if comesNext (· == '!') c.rest then
    let (name, after) := (c.skip 1).span isNameChar
    if comesNext (· == '!') after.rest then some ('!' :: (name ++ ['!']), after.skip 1)
    else some ('!' :: name, after)
  else none

/-- Whether a handle is closed by a second exclamation mark. -/
def isClosedHandle (handle : List Char) : Bool :=
  1 < handle.length && handle.getLast? == some '!'

/-- A tag and the place after it. -/
def tag? (c : Cursor) : Option (TokenKind × Cursor) :=
  let tag : Option (TokenKind × Cursor) :=
    if comesNext (· == '<') (c.rest.drop 1) then
      (tagName? [] (c.skip 2)).bind fun (name, c) =>
        if comesNext (· == '>') c.rest then some (.tag "" name, c.skip 1) else none
    else
      (handle? c).bind fun (handle, c) =>
        if isClosedHandle handle then
          (tagName? [] c).map fun (name, c) => (.tag (String.ofList handle) name, c)
        else
          (tagName? handle c).map fun (name, c) =>
            if name.isEmpty then (.tag "" "!", c) else (.tag "!" name, c)
  tag.bind fun (kind, after) => if atGap after.rest then some (kind, after) else none

/-! ## Directives -/

/-- A part of a version, of at most two digits. -/
def versionPart? (c : Cursor) : Option (Nat × Cursor) :=
  let (digits, after) := c.span Char.isDigit
  if 2 < digits.length then none else (Number.inBase? 10 digits).map (·, after)

/-- The rest of a directive that states a version. -/
def version? (c : Cursor) : Option (TokenKind × Cursor) :=
  (versionPart? c.skipBlanks).bind fun (major, c) =>
    if comesNext (· == '.') c.rest then
      (versionPart? (c.skip 1)).map fun (minor, c) => (.version major minor, c)
    else none

/-- The rest of a directive that says what a handle stands for. -/
def tagHandle? (c : Cursor) : Option (TokenKind × Cursor) :=
  (handle? c.skipBlanks).bind fun (handle, c) =>
    if !(handle == ['!'] || isClosedHandle handle) || !comesNext isBlank c.rest then none
    else
      (tagName? [] c.skipBlanks).bind fun (expansion, c) =>
        if atGap c.rest then some (.tagHandle (String.ofList handle) expansion, c) else none

/-- A directive, from its percent sign to the end of its line. Only two are known. -/
def directive? (c : Cursor) : Option (TokenKind × Cursor) :=
  let (name, c) := (c.skip 1).span isNameChar
  let body : Option (TokenKind × Cursor) :=
    if !atGap c.rest then none
    else if name == "YAML".toList then version? c
    else if name == "TAG".toList then tagHandle? c
    else none
  body.bind fun (kind, c) =>
    let c := c.skipBlanks
    let c := if comesNext (· == '#') c.rest then c.skipLine else c
    if atLineEnd c.rest then some (kind, c.skipBreak) else none

end LineScript.Yaml
