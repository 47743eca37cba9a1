/-
# Characters of a YAML file

Not every character may stand in a YAML file. A file is taken in by blocks of bytes; a block with a
character that may not stand there is not readable, and neither is what follows it. That is a fault
only for a reader that gets so far: the document may have ended before.
-/

import LineScript.Text.Utf8

namespace LineScript.Yaml

/-- Whether a character may stand in a file. -/
def isAllowed (c : Char) : Bool :=
  let n := c.toNat
  n == 0x09 || n == 0x0a || n == 0x0d || (0x20 ≤ n && n ≤ 0x7e) || n == 0x85
    || (0xa0 ≤ n && n ≤ 0xfffd) || 0x10000 ≤ n

/-- The mark that may open a file and is not part of its text. -/
def orderMark : Char := '\ufeff'

/-- The readable characters of a file. -/
structure Source where
  chars : List Char
  /-- Whether something follows that is not readable. -/
  cut : Bool := false
  /-- How many characters the first block has. -/
  firstBlock : Nat := 0

namespace Source

/-- How many bytes a block has. A character that does not fit begins the next block. -/
def blockSize : Nat := 512

/-- The characters of the first block, of which `used` bytes are taken. -/
def block (used : Nat) : List Char → List Char
  | [] => []
  | c :: rest =>
    if blockSize < used + c.utf8Size then [] else c :: block (used + c.utf8Size) rest

/-- The readable characters of a text, and whether something follows; the first block has `used` bytes
before the text. Every block holds a character, so fuel for the characters is enough. -/
def readable : Nat → Nat → List Char → List Char × Bool
  | 0, _, _ => ([], false)
  | fuel + 1, used, text =>
    if text.isEmpty then ([], false)
    else
      let front := block used text
      if front.all isAllowed then
        let (chars, cut) := readable fuel 0 (text.drop front.length)
        (front ++ chars, cut)
      else ([], true)

/-- The readable characters of a file, without the mark that opens it. -/
def ofText (text : List Char) : Source :=
  let marked := text.head? == some orderMark
  let used := if marked then orderMark.utf8Size else 0
  let text := if marked then text.drop 1 else text
  let (chars, cut) := readable (text.length + 1) used text
  { chars := chars, cut := cut, firstBlock := (block used text).length }

end Source

end LineScript.Yaml
