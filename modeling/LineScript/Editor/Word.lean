/-
# Words in a document

The name under the cursor. An editor gives the cursor as a line and a byte column, so words are cut
out of the bytes of a line, and each byte is judged as the character of the same number. A column past
the end of a line is its end.
-/

import LineScript.Text.Digit
import LineScript.Text.Hex
import LineScript.Text.Letter

namespace LineScript.Editor

open LineScript.Text (Bytes)

/-- Whether a character can be part of a word: a letter, a decimal digit or a low line. -/
def isWordChar (c : Char) : Bool :=
  Text.isLetter c || Text.isDecimalDigit c || c == '_'

/-- Whether a byte counts as part of a word. -/
def isWordByte (b : UInt8) : Bool :=
  isWordChar (Char.ofNat b.toNat)

/-- A place in a document, both numbers counted from zero; the column counts bytes. -/
structure Position where
  line : Nat
  column : Nat
  deriving DecidableEq, Repr

/-- The bytes of the line of a position, before and after it. -/
def around? (text : String) (pos : Position) : Option (Bytes × Bytes) :=
  (Text.lines text)[pos.line]?.map fun line =>
    let bytes := Text.encode line
    (bytes.take pos.column, bytes.drop pos.column)

/-- The word bytes at the end of a byte sequence. -/
def trailingWord (bytes : Bytes) : Bytes :=
  (bytes.reverse.takeWhile isWordByte).reverse

/-- The part of a word before a position, empty when there is none. -/
def wordBefore (text : String) (pos : Position) : Bytes :=
  match around? text pos with
  | none => []
  | some (before, _) => trailingWord before

/-- The word around a position, empty when there is none. -/
def wordAround (text : String) (pos : Position) : Bytes :=
  match around? text pos with
  | none => []
  | some (before, after) => trailingWord before ++ after.takeWhile isWordByte

/-- Whether a text is a single word that does not begin with a digit. -/
def isWord (s : String) : Bool :=
  match s.toList with
  | [] => false
  | c :: rest => !('0' ≤ c && c ≤ '9') && (c :: rest).all isWordChar

end LineScript.Editor
