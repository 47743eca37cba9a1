/-
# White space

The code points with the property White_Space. Signatures, manifest values and interactive entries
are trimmed of these at both ends.
-/

import LineScript.Text.Ranges

namespace LineScript.Text

/-- The intervals of white space. -/
def blanks : Ranges :=
  [(0x9, 0xd), (0x20, 0x20), (0x85, 0x85), (0xa0, 0xa0), (0x1680, 0x1680), (0x2000, 0x200a),
   (0x2028, 0x2029), (0x202f, 0x202f), (0x205f, 0x205f), (0x3000, 0x3000)]

/-- Whether a character is white space. -/
def isBlank (c : Char) : Bool :=
  blanks.contains c.toNat

/-- A character list without the white space at its end. -/
def trimEnd : List Char → List Char
  | [] => []
  | c :: rest =>
    match trimEnd rest with
    | [] => if isBlank c then [] else [c]
    | kept => c :: kept

/-- A character list without the white space at either end. -/
def trimChars (cs : List Char) : List Char :=
  trimEnd (cs.dropWhile isBlank)

/-- A text without the white space at either end. -/
def trim (s : String) : String :=
  String.ofList (trimChars s.toList)

end LineScript.Text
