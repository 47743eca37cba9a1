/-
# Places in a YAML text

The characters a YAML text is made of, and a place in a text. Lines and columns matter to YAML: what
begins further to the right belongs to what began before it, and a key has to stand on one line.
-/

import LineScript.Text.Hex

namespace LineScript.Yaml

/-- Whether a character is a blank within a line. -/
def isBlank (c : Char) : Bool := c == ' ' || c == '\t'

/-- Whether a character breaks a line or is part of what breaks one. -/
def isBreak (c : Char) : Bool :=
  c == '\n' || c == '\r' || c == '\u0085' || c == '\u2028' || c == '\u2029'

/-- Whether a character separates words. -/
def isGap (c : Char) : Bool := isBlank c || isBreak c

/-- Whether a character can be part of the name of an anchor, a directive or a tag handle. -/
def isNameChar (c : Char) : Bool := c.isAlphanum || c == '_' || c == '-'

/-- Whether a gap or the end of the text comes next. -/
def atGap : List Char → Bool
  | [] => true
  | c :: _ => isGap c

/-- Whether a line break or the end of the text comes next. -/
def atLineEnd : List Char → Bool
  | [] => true
  | c :: _ => isBreak c

/-- Whether a character that fits comes next. -/
def comesNext (fits : Char → Bool) : List Char → Bool
  | [] => false
  | c :: _ => fits c

/-- A place in a text: what follows it, the number of characters of the text, the number of characters
before the place, its line and its column. -/
structure Cursor where
  rest : List Char
  size : Nat
  index : Nat := 0
  line : Nat := 0
  column : Nat := 0

namespace Cursor

/-- The beginning of a text. -/
def start (text : List Char) : Cursor := { rest := text, size := text.length }

/-- The place after a number of characters of the same line. -/
def skip (c : Cursor) (n : Nat) : Cursor :=
  { c with rest := c.rest.drop n, index := c.index + n, column := c.column + n }

/-- The place after the line break here, if there is one. A carriage return and a line feed are one
line break. -/
def skipBreak (c : Cursor) : Cursor :=
  match c.rest with
  | '\r' :: '\n' :: rest => ⟨rest, c.size, c.index + 2, c.line + 1, 0⟩
  | x :: rest => if isBreak x then ⟨rest, c.size, c.index + 1, c.line + 1, 0⟩ else c
  | [] => c

/-- What the line break here stands for in a scalar. The separators of lines and paragraphs stand for
themselves, all other breaks for a line feed. -/
def breakText (c : Cursor) : List Char :=
  match c.rest with
  | [] => []
  | x :: _ => if x == '\u2028' || x == '\u2029' then [x] else if isBreak x then ['\n'] else []

/-- The characters from here that fit, and the place after them. They must not break a line. -/
def span (c : Cursor) (fits : Char → Bool) : List Char × Cursor :=
  let taken := c.rest.takeWhile fits
  (taken, c.skip taken.length)

/-- The place after the blanks here. -/
def skipBlanks (c : Cursor) : Cursor := (c.span isBlank).2

/-- The place at the end of the line. -/
def skipLine (c : Cursor) : Cursor := (c.span fun x => !isBreak x).2

/-- Whether a mark that begins or ends a document stands here. -/
def atDocumentMark (c : Cursor) : Bool :=
  let front := c.rest.take 3
  c.column == 0 && (front == ['-', '-', '-'] || front == ['.', '.', '.']) && atGap (c.rest.drop 3)

end Cursor

end LineScript.Yaml
