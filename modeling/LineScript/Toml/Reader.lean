/-
# Reading TOML

The statements of a text. Inside a list and an inline table line ends and comments may stand between
the parts, and a comma may follow the last part; everywhere else a statement takes one line.
-/

import LineScript.Text.Letter
import LineScript.Text.Utf8
import LineScript.Toml.Scalar

namespace LineScript.Toml

/-- Whether a character may stand in a bare key. -/
def isBareKeyChar (c : Char) : Bool :=
  c.isAlphanum || c == '_' || c == '-'

/-- What follows the blanks at the front. -/
def skipSpaces (cs : List Char) : List Char := cs.dropWhile isSpace

/-- One part of a key. -/
def keyPart? (cs : List Char) : Option (String × List Char) :=
  match cs with
  | '\x22' :: rest => (basicFrom? 0 rest).map fun (s, rest) => (String.ofList s, rest)
  | '\x27' :: rest => (literalFrom? rest).map fun (s, rest) => (String.ofList s, rest)
  | _ =>
    let name := cs.takeWhile isBareKeyChar
    if name.isEmpty then none else some (String.ofList name, cs.dropWhile isBareKeyChar)

/-- The parts of a key, and what follows it and the blanks after it. Every part takes a character, so
fuel for the characters is enough. -/
def key? : Nat → List Char → Option (Key × List Char)
  | 0, _ => none
  | fuel + 1, cs =>
    match keyPart? (skipSpaces cs) with
    | none => none
    | some (part, rest) =>
      match skipSpaces rest with
      | '.' :: rest => (key? fuel rest).map fun (parts, rest) => (part :: parts, rest)
      | rest => some ([part], rest)

/-- What follows the blanks, line ends and comments at the front; `inComment` is whether a comment is
going on. -/
def skipLines : Bool → List Char → List Char
  | _, [] => []
  | inComment, c :: rest =>
    if isLineEnd c then skipLines false rest
    else if inComment then skipLines true rest
    else if isSpace c then skipLines false rest
    else if c = '#' then skipLines true rest
    else c :: rest

/-- A word of letters that stands for a value. -/
def word? (cs : List Char) : Option (Written × List Char) :=
  let word := String.ofList (cs.takeWhile Text.isLetter)
  let rest := cs.dropWhile Text.isLetter
  if word = "true" then some (.boolean true, rest)
  else if word = "false" then some (.boolean false, rest)
  else none

mutual

/-- The value at the front, and what follows it. Every list or table entered and every part of one
takes a character, so fuel for twice the characters is enough. -/
def value? : Nat → List Char → Option (Written × List Char)
  | 0, _ => none
  | fuel + 1, cs =>
    match skipSpaces cs with
    | '[' :: rest => (items? fuel rest).map fun (items, rest) => (.array items, rest)
    | '\x7b' :: rest => (members? fuel rest).map fun (members, rest) => (.inline members, rest)
    | '+' :: rest => signed? '+' rest
    | '-' :: rest => signed? '-' rest
    | 'i' :: 'n' :: 'f' :: rest => some (.fraction, rest)
    | 'n' :: 'a' :: 'n' :: rest => some (.fraction, rest)
    | c :: rest =>
      if c = '\x22' || c = '\x27' then (text? (c :: rest)).map fun (s, rest) => (.string s, rest)
      else if c.isDigit then unsigned? (c :: rest)
      else word? (c :: rest)
    | [] => none

/-- The items of a list up to its closing bracket, and what follows it. -/
def items? : Nat → List Char → Option (List Written × List Char)
  | 0, _ => none
  | fuel + 1, cs =>
    match skipLines false cs with
    | ']' :: rest => some ([], rest)
    | cs =>
      match value? fuel cs with
      | none => none
      | some (v, rest) =>
        match skipLines false rest with
        | ']' :: rest => some ([v], rest)
        | ',' :: rest => (items? fuel rest).map fun (vs, rest) => (v :: vs, rest)
        | _ => none

/-- The members of an inline table up to its closing brace, and what follows it. -/
def members? : Nat → List Char → Option (List (Key × Written) × List Char)
  | 0, _ => none
  | fuel + 1, cs =>
    match skipLines false cs with
    | '\x7d' :: rest => some ([], rest)
    | cs =>
      match key? (cs.length + 1) cs with
      | some (key, '=' :: rest) =>
        match value? fuel rest with
        | none => none
        | some (v, rest) =>
          match skipLines false rest with
          | '\x7d' :: rest => some ([(key, v)], rest)
          | ',' :: rest => (members? fuel rest).map fun (ms, rest) => ((key, v) :: ms, rest)
          | _ => none
      | _ => none

end

/-- What follows the rest of a line, which may hold nothing but blanks and a comment. -/
def endLine? (cs : List Char) : Option (List Char) :=
  match skipSpaces cs with
  | [] => some []
  | '#' :: rest => some (rest.dropWhile (!isLineEnd ·))
  | c :: rest => if isLineEnd c then some rest else none

/-- The statement at the front, and what follows it. -/
def statement? (cs : List Char) : Option (Statement × List Char) :=
  match cs with
  | '[' :: '[' :: rest =>
    match key? (rest.length + 1) rest with
    | some (key, ']' :: ']' :: rest) => some (.tableOfList key, rest)
    | _ => none
  | '[' :: rest =>
    match key? (rest.length + 1) rest with
    | some (key, ']' :: rest) => some (.table key, rest)
    | _ => none
  | cs =>
    match key? (cs.length + 1) cs with
    | some (key, '=' :: rest) =>
      (value? (2 * rest.length + 2) rest).map fun (v, rest) => (.assignment key v, rest)
    | _ => none

/-- The statements of the characters. Every statement takes a character, so fuel for the characters is
enough. -/
def statements? : Nat → List Char → Option (List Statement)
  | 0, _ => none
  | fuel + 1, cs =>
    match skipLines false cs with
    | [] => some []
    | cs =>
      match statement? cs with
      | none => none
      | some (s, rest) =>
        match endLine? rest with
        | none => none
        | some rest => (statements? fuel rest).map (s :: ·)

/-- Whether the characters hold no control characters but tabs and line ends, and every carriage
return is followed by a line feed. -/
def isClean : List Char → Bool
  | [] => true
  | '\r' :: rest => rest.head? == some '\n' && isClean rest
  | c :: rest => (c == '\t' || c == '\n' || (0x20 ≤ c.toNat && c.toNat ≠ 0x7f)) && isClean rest

/-- Bytes without the order mark at their front, if there is one. -/
def dropOrderMark : Text.Bytes → Text.Bytes
  | 0xff :: 0xfe :: rest => rest
  | 0xfe :: 0xff :: rest => rest
  | 0xef :: 0xbb :: 0xbf :: rest => rest
  | bytes => bytes

/-- The statements of a text. An order mark at its front is passed over, whatever it says: the text
itself has to be well formed. -/
def read? (bytes : Text.Bytes) : Option (List Statement) := do
  let text ← Text.decode? (dropOrderMark bytes)
  let cs := text.toList
  if isClean cs then statements? (cs.length + 1) cs else none

end LineScript.Toml
