/-
# From text to tokens

A script is read front to back, one token at a time, counting lines on the way. The null character
ends the input wherever it stands. The sequence always ends with a line break, so the last statement
is terminated like every other.
-/

import LineScript.Compile.Error
import LineScript.Number.Reading
import LineScript.Text.Letter

namespace LineScript.Token

/-- Spaces, tabs and carriage returns separate tokens and mean nothing else. -/
def isSpace (c : Char) : Bool := c = ' ' || c = '\t' || c = '\r'

/-- The digits of numbers. -/
def isDigit (c : Char) : Bool := '0' ≤ c && c ≤ '9'

/-- The characters a name can begin with. -/
def isNameStart (c : Char) : Bool := Text.isLetter c || c = '_'

/-- The characters a name can go on with. -/
def isNameChar (c : Char) : Bool := Text.isLetter c || isDigit c || c = '_'

/-- Passes over spaces and a comment, up to the next token or line break. -/
def skipSpaces : List Char → List Char
  | [] => []
  | c :: rest =>
    if isSpace c then skipSpaces rest
    else if c = '#' then rest.dropWhile (· ≠ '\n')
    else c :: rest

/-- Passes over blank lines and comments, up to the next token, counting lines. -/
def skipLines : Bool → Nat → List Char → Nat × List Char
  | _, line, [] => (line, [])
  | inComment, line, c :: rest =>
    if c = '\n' then skipLines false (line + 1) rest
    else if inComment then skipLines true line rest
    else if isSpace c then skipLines false line rest
    else if c = '#' then skipLines true line rest
    else (line, c :: rest)

/-- The tokens that are a single character. -/
def symbol? : Char → Option TokenKind
  | '(' => some .leftParen
  | ')' => some .rightParen
  | '[' => some .leftBracket
  | ']' => some .rightBracket
  | '{' => some .leftBrace
  | '}' => some .rightBrace
  | ',' => some .comma
  | '.' => some .dot
  | '=' => some .equal
  | '+' => some .plus
  | '-' => some .minus
  | '*' => some .star
  | '/' => some .slash
  | _ => none

/-- The character that an escape stands for. -/
def escaped? (c : Char) : Option Char :=
  if c = 'n' then some '\n'
  else if c = 't' then some '\t'
  else if c = 'r' then some '\r'
  else if c = '\\' || c = '\x22' || c = '\x27' then some c
  else none

/-- The content of a string literal up to its closing quote. -/
def stringBody (quote : Char) : List Char → Except LexicalCause (List Char × List Char)
  | [] => .error .unterminatedString
  | '\\' :: [] => .error (.invalidEscape '\x00')
  | '\\' :: c :: rest =>
    match escaped? c with
    | some e => (stringBody quote rest).map fun (content, rest) => (e :: content, rest)
    | none => .error (.invalidEscape c)
  | c :: rest =>
    if c = quote then .ok ([], rest)
    else if c = '\n' then .error .unterminatedString
    else (stringBody quote rest).map fun (content, rest) => (c :: content, rest)

/-- The digits of a number, with a fraction when a digit follows the point. -/
def numberBody (cs : List Char) : List Char × List Char :=
  let whole := cs.takeWhile isDigit
  match cs.dropWhile isDigit with
  | '.' :: d :: rest =>
    if isDigit d then
      (whole ++ '.' :: (d :: rest).takeWhile isDigit, (d :: rest).dropWhile isDigit)
    else (whole, '.' :: d :: rest)
  | rest => (whole, rest)

/-- The token of a word: a reserved word or a name. -/
def word (text : String) (line : Nat) : Token :=
  match reserved.lookup text with
  | some .boolean => { kind := .boolean, value := .ofBool (text = "true"), text := text, line := line }
  | some kind => { kind := kind, text := text, line := line }
  | none => { kind := .identifier, text := text, line := line }

/-- One token and what follows it. -/
structure Scanned where
  token : Token
  rest : List Char
  line : Nat

/-- A token of two characters when an equals sign follows, else one of a single character. -/
def comparison (line : Nat) (alone together : TokenKind) : List Char → Scanned
  | '=' :: rest => ⟨{ kind := together, text := together.label, line := line }, rest, line⟩
  | rest => ⟨{ kind := alone, text := alone.label, line := line }, rest, line⟩

/-- The token that begins with the given character. -/
def beginning (line : Nat) (c : Char) (rest : List Char) : Except LexicalCause Scanned :=
  if c = '\n' then
    let (next, rest) := skipLines false (line + 1) rest
    .ok ⟨{ kind := .lineBreak, text := "\n", line := line }, rest, next⟩
  else
    match symbol? c with
    | some kind => .ok ⟨{ kind := kind, text := String.singleton c, line := line }, rest, line⟩
    | none =>
      if c = '<' then .ok (comparison line .less .lessEqual rest)
      else if c = '>' then .ok (comparison line .greater .greaterEqual rest)
      else if c = '!' then
        match rest with
        | '=' :: rest => .ok ⟨{ kind := .notEqual, text := "!=", line := line }, rest, line⟩
        | _ => .error (.unexpectedCharacter '!')
      else if c = '\x22' || c = '\x27' then
        (stringBody c rest).map fun (content, rest) =>
          let s := String.ofList content
          ⟨{ kind := .string, value := .ofString s, text := s, line := line }, rest, line⟩
      else if isDigit c then
        let (digits, rest) := numberBody (c :: rest)
        let text := String.ofList digits
        match Number.read? text with
        | some x => .ok ⟨{ kind := .number, value := .ofNumber x, text := text, line := line }, rest, line⟩
        | none => .error (.numberTooLarge text)
      else if isNameStart c then
        let name := String.ofList (c :: rest.takeWhile isNameChar)
        .ok ⟨word name line, rest.dropWhile isNameChar, line⟩
      else .error (.unexpectedCharacter c)

/-- The tokens of a text from a line on. Every token takes at least one character, so fuel for one more
than there are characters is enough. `ended` says whether the last token was a line break. -/
def scanFrom : Nat → Nat → Bool → List Char → Except CompileError (List Token)
  | 0, line, _, _ => .error { cause := .exhausted, line := line }
  | fuel + 1, line, ended, cs =>
    match skipSpaces cs with
    | [] => .ok (if ended then [] else [{ kind := .lineBreak, text := "\n", line := line }])
    | c :: rest =>
      match beginning line c rest with
      | .error cause => .error { cause := .lexical cause, line := line }
      | .ok next =>
        (scanFrom fuel next.line (next.token.kind = .lineBreak) next.rest).map (next.token :: ·)

/-- The tokens of a script. -/
def scan (source : String) : Except CompileError (List Token) :=
  let cs := source.toList.takeWhile (· ≠ '\x00')
  scanFrom (cs.length + 1) 1 false cs

end LineScript.Token
