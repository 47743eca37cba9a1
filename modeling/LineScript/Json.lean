/-
# JSON

The data format that requests and answers are written in. A number keeps the text it was written
with, because whether it is read as a count or as a measure is for its reader to say. Members stay in
the order they were written, and a member written twice has its last value.

Reading is strict about the grammar and lenient about characters: an escape that names half of a
surrogate pair is one replacement character.
-/

import LineScript.Number.Power
import LineScript.Text.Hex

namespace LineScript

/-- A JSON value. -/
inductive Json where
  | null
  | boolean (b : Bool)
  | number (text : String)
  | string (s : String)
  | array (items : List Json)
  | object (members : List (String × Json))

namespace Json

instance : Inhabited Json := ⟨.null⟩

/-- A whole number. -/
def ofInt (n : Int) : Json := .number (toString n)

/-- A natural number. -/
def ofNat (n : Nat) : Json := .number (toString n)

/-- The last member with a key. -/
def last? (key : String) : List (String × Json) → Option Json
  | [] => none
  | (k, v) :: rest =>
    match last? key rest with
    | some found => some found
    | none => if k = key then some v else none

/-- The member of an object with a key. -/
def get? : Json → String → Option Json
  | .object members, key => last? key members
  | _, _ => none

/-- A character with the difference between small and capital letters of the basic alphabet set aside.
Two letters beyond it have a capital or a small form within it. -/
def foldChar (c : Char) : Char :=
  if c = '\u017f' then 's' else if c = '\u212a' then 'k' else c.toLower

/-- Whether two keys name the same field when case is set aside. -/
def sameKey (a b : String) : Bool :=
  a.toList.map foldChar == b.toList.map foldChar

/-- Whether a character may stand between the parts of a value. -/
def isSpace (c : Char) : Bool :=
  c == ' ' || c == '\t' || c == '\n' || c == '\r'

/-- What follows the blanks at the front. -/
def skipSpace (cs : List Char) : List Char := cs.dropWhile isSpace

/-! ## Reading texts -/

/-- A piece of a written text: a character, or the code unit of a numeric escape. -/
inductive Piece where
  | char (c : Char)
  | unit (n : Nat)

/-- The character that a letter after a backslash stands for. -/
def escaped? (c : Char) : Option Char :=
  match c with
  | '\x22' => some '\x22'
  | '\\' => some '\\'
  | '/' => some '/'
  | 'b' => some '\x08'
  | 'f' => some '\x0c'
  | 'n' => some '\n'
  | 'r' => some '\r'
  | 't' => some '\t'
  | _ => none

/-- The number that four hexadecimal digits stand for. -/
def unit? (a b c d : Char) : Option Nat := do
  let a ← Text.hexValue? a
  let b ← Text.hexValue? b
  let c ← Text.hexValue? c
  let d ← Text.hexValue? d
  pure (((a * 16 + b) * 16 + c) * 16 + d)

/-- The pieces up to the closing quote, and what follows it. -/
def pieces? : List Char → Option (List Piece × List Char)
  | [] => none
  | '\x22' :: rest => some ([], rest)
  | '\\' :: 'u' :: a :: b :: c :: d :: rest => do
    let n ← unit? a b c d
    let (ps, rest) ← pieces? rest
    pure (.unit n :: ps, rest)
  | '\\' :: e :: rest => do
    let c ← escaped? e
    let (ps, rest) ← pieces? rest
    pure (.char c :: ps, rest)
  | c :: rest => do
    if c.toNat < 0x20 then none
    let (ps, rest) ← pieces? rest
    pure (.char c :: ps, rest)

/-- Whether a code unit opens a surrogate pair. -/
def isHigh (n : Nat) : Bool := 0xd800 ≤ n && n < 0xdc00

/-- Whether a code unit closes a surrogate pair. -/
def isLow (n : Nat) : Bool := 0xdc00 ≤ n && n < 0xe000

/-- The character of a code unit that stands alone. -/
def alone (n : Nat) : Char :=
  if isHigh n || isLow n then Text.replacement else Char.ofNat n

/-- The characters of the pieces, surrogate pairs joined. -/
def joinPieces : List Piece → List Char
  | [] => []
  | .char c :: rest => c :: joinPieces rest
  | .unit n :: .unit m :: rest =>
    if isHigh n && isLow m then
      Char.ofNat (0x10000 + (n - 0xd800) * 0x400 + (m - 0xdc00)) :: joinPieces rest
    else alone n :: joinPieces (.unit m :: rest)
  | .unit n :: rest => alone n :: joinPieces rest

/-- The text whose opening quote has been passed, and what follows it. -/
def text? (cs : List Char) : Option (String × List Char) :=
  (pieces? cs).map fun (ps, rest) => (String.ofList (joinPieces ps), rest)

/-! ## Reading numbers -/

/-- A run of at least one digit, and what follows it. -/
def digits? (cs : List Char) : Option (List Char × List Char) :=
  let ds := cs.takeWhile Char.isDigit
  if ds.isEmpty then none else some (ds, cs.dropWhile Char.isDigit)

/-- The part of a number before the point. A zero at the front stands alone. -/
def wholePart? (cs : List Char) : Option (List Char × List Char) :=
  match cs with
  | '0' :: rest => some (['0'], rest)
  | _ => digits? cs

/-- The point and the digits after it, if there is a point. -/
def fraction? (cs : List Char) : Option (List Char × List Char) :=
  match cs with
  | '.' :: rest => (digits? rest).map fun (ds, rest) => ('.' :: ds, rest)
  | _ => some ([], cs)

/-- The sign at the front of an exponent. -/
def exponentSign (cs : List Char) : List Char × List Char :=
  match cs with
  | '+' :: rest => (['+'], rest)
  | '-' :: rest => (['-'], rest)
  | _ => ([], cs)

/-- The exponent, if there is one. -/
def exponent? (cs : List Char) : Option (List Char × List Char) :=
  match cs with
  | e :: rest =>
    if e == 'e' || e == 'E' then
      let (sign, rest) := exponentSign rest
      (digits? rest).map fun (ds, rest) => (e :: (sign ++ ds), rest)
    else some ([], cs)
  | [] => some ([], [])

/-- A number without its sign, and what follows it. -/
def unsigned? (cs : List Char) : Option (List Char × List Char) := do
  let (whole, rest) ← wholePart? cs
  let (fraction, rest) ← fraction? rest
  let (exponent, rest) ← exponent? rest
  pure (whole ++ fraction ++ exponent, rest)

/-- A number, and what follows it. -/
def number? (cs : List Char) : Option (Json × List Char) :=
  match cs with
  | '-' :: rest => (unsigned? rest).map fun (ds, rest) => (.number (String.ofList ('-' :: ds)), rest)
  | _ => (unsigned? cs).map fun (ds, rest) => (.number (String.ofList ds), rest)

/-! ## Reading values -/

/-- What follows a word at the front. -/
def after? (word : String) (cs : List Char) : Option (List Char) :=
  if word.toList.isPrefixOf cs then some (cs.drop word.length) else none

/-- How many lists and objects may be nested. -/
def maxNesting : Nat := 10000

mutual

/-- The value at the front, and what follows it, with `room` for as many lists and objects nested in
each other. Every list or object entered and every comma passed takes a character, so fuel for twice
the characters is enough. -/
def value? : Nat → Nat → List Char → Option (Json × List Char)
  | 0, _, _ => none
  | fuel + 1, room, cs =>
    match skipSpace cs with
    | '\x7b' :: rest =>
      if room = 0 then none
      else
        match skipSpace rest with
        | '\x7d' :: rest => some (.object [], rest)
        | rest => (members? fuel (room - 1) rest).map fun (ms, rest) => (.object ms, rest)
    | '[' :: rest =>
      if room = 0 then none
      else
        match skipSpace rest with
        | ']' :: rest => some (.array [], rest)
        | rest => (items? fuel (room - 1) rest).map fun (vs, rest) => (.array vs, rest)
    | '\x22' :: rest => (text? rest).map fun (s, rest) => (.string s, rest)
    | 'n' :: rest => (after? "ull" rest).map fun rest => (.null, rest)
    | 't' :: rest => (after? "rue" rest).map fun rest => (.boolean true, rest)
    | 'f' :: rest => (after? "alse" rest).map fun rest => (.boolean false, rest)
    | cs => number? cs

/-- The items up to the closing bracket, and what follows it. -/
def items? : Nat → Nat → List Char → Option (List Json × List Char)
  | 0, _, _ => none
  | fuel + 1, room, cs =>
    match value? fuel room cs with
    | none => none
    | some (v, rest) =>
      match skipSpace rest with
      | ']' :: rest => some ([v], rest)
      | ',' :: rest => (items? fuel room rest).map fun (vs, rest) => (v :: vs, rest)
      | _ => none

/-- The members up to the closing brace, and what follows it. -/
def members? : Nat → Nat → List Char → Option (List (String × Json) × List Char)
  | 0, _, _ => none
  | fuel + 1, room, cs =>
    match skipSpace cs with
    | '\x22' :: rest =>
      match text? rest with
      | none => none
      | some (key, rest) =>
        match skipSpace rest with
        | ':' :: rest =>
          match value? fuel room rest with
          | none => none
          | some (v, rest) =>
            match skipSpace rest with
            | '\x7d' :: rest => some ([(key, v)], rest)
            | ',' :: rest => (members? fuel room rest).map fun (ms, rest) => ((key, v) :: ms, rest)
            | _ => none
        | _ => none
    | _ => none

end

/-- The value that a text is, with nothing but blanks around it. -/
def parse? (s : String) : Option Json :=
  let cs := s.toList
  match value? (2 * cs.length + 2) maxNesting cs with
  | some (v, rest) => if (skipSpace rest).isEmpty then some v else none
  | none => none

/-- The whole number that a number's text is, if it has neither point nor exponent and fits in 64
signed bits. -/
def whole? (text : String) : Option Int :=
  let (negative, ds) := match text.toList with
    | '-' :: ds => (true, ds)
    | ds => (false, ds)
  if ds.isEmpty || !ds.all Char.isDigit then none
  else
    let n : Int := ds.foldl (fun n c => 10 * n + (c.toNat - 48)) (0 : Nat)
    let n := if negative then -n else n
    if Number.fits64 n then some n else none

/-! ## Writing -/

/-- The written form of a character inside a text. -/
def writtenChar (c : Char) : String :=
  if c = '\x22' then "\\\x22"
  else if c = '\\' then "\\\\"
  else if c.toNat < 0x20 then "\\u" ++ String.ofList (Text.hexDigits 4 c.toNat)
  else c.toString

/-- A text between quotes, after what is already written. -/
def writeText (out : String) (s : String) : String :=
  s.toList.foldl (fun out c => out ++ writtenChar c) (out ++ "\x22") ++ "\x22"

mutual

/-- A value after what is already written. -/
def write (out : String) : Json → String
  | .null => out ++ "null"
  | .boolean b => out ++ (if b then "true" else "false")
  | .number text => out ++ text
  | .string s => writeText out s
  | .array items => writeItems (out ++ "[") true items ++ "]"
  | .object members => writeMembers (out ++ "\x7b") true members ++ "\x7d"

/-- Items in a row, with a comma before each but the first. -/
def writeItems (out : String) (first : Bool) : List Json → String
  | [] => out
  | v :: rest => writeItems (write (if first then out else out ++ ",") v) false rest

/-- Members in a row, with a comma before each but the first. -/
def writeMembers (out : String) (first : Bool) : List (String × Json) → String
  | [] => out
  | (key, v) :: rest =>
    let out := writeText (if first then out else out ++ ",") key ++ ":"
    writeMembers (write out v) false rest

end

/-- A value as text. -/
def render (v : Json) : String := v.write ""

end Json

end LineScript
