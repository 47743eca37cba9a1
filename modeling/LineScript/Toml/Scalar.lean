/-
# Scalars of a TOML text

Texts in their four forms, numbers and points in time. Every reader takes what stands at the front of
the characters and gives back what follows.
-/

import LineScript.Number.Integer
import LineScript.Number.Reading
import LineScript.Toml.Statement
import LineScript.Text.Hex

namespace LineScript.Toml

/-- Whether a character is a blank within a line. -/
def isSpace (c : Char) : Bool := c == ' ' || c == '\t'

/-- Whether a character ends a line or is part of its end. -/
def isLineEnd (c : Char) : Bool := c == '\n' || c == '\r'

/-! ## Texts -/

/-- The character with a number, if there is one. -/
def charOf? (n : Nat) : Option Char :=
  if n < 0xd800 || (0xe000 ≤ n && n ≤ 0x10ffff) then some (Char.ofNat n) else none

/-- The character that a numeric escape of `width` digits stands for. -/
def numericEscape? (width : Nat) (cs : List Char) : Option (Char × Nat) :=
  let digits := cs.take width
  if digits.length < width then none
  else (Number.inBase? 16 digits).bind fun n => (charOf? n).map (·, width + 1)

/-- The character that an escape stands for, after its backslash, and how many characters it takes. -/
def escape? : List Char → Option (Char × Nat)
  | [] => none
  | c :: rest =>
    match c with
    | 'b' => some ('\x08', 1)
    | 't' => some ('\t', 1)
    | 'n' => some ('\n', 1)
    | 'f' => some ('\x0c', 1)
    | 'r' => some ('\r', 1)
    | 'e' => some ('\x1b', 1)
    | '\x22' => some ('\x22', 1)
    | '\\' => some ('\\', 1)
    | 'x' => numericEscape? 2 rest
    | 'u' => numericEscape? 4 rest
    | 'U' => numericEscape? 8 rest
    | _ => none

/-- A text in double quotes after the opening one, with `skip` characters of an escape still to pass
over. -/
def basicFrom? : Nat → List Char → Option (List Char × List Char)
  | _, [] => none
  | skip + 1, _ :: rest => basicFrom? skip rest
  | 0, c :: rest =>
    if c = '\x22' then some ([], rest)
    else if isLineEnd c then none
    else if c = '\\' then
      match escape? rest with
      | none => none
      | some (e, width) => (basicFrom? width rest).map fun (s, rest) => (e :: s, rest)
    else (basicFrom? 0 rest).map fun (s, rest) => (c :: s, rest)

/-- A text in single quotes after the opening one. -/
def literalFrom? : List Char → Option (List Char × List Char)
  | [] => none
  | c :: rest =>
    if c = '\x27' then some ([], rest)
    else if isLineEnd c then none
    else (literalFrom? rest).map fun (s, rest) => (c :: s, rest)

/-- How many of a character stand at the front. -/
def runLength (c : Char) (cs : List Char) : Nat := (cs.takeWhile (· == c)).length

/-- How many blanks and line ends a backslash at the end of a line takes with it; none if the
backslash does not end a line. -/
def lineBreakEscape? (cs : List Char) : Option Nat :=
  let blanks := cs.takeWhile fun c => isSpace c || isLineEnd c
  if blanks.contains '\n' then some blanks.length else none

/-- The most quotes that may stand together at the end of a text over several lines: the three that
end it and two that belong to it, or three when the last character before them is a backslash, which
an escape has left there. -/
def mostQuotes (escapes : Bool) (before? : Option Char) : Nat :=
  if escapes && before? == some '\\' then 6 else 5

/-- A text over several lines after the opening quotes, with `skip` characters still to pass over.
Three quotes end it, and the quotes before them belong to it. `before?` is the character passed last. -/
def longFrom? (quote : Char) (escapes : Bool) :
    Option Char → Nat → List Char → Option (List Char × List Char)
  | _, _, [] => none
  | _, skip + 1, c :: rest => longFrom? quote escapes (some c) skip rest
  | before?, 0, c :: rest =>
    if c = quote then
      let n := runLength quote (c :: rest)
      if n < 3 then (longFrom? quote escapes (some c) 0 rest).map fun (s, rest) => (c :: s, rest)
      else if n ≤ mostQuotes escapes before? then
        some (List.replicate (n - 3) quote, (c :: rest).drop n)
      else none
    else if escapes && c = '\\' then
      match lineBreakEscape? rest with
      | some width => longFrom? quote escapes (some c) width rest
      | none =>
        match escape? rest with
        | none => none
        | some (e, width) =>
          (longFrom? quote escapes (some c) width rest).map fun (s, rest) => (e :: s, rest)
    else (longFrom? quote escapes (some c) 0 rest).map fun (s, rest) => (c :: s, rest)

/-- A text over several lines without the line end directly after the opening quotes. -/
def dropFirstLineEnd : List Char → List Char
  | '\n' :: rest => rest
  | '\r' :: '\n' :: rest => rest
  | cs => cs

/-- A text in any of the four forms. -/
def text? (cs : List Char) : Option (String × List Char) :=
  let read : Option (List Char × List Char) :=
    match cs with
    | '\x22' :: '\x22' :: '\x22' :: rest => longFrom? '\x22' true none 0 (dropFirstLineEnd rest)
    | '\x27' :: '\x27' :: '\x27' :: rest => longFrom? '\x27' false none 0 (dropFirstLineEnd rest)
    | '\x22' :: rest => basicFrom? 0 rest
    | '\x27' :: rest => literalFrom? rest
    | _ => none
  read.map fun (s, rest) => (String.ofList s, rest)

/-! ## Numbers -/

/-- Whether every low line stands between two digits. `after` is whether a digit came last. -/
def lowLinesFit : Bool → List Char → Bool
  | after, [] => after
  | after, c :: rest => (c ≠ '_' || after) && lowLinesFit (Text.hexValue? c).isSome rest

/-- Whether a number has a zero too many at its front. -/
def hasLeadingZero : List Char → Bool
  | '0' :: c :: _ => !(c == 'b' || c == 'o' || c == 'x')
  | '-' :: '0' :: _ :: _ => true
  | '+' :: '0' :: _ :: _ => true
  | _ => false

/-- The integer that a lexeme stands for, if it fits in 64 signed bits. -/
def integer? (lexeme : List Char) : Option Int :=
  if !lowLinesFit false lexeme || hasLeadingZero lexeme then none
  else Number.integer64? (lexeme.filter (· ≠ '_'))

/-- Whether every point is followed by a digit. -/
def pointsFit : List Char → Bool
  | [] => true
  | '.' :: rest =>
    match rest with
    | c :: _ => c.isDigit && pointsFit rest
    | [] => false
  | _ :: rest => pointsFit rest

/-- The parts of a number between points and exponent marks, without empty ones. -/
def numberParts : List Char → List (List Char)
  | [] => []
  | c :: rest =>
    if c == '.' || c == 'e' || c == 'E' then [] :: numberParts rest
    else
      match numberParts rest with
      | [] => [[c]]
      | part :: parts => (c :: part) :: parts

/-- Whether a lexeme is a well-formed number with a fraction or an exponent. -/
def isFraction (lexeme : List Char) : Bool :=
  let parts := (numberParts lexeme).filter (!·.isEmpty)
  parts.all (lowLinesFit false)
    && !(parts.head?.map hasLeadingZero).getD false
    && pointsFit lexeme
    && (Number.read? (String.ofList (lexeme.filter (· ≠ '_')))).isSome

/-! ## Points in time -/

/-- Two digits at the front as a number. -/
def twoDigits? : List Char → Option (Nat × List Char)
  | a :: b :: rest =>
    if a.isDigit && b.isDigit then some ((a.toNat - 48) * 10 + (b.toNat - 48), rest) else none
  | _ => none

/-- What follows a character at the front. -/
def past? (c : Char) : List Char → Option (List Char)
  | d :: rest => if d = c then some rest else none
  | [] => none

/-- The number of days of a month. -/
def daysIn (year month : Nat) : Nat :=
  if month = 2 then
    if year % 4 = 0 && (year % 100 ≠ 0 || year % 400 = 0) then 29 else 28
  else if month = 4 || month = 6 || month = 9 || month = 11 then 30
  else 31

/-- What follows a date at the front. -/
def pastDate? (cs : List Char) : Option (List Char) := do
  let (century, rest) ← twoDigits? cs
  let (year, rest) ← twoDigits? rest
  let (month, rest) ← twoDigits? (← past? '-' rest)
  let (day, rest) ← twoDigits? (← past? '-' rest)
  if 1 ≤ month && month ≤ 12 && 1 ≤ day && day ≤ daysIn (century * 100 + year) month then some rest
  else none

/-- What follows the parts of a second at the front, if there are any. -/
def pastParts? : List Char → Option (List Char)
  | '.' :: rest => if (rest.takeWhile Char.isDigit).isEmpty then none else some (rest.dropWhile Char.isDigit)
  | cs => some cs

/-- What follows the seconds at the front, if there are any. -/
def pastSeconds? : List Char → Option (List Char)
  | ':' :: rest => do
    let (second, rest) ← twoDigits? rest
    if second < 60 then pastParts? rest else none
  | cs => some cs

/-- What follows a time of day at the front. -/
def pastTime? (cs : List Char) : Option (List Char) := do
  let (hour, rest) ← twoDigits? cs
  let (minute, rest) ← twoDigits? (← past? ':' rest)
  if hour < 24 && minute < 60 then pastSeconds? rest else none

/-- Whether the characters are nothing or the distance from universal time. -/
def isOffset : List Char → Bool
  | [] => true
  | ['Z'] => true
  | ['z'] => true
  | c :: rest =>
    (c == '+' || c == '-') &&
      (match twoDigits? rest with
        | some (hours, ':' :: rest) =>
          (match twoDigits? rest with
            | some (minutes, []) => hours ≤ 24 && minutes ≤ 60
            | _ => false)
        | _ => false)

/-- Whether a lexeme is a point in time: a date, a time of day, or both. -/
def isMoment (lexeme : List Char) : Bool :=
  match pastDate? lexeme with
  | some [] => true
  | some (c :: rest) =>
    (c == 'T' || c == 't' || c == ' ') && (pastTime? rest).any isOffset
  | none => pastTime? lexeme == some []

/-! ## Lexemes -/

/-- Whether a character can go on a number with a fraction. -/
def isFractionChar (c : Char) : Bool := c.isDigit || "_.-+eE".toList.contains c

/-- Whether a character can go on a point in time. -/
def isMomentChar (c : Char) : Bool := c.isDigit || "-:Tt .Zz+".toList.contains c

/-- A run of characters of a kind as a lexeme, judged as a whole. -/
def judged? (kind : Char → Bool) (judge : List Char → Option Written) (cs : List Char) :
    Option (Written × List Char) :=
  (judge (cs.takeWhile kind)).map (·, cs.dropWhile kind)

/-- A number with a fraction. -/
def fraction? (lexeme : List Char) : Option Written :=
  if isFraction lexeme then some .fraction else none

/-- A point in time; blanks after it are not part of it. -/
def moment? (lexeme : List Char) : Option Written :=
  if isMoment (lexeme.reverse.dropWhile (· == ' ')).reverse then some .moment else none

/-- An integer. -/
def whole? (lexeme : List Char) : Option Written := (integer? lexeme).map .integer

/-- A number that begins with a digit, or a point in time. -/
def unsigned? (cs : List Char) : Option (Written × List Char) :=
  let based (isDigit : Char → Bool) (digits : List Char) (front : List Char) :=
    let kept := digits.takeWhile fun c => isDigit c || c == '_'
    if kept.head? == some '_' then none
    else (whole? (front ++ kept)).map (·, digits.drop kept.length)
  match cs with
  | '0' :: 'x' :: digits => based (fun c => (Text.hexValue? c).isSome) digits ['0', 'x']
  | '0' :: 'o' :: digits => based (fun c => '0' ≤ c && c ≤ '7') digits ['0', 'o']
  | '0' :: 'b' :: digits => based (fun c => c == '0' || c == '1') digits ['0', 'b']
  | _ =>
    match (cs.dropWhile Char.isDigit).head? with
    | some '-' | some ':' => judged? isMomentChar moment? cs
    | _ =>
      match (cs.dropWhile fun c => c.isDigit || c == '_').head? with
      | some '.' | some 'e' | some 'E' => judged? isFractionChar fraction? cs
      | _ => judged? (fun c => c.isDigit || c == '_') whole? cs

/-- A number after its sign. -/
def signed? (sign : Char) (cs : List Char) : Option (Written × List Char) :=
  match cs with
  | 'i' :: 'n' :: 'f' :: rest => some (.fraction, rest)
  | 'n' :: 'a' :: 'n' :: rest => some (.fraction, rest)
  | c :: _ =>
    if !c.isDigit then none
    else
      let body := cs.takeWhile fun c => c.isDigit || c == '_'
      match (cs.drop body.length).head? with
      | some '.' | some 'e' | some 'E' =>
        (fraction? (sign :: cs.takeWhile isFractionChar)).map (·, cs.dropWhile isFractionChar)
      | _ => (whole? (sign :: body)).map (·, cs.drop body.length)
  | [] => none

end LineScript.Toml
