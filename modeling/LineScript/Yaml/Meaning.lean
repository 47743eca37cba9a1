/-
# The meaning of scalars

What a scalar stands for: null, a truth value, a number, a point in time, or a text. Without a tag its
characters decide. A tag of a known kind has to agree with them; any other tag makes a text of it.
-/

import LineScript.Number.Reading
import LineScript.Text.Base64
import LineScript.Yaml.Value

namespace LineScript.Yaml

/-! ## Tags -/

/-- The front of the tags that YAML itself defines. -/
def standardTags : String := "tag:yaml.org,2002:"

/-- A tag in its short form: two exclamation marks instead of the front that YAML defines. -/
def shortTag (tag : String) : String :=
  if standardTags.toList.isPrefixOf tag.toList then
    "!!" ++ String.ofList (tag.toList.drop standardTags.length)
  else tag

/-- The tag of a text. -/
def textTag : String := "!!str"

/-- The tag of binary data. -/
def binaryTag : String := "!!binary"

/-- The tag of the key that takes in the members of other mappings. -/
def mergeTag : String := "!!merge"

/-- The tag of a value. -/
def Value.tag : Value → String
  | null => "!!null"
  | boolean _ => "!!bool"
  | integer _ => "!!int"
  | float _ => "!!float"
  | moment _ => "!!timestamp"
  | text _ => textTag
  | list _ => "!!seq"
  | record _ | table _ => "!!map"

/-- The tags with which the characters of a scalar matter. -/
def decidedTags : List String := ["!!bool", "!!int", "!!float", "!!null", "!!timestamp"]

/-! ## Without a tag -/

/-- The names of special values. -/
def named? (s : String) : Option Value :=
  if ["", "~", "null", "Null", "NULL"].contains s then some .null
  else if ["true", "True", "TRUE"].contains s then some (.boolean true)
  else if ["false", "False", "FALSE"].contains s then some (.boolean false)
  else if [".nan", ".NaN", ".NAN"].contains s then (Number.read? "nan").map .float
  else if [".inf", ".Inf", ".INF", "+.inf", "+.Inf", "+.INF"].contains s then
    (Number.read? "inf").map .float
  else if ["-.inf", "-.Inf", "-.INF"].contains s then (Number.read? "-inf").map .float
  else none

/-- What follows an optional sign. -/
def unsignedPart : List Char → List Char
  | '-' :: rest => rest
  | '+' :: rest => rest
  | cs => cs

/-- Whether characters are a number in decimal notation: digits with an optional point and exponent. -/
def isDecimal (cs : List Char) : Bool :=
  let unsigned := unsignedPart cs
  let whole := unsigned.takeWhile Char.isDigit
  let rest := unsigned.dropWhile Char.isDigit
  let (fraction, rest) := match rest with
    | '.' :: rest => (rest.takeWhile Char.isDigit, rest.dropWhile Char.isDigit)
    | rest => ([], rest)
  let exponentFits := match rest with
    | [] => true
    | e :: rest =>
      let digits := unsignedPart rest
      (e == 'e' || e == 'E') && !digits.isEmpty && digits.all Char.isDigit
  !(whole.isEmpty && fraction.isEmpty) && exponentFits

/-- An integer of at most 64 bits, signed or, when it has no sign, not. -/
def integer? (cs : List Char) : Option Int :=
  (Number.integer? cs).bind fun n =>
    if Number.fits64 n || (unsignedPart cs == cs && n < Number.twoTo 64) then some n else none

/-- An integer whose sign stands after the mark of its base. -/
def innerSigned? : List Char → Option Int
  | '0' :: base :: sign :: digits => do
    let size ← if base == 'b' then some 2 else if base == 'o' then some 8 else none
    let n ← Number.inBase? size digits
    let n : Int ← if sign == '-' then some (-(n : Int)) else if sign == '+' then some n else none
    if Number.fits64 n then some n else none
  | _ => none

/-- The number that a scalar is. Low lines are passed over. -/
def number? (cs : List Char) : Option Value :=
  let cs := cs.filter (· ≠ '_')
  let float? : Option Value :=
    if isDecimal cs then (Number.read? (String.ofList cs)).map .float else none
  (integer? cs).map .integer <|> float? <|> (innerSigned? cs).map .integer

/-- What the characters of a scalar stand for. Points in time are looked for only on demand. -/
def ofChars (moments : Bool) (s : String) : Value :=
  let asText : Value := .text (Text.encode s)
  match named? s with
  | some v => v
  | none =>
    match s.toList with
    | [] => .null
    | c :: rest =>
      if c == '.' then ((Number.read? s).map .float).getD asText
      else if c.isDigit || c == '-' || c == '+' then
        let moment? : Option Value :=
          if moments then (Moment.read? (c :: rest)).map .moment else none
        (moment? <|> number? (c :: rest)).getD asText
      else asText

/-- The tag of a scalar without quotes that has none. -/
def plainTag (s : String) : String :=
  if s = "<<" then mergeTag else (ofChars true s).tag

/-! ## With a tag -/

/-- The number nearest to an integer. -/
def ofInteger (n : Int) : Float :=
  if n < 0 then -(Number.ofNat n.natAbs) else Number.ofNat n.natAbs

/-- What a scalar with a tag stands for, or why it has no meaning. An integer can be tagged as a
floating point number. -/
def meaning (tag : String) (s : String) : Except String Value :=
  if tag = binaryTag then
    match Text.ofBase64? s with
    | some bytes => .ok (.text bytes)
    | none => .error "!!binary value contains invalid base64 data"
  else if !decidedTags.contains tag then .ok (.text (Text.encode s))
  else
    let v := ofChars (tag = "!!timestamp") s
    if v.tag = tag then .ok v
    else
      let failure := "cannot decode " ++ v.tag ++ " \x60" ++ s ++ "\x60 as a " ++ tag
      match v with
      | .integer n =>
        if tag = "!!float" && Number.fits64 n then .ok (.float (ofInteger n)) else .error failure
      | _ => .error failure

end LineScript.Yaml
