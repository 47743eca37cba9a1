/-
# YAML scalars

Scalars without quotes, in quotes, and as blocks of lines. A scalar without quotes or in quotes may go
on over several lines and is folded: a single line break is a space, and of several ones all but the
first are kept. Every reader starts at a place and gives the text with the place after it, or nothing
when the text is malformed.
-/

import LineScript.Number.Integer
import LineScript.Yaml.Cursor

namespace LineScript.Yaml

/-! ## Gaps -/

/-- Blanks and line breaks between two words of a scalar; the lists hold the last character first. -/
structure Gap where
  spaces : List Char := []
  /-- The first line break. -/
  first : List Char := []
  /-- The further line breaks. -/
  more : List Char := []
  /-- Whether there was a line break. -/
  broken : Bool := false

/-- The text that a gap is folded into. -/
def Gap.text (g : Gap) : List Char :=
  if !g.broken then g.spaces.reverse
  else if g.first == ['\n'] then if g.more.isEmpty then [' '] else g.more.reverse
  else g.first ++ g.more.reverse

/-- Goes on with a gap up to the next word. A tab at the front of a line is malformed in the first
`least` columns. Every step takes a character, so fuel for the characters is enough. -/
def Gap.read? (least : Int) : Nat → Gap → Cursor → Option (Gap × Cursor)
  | 0, g, c => some (g, c)
  | fuel + 1, g, c =>
    match c.rest with
    | [] => some (g, c)
    | x :: _ =>
      if isBlank x then
        if g.broken then
          if x == '\t' && c.column < least then none else Gap.read? least fuel g (c.skip 1)
        else Gap.read? least fuel { g with spaces := x :: g.spaces } (c.skip 1)
      else if isBreak x then
        let g := if g.broken then { g with more := c.breakText.reverse ++ g.more }
          else { g with spaces := [], first := c.breakText, broken := true }
        Gap.read? least fuel g c.skipBreak
      else some (g, c)

/-! ## Without quotes -/

/-- Whether a character ends a scalar without quotes inside brackets. -/
def isFlowMark (c : Char) : Bool := ",?[]\x7b\x7d".toList.contains c

/-- The characters of a scalar without quotes up to the next gap or the mark that ends it. -/
def plainRun (flow : Bool) : List Char → List Char
  | [] => []
  | c :: rest =>
    if isGap c || (c == ':' && atGap rest) || (flow && isFlowMark c) then []
    else c :: plainRun flow rest

/-- A scalar without quotes and whether it ended after a line break. -/
structure Plain where
  text : List Char
  broken : Bool

/-- Goes on with a scalar without quotes; `text` holds the last character first and `g` is the gap
before what comes next. Outside brackets its lines have to begin at column `least` or further right. -/
def plainFrom? (flow : Bool) (least : Int) :
    Nat → List Char → Gap → Cursor → Option (Plain × Cursor)
  | 0, text, g, c => some (⟨text.reverse, g.broken⟩, c)
  | fuel + 1, text, g, c =>
    if c.atDocumentMark || comesNext (· == '#') c.rest then some (⟨text.reverse, g.broken⟩, c)
    else
      let run := plainRun flow c.rest
      let c := c.skip run.length
      if run.isEmpty then some (⟨text.reverse, g.broken⟩, c)
      else
        let text := run.reverse ++ (g.text.reverse ++ text)
        if !comesNext isGap c.rest then some (⟨text.reverse, false⟩, c)
        else
          match Gap.read? least c.size {} c with
          | none => none
          | some (g, c) =>
            if !flow && (c.column : Int) < least then some (⟨text.reverse, g.broken⟩, c)
            else plainFrom? flow least fuel text g c

/-- A scalar without quotes. -/
def plain? (flow : Bool) (least : Int) (c : Cursor) : Option (Plain × Cursor) :=
  plainFrom? flow least (c.size + 1) [] {} c

/-! ## In quotes -/

/-- The character with the number that `width` hexadecimal digits stand for. -/
def numericEscape? (width : Nat) (cs : List Char) : Option (Char × Nat) :=
  let digits := cs.take width
  if digits.length < width then none
  else
    (Number.inBase? 16 digits).bind fun n =>
      if n < 0xd800 || (0xe000 ≤ n && n ≤ 0x10ffff) then some (Char.ofNat n, width + 1) else none

/-- The character that an escape stands for, after its backslash, and how many characters it takes. -/
def escape? : List Char → Option (Char × Nat)
  | [] => none
  | c :: rest =>
    match c with
    | '0' => some ('\x00', 1)
    | 'a' => some ('\x07', 1)
    | 'b' => some ('\x08', 1)
    | 't' | '\t' => some ('\t', 1)
    | 'n' => some ('\n', 1)
    | 'v' => some ('\x0b', 1)
    | 'f' => some ('\x0c', 1)
    | 'r' => some ('\r', 1)
    | 'e' => some ('\x1b', 1)
    | ' ' => some (' ', 1)
    | '\x22' => some ('\x22', 1)
    | '\x27' => some ('\x27', 1)
    | '\\' => some ('\\', 1)
    | 'N' => some ('\u0085', 1)
    | '_' => some ('\u00a0', 1)
    | 'L' => some ('\u2028', 1)
    | 'P' => some ('\u2029', 1)
    | 'x' => numericEscape? 2 rest
    | 'u' => numericEscape? 4 rest
    | 'U' => numericEscape? 8 rest
    | _ => none

/-- Goes on with a scalar in quotes up to the next gap or the closing quote; a backslash before a line
break takes the break with it. The answer tells whether that happened. -/
def quotedRun? (double : Bool) : Nat → List Char → Cursor → Option (List Char × Bool × Cursor)
  | 0, text, c => some (text, false, c)
  | fuel + 1, text, c =>
    match c.rest with
    | [] => some (text, false, c)
    | x :: rest =>
      if isGap x then some (text, false, c)
      else if double then
        if x == '\x22' then some (text, false, c)
        else if x == '\\' then
          if comesNext isBreak rest then some (text, true, (c.skip 1).skipBreak)
          else
            match escape? rest with
            | none => none
            | some (e, width) => quotedRun? double fuel (e :: text) (c.skip (width + 1))
        else quotedRun? double fuel (x :: text) (c.skip 1)
      else if x == '\x27' then
        if comesNext (· == '\x27') rest then quotedRun? double fuel (x :: text) (c.skip 2)
        else some (text, false, c)
      else quotedRun? double fuel (x :: text) (c.skip 1)

/-- Goes on with a scalar in quotes up to its end. No mark of a document may stand inside. -/
def quotedFrom? (double : Bool) : Nat → List Char → Cursor → Option (List Char × Cursor)
  | 0, _, _ => none
  | fuel + 1, text, c =>
    if c.atDocumentMark || c.rest.isEmpty then none
    else
      match quotedRun? double c.size text c with
      | none => none
      | some (text, broken, c) =>
        if comesNext (· == if double then '\x22' else '\x27') c.rest then some (text.reverse, c.skip 1)
        else
          match Gap.read? 0 c.size { broken := broken } c with
          | none => none
          | some (g, c) => quotedFrom? double fuel (g.text.reverse ++ text) c

/-- A scalar in quotes, from its opening quote. -/
def quoted? (double : Bool) (c : Cursor) : Option (List Char × Cursor) :=
  quotedFrom? double (c.size + 1) [] (c.skip 1)

/-! ## Blocks of lines -/

/-- What becomes of the line breaks at the end of a block. -/
inductive Chomping where
  | strip
  | clip
  | keep
  deriving DecidableEq, Repr

/-- How a block of lines is to be read: what becomes of its end, and how much further to the right than
its parent it stands, if that is stated. -/
structure BlockHeader where
  chomping : Chomping := .clip
  increment? : Option Nat := none

/-- The chomping that a character stands for. -/
def chomping? (c : Char) : Option Chomping :=
  if c == '+' then some .keep else if c == '-' then some .strip else none

/-- The marks of a header, which may come in either order. An increment of zero is malformed. -/
def blockMarks? (c : Cursor) : Option (BlockHeader × Cursor) :=
  match c.rest with
  | [] => some ({}, c)
  | x :: rest =>
    match chomping? x with
    | some chomping =>
      if comesNext Char.isDigit rest then
        if comesNext (· == '0') rest then none
        else some (⟨chomping, (rest.head?.map (·.toNat - 48))⟩, c.skip 2)
      else some (⟨chomping, none⟩, c.skip 1)
    | none =>
      if x == '0' then none
      else if x.isDigit then
        match rest.head?.bind chomping? with
        | some chomping => some (⟨chomping, some (x.toNat - 48)⟩, c.skip 2)
        | none => some (⟨.clip, some (x.toNat - 48)⟩, c.skip 1)
      else some ({}, c)

/-- The header of a block after its indicator, up to the end of its line. -/
def blockHeader? (c : Cursor) : Option (BlockHeader × Cursor) :=
  match blockMarks? c with
  | none => none
  | some (h, c) =>
    let c := c.skipBlanks
    let c := if comesNext (· == '#') c.rest then c.skipLine else c
    if atLineEnd c.rest then some (h, c.skipBreak) else none

/-- Passes over the indentation and the empty lines before the next line of a block. The answer holds
the line breaks, last one first, and the deepest column reached. An indentation of zero is not known
yet. A tab inside the indentation is malformed. -/
def blockBreaks? (indentation : Nat) :
    Nat → List Char → Nat → Cursor → Option (List Char × Nat × Cursor)
  | 0, breaks, deepest, c => some (breaks, deepest, c)
  | fuel + 1, breaks, deepest, c =>
    let spaces := (c.rest.takeWhile (· == ' ')).length
    let width := if indentation = 0 || spaces < indentation - c.column then spaces
      else indentation - c.column
    let c := c.skip width
    let deepest := if deepest < c.column then c.column else deepest
    if (indentation = 0 || c.column < indentation) && comesNext (· == '\t') c.rest then none
    else if comesNext isBreak c.rest then
      blockBreaks? indentation fuel (c.breakText.reverse ++ breaks) deepest c.skipBreak
    else some (breaks, deepest, c)

/-- The lines of a block so far; the lists hold the last character first. -/
structure Block where
  text : List Char := []
  /-- The break of the last line. -/
  lineBreak : List Char := []
  /-- The breaks of the empty lines after it. -/
  breaks : List Char := []
  /-- Whether the last line began with a blank. -/
  indented : Bool := false

/-- Adds the line here to a block. In a folded block the break between two lines is a space, unless one
of them begins with a blank. -/
def Block.addLine (b : Block) (folded : Bool) (c : Cursor) : Block × Cursor :=
  let indented := comesNext isBlank c.rest
  let separator :=
    if folded && !b.indented && !indented && b.lineBreak == ['\n'] then
      if b.breaks.isEmpty then [' '] else []
    else b.lineBreak
  let line := c.rest.takeWhile fun x => !isBreak x
  let after := c.skip line.length
  ({ text := line.reverse ++ (b.breaks ++ (separator.reverse ++ b.text))
     lineBreak := after.breakText
     breaks := []
     indented := indented }, after.skipBreak)

/-- Goes on with a block as long as its lines begin at its indentation. -/
def blockFrom? (folded : Bool) (indentation : Nat) : Nat → Block → Cursor → Option (Block × Cursor)
  | 0, b, c => some (b, c)
  | fuel + 1, b, c =>
    if c.column = indentation && !c.rest.isEmpty then
      let (b, c) := b.addLine folded c
      match blockBreaks? indentation (c.size + 1) [] 0 c with
      | none => none
      | some (breaks, _, c) => blockFrom? folded indentation fuel { b with breaks := breaks } c
    else some (b, c)

/-- The text of a block. -/
def Block.result (b : Block) (chomping : Chomping) : List Char :=
  match chomping with
  | .strip => b.text.reverse
  | .clip => b.text.reverse ++ b.lineBreak
  | .keep => b.text.reverse ++ b.lineBreak ++ b.breaks.reverse

/-- The column at which the lines of a block begin. If the header does not state it, it is the deepest
column reached before the first line, but at least one further right than the parent. -/
def blockIndentation (parent : Int) (increment? : Option Nat) (deepest : Nat) : Nat :=
  match increment? with
  | some n => if 0 ≤ parent then parent.toNat + n else n
  | none =>
    let least := if 0 ≤ parent then parent.toNat + 1 else 1
    if deepest < least then least else deepest

/-- A block of lines, from its indicator, inside a part that begins at column `parent`. -/
def block? (folded : Bool) (parent : Int) (c : Cursor) : Option (List Char × Cursor) :=
  match blockHeader? (c.skip 1) with
  | none => none
  | some (h, c) =>
    let stated := match h.increment? with
      | none => 0
      | some _ => blockIndentation parent h.increment? 0
    match blockBreaks? stated (c.size + 1) [] 0 c with
    | none => none
    | some (breaks, deepest, c) =>
      let indentation := blockIndentation parent h.increment? deepest
      match blockFrom? folded indentation (c.size + 1) { breaks := breaks } c with
      | none => none
      | some (b, c) => some (b.result h.chomping, c)

end LineScript.Yaml
