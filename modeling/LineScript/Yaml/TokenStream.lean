/-
# Streams of YAML tokens

A text is cut into tokens as they are asked for, and only a little further: whether a scalar is a key is
known once the colon after it is seen, and then the tokens that say so are put in front of it. What
stands beyond the tokens that were needed is never looked at, so it may be malformed.
-/

import LineScript.Yaml.Scalar
import LineScript.Yaml.Source
import LineScript.Yaml.Tag
import LineScript.Yaml.Token

namespace LineScript.Yaml

/-- A token that may turn out to be a key, when a colon follows on its line. -/
structure PendingKey where
  possible : Bool := false
  /-- Whether there is nothing else it can be. -/
  required : Bool := false
  /-- The number of the token in the stream. -/
  number : Nat := 0
  index : Nat := 0
  line : Nat := 0
  column : Nat := 0

/-- Whether a place is too far from a token for the token to be a key. -/
def PendingKey.isStale (k : PendingKey) (c : Cursor) : Bool :=
  k.line < c.line || k.index + 1024 < c.index

/-- A text on its way to tokens. -/
structure TokenStream where
  cursor : Cursor
  /-- Whether what follows the text is not readable. -/
  cut : Bool := false
  /-- Up to which index the first character of a line is passed over. -/
  markedUpTo : Nat := 0
  started : Bool := false
  /-- The tokens that were found and not yet taken. -/
  queue : List Token := []
  /-- How many tokens were taken. -/
  taken : Nat := 0
  /-- The column of the innermost block, or one less than zero outside of all blocks. -/
  indent : Int := -1
  /-- The columns of the blocks around it. -/
  indents : List Int := []
  /-- How many brackets are open. Inside brackets columns do not matter. -/
  flow : Nat := 0
  /-- Whether the next token may be a key. -/
  keyAllowed : Bool := false
  /-- The last token that may be a key, for each level of brackets; the innermost level is last. -/
  keys : Array PendingKey := #[]
  /-- The levels of tokens that were held for keys, by their numbers. -/
  keyLevels : List (Nat × Nat) := []

namespace TokenStream

/-- How deep brackets, and blocks, may be nested. -/
def maxDepth : Nat := 10000

/-- The stream of a file. When a second mark follows the one that opens the file, the first character
of every line in the first block counts as a mark. -/
def ofSource (source : Source) : TokenStream :=
  { cursor := .start source.chars
    cut := source.cut
    markedUpTo := if comesNext (· == orderMark) source.chars then source.firstBlock else 0 }

/-- Whether fewer than `n` characters are left of a text that does not end there. -/
def lacks (s : TokenStream) (n : Nat) : Bool :=
  s.cut && (s.cursor.rest.take n).length < n

/-- The number that the next token will have. -/
def nextNumber (s : TokenStream) : Nat := s.taken + s.queue.length

/-- Adds the token that stands from here to a place. -/
def add (s : TokenStream) (kind : TokenKind) (after : Cursor) : TokenStream :=
  { s with queue := s.queue ++ [⟨kind, s.cursor.line⟩], cursor := after }

/-- Says whether the next token may be a key. -/
def allowKey (s : TokenStream) (allowed : Bool) : TokenStream := { s with keyAllowed := allowed }

/-- Puts a token before the one with a number, or last if that one is gone. -/
def insertBefore (s : TokenStream) (number : Nat) (t : Token) : TokenStream :=
  if number < s.taken then { s with queue := s.queue ++ [t] }
  else { s with queue := s.queue.insertIdx (number - s.taken) t }

/-! ## Keys -/

/-- Forgets the token held for a key. It is malformed to forget one that has to be a key. -/
def dropKey? (s : TokenStream) : Option TokenStream :=
  match s.keys.back? with
  | none => some s
  | some k =>
    if !k.possible then some s
    else if k.required then none
    else some { s with
      keys := s.keys.pop.push { k with possible := false }
      keyLevels := s.keyLevels.filter (·.1 ≠ k.number) }

/-- Holds the token that begins here for a key. -/
def holdKey? (s : TokenStream) : Option TokenStream :=
  if !s.keyAllowed then some s
  else
    s.dropKey?.map fun s =>
      let k : PendingKey :=
        { possible := true
          required := s.flow = 0 && s.indent = s.cursor.column
          number := s.nextNumber
          index := s.cursor.index
          line := s.cursor.line
          column := s.cursor.column }
      { s with
        keys := s.keys.pop.push k
        keyLevels := (k.number, s.keys.size - 1) :: s.keyLevels.filter (·.1 ≠ k.number) }

/-- Tells whether a key can still be one here, and marks it if it cannot. -/
def checkKey? (s : TokenStream) (level : Nat) : Option (Bool × TokenStream) :=
  match s.keys[level]? with
  | none => some (false, s)
  | some k =>
    if !k.possible then some (false, s)
    else if !k.isStale s.cursor then some (true, s)
    else if k.required then none
    else some (false, { s with keys := s.keys.set! level { k with possible := false } })

/-! ## Blocks -/

/-- Opens a block at a column if that is further to the right than the innermost block. The token for
it comes before the token with the given number, or last. -/
def openBlock? (s : TokenStream) (column : Nat) (number? : Option Nat) (t : Token) :
    Option TokenStream :=
  if 0 < s.flow || (column : Int) ≤ s.indent then some s
  else if maxDepth ≤ s.indents.length then none
  else
    let s := { s with indents := s.indent :: s.indents, indent := column }
    match number? with
    | none => some { s with queue := s.queue ++ [t] }
    | some number => some (s.insertBefore number t)

/-- The innermost column, the columns around it, and how many blocks end, at a column. -/
def blocksAt (column : Int) : Int → List Int → Int × List Int × Nat
  | indent, [] => (indent, [], 0)
  | indent, outer :: rest =>
    if column < indent then
      let (indent, indents, n) := blocksAt column outer rest
      (indent, indents, n + 1)
    else (indent, outer :: rest, 0)

/-- Ends the blocks that are further to the right than a column. -/
def closeBlocks (s : TokenStream) (column : Int) : TokenStream :=
  if 0 < s.flow then s
  else
    let (indent, indents, n) := blocksAt column s.indent s.indents
    { s with
      indent := indent
      indents := indents
      queue := s.queue ++ List.replicate n ⟨.blockEnd, s.cursor.line⟩ }

/-! ## Between tokens -/

/-- The place with an index, over line breaks. -/
def advanceTo (index : Nat) : Nat → Cursor → Cursor
  | 0, c => c
  | fuel + 1, c =>
    if index ≤ c.index then c
    else advanceTo index fuel (if comesNext isBreak c.rest then c.skipBreak else c.skip 1)

/-- How far ahead of the end of a comment the next one is looked for. -/
def commentReach : Nat := 511

/-- Passes over a comment and the comments that follow it with only blanks and line breaks between. -/
def skipComments : Nat → Cursor → Cursor
  | 0, c => c
  | fuel + 1, c =>
    let c := c.skipLine
    let isPlainGap (x : Char) : Bool := isBlank x || x == '\n' || x == '\r'
    let gap := (c.rest.takeWhile isPlainGap).length
    if comesNext isPlainGap c.rest && gap ≤ commentReach
        && comesNext (· == '#') (c.rest.drop gap) then
      skipComments fuel (advanceTo (c.index + gap) gap c)
    else c

/-- Passes over blanks, comments and line breaks up to the next token. After a line break outside
brackets a key may follow. A tab is a blank only where no block can begin. -/
def toNextToken (flow : Nat) (markedUpTo : Nat) : Nat → Bool → Cursor → Bool × Cursor
  | 0, keyAllowed, c => (keyAllowed, c)
  | fuel + 1, keyAllowed, c =>
    let c := if c.column = 0 && c.index < markedUpTo then c.skip 1 else c
    let c := (c.span fun x => x == ' ' || (x == '\t' && (0 < flow || !keyAllowed))).2
    let c := if comesNext (· == '#') c.rest then skipComments c.size c else c
    if comesNext isBreak c.rest then
      toNextToken flow markedUpTo fuel (keyAllowed || flow = 0) c.skipBreak
    else (keyAllowed, c)

/-- Passes over a comment on the line of the last token. -/
def skipComment (s : TokenStream) : TokenStream :=
  let after := s.cursor.skipBlanks
  if after.index - s.cursor.index ≤ commentReach && comesNext (· == '#') after.rest then
    { s with cursor := after.skipLine }
  else s

/-! ## Tokens -/

/-- The end of the text, which ends all blocks. -/
def endText? (s : TokenStream) : Option TokenStream :=
  let c := s.cursor
  let c := if c.column = 0 then c else { c with line := c.line + 1, column := 0 }
  let s := { s with cursor := c }
  (s.closeBlocks (-1)).dropKey?.map fun s =>
    (s.allowKey false).add .streamEnd c

/-- A token that stands between documents. -/
def betweenDocuments? (s : TokenStream) (kind : TokenKind) (after : Cursor) : Option TokenStream :=
  (s.closeBlocks (-1)).dropKey?.map fun s => (s.allowKey false).add kind after

/-- An opening bracket. -/
def openFlow? (s : TokenStream) (kind : TokenKind) : Option TokenStream :=
  s.holdKey?.bind fun s =>
    if maxDepth ≤ s.flow then none
    else
      let s := { s with
        keys := s.keys.push { number := s.nextNumber }
        flow := s.flow + 1
        keyAllowed := true }
      some (s.add kind (s.cursor.skip 1))

/-- A closing bracket. -/
def closeFlow? (s : TokenStream) (kind : TokenKind) : Option TokenStream :=
  s.dropKey?.map fun s =>
    let s := match s.flow, s.keys.back? with
      | flow + 1, some k =>
        { s with
          flow := flow
          keys := s.keys.pop
          keyLevels := s.keyLevels.filter (·.1 ≠ k.number) }
      | _, _ => s
    (s.allowKey false).add kind (s.cursor.skip 1)

/-- A comma between entries. -/
def flowEntry? (s : TokenStream) : Option TokenStream :=
  s.dropKey?.map fun s => (s.allowKey true).add .flowEntry (s.cursor.skip 1)

/-- Opens a block for an entry that begins here, which has to be allowed outside brackets. -/
def openBlockHere? (s : TokenStream) (kind : TokenKind) : Option TokenStream :=
  if 0 < s.flow then some s
  else if !s.keyAllowed then none
  else s.openBlock? s.cursor.column none ⟨kind, s.cursor.line⟩

/-- A dash before an entry. -/
def blockEntry? (s : TokenStream) : Option TokenStream :=
  (s.openBlockHere? .blockSequenceStart).bind fun s =>
    s.dropKey?.map fun s => (s.allowKey true).add .blockEntry (s.cursor.skip 1)

/-- A question mark before a key. -/
def explicitKey? (s : TokenStream) : Option TokenStream :=
  (s.openBlockHere? .blockMappingStart).bind fun s =>
    s.dropKey?.map fun s => (s.allowKey (s.flow = 0)).add .key (s.cursor.skip 1)

/-- A colon before a value. If a token is held for a key, it is the key. -/
def value? (s : TokenStream) : Option TokenStream :=
  (s.checkKey? (s.keys.size - 1)).bind fun (valid, s) =>
    match valid, s.keys.back? with
    | true, some k =>
      let s := s.insertBefore k.number ⟨.key, k.line⟩
      (s.openBlock? k.column (some k.number) ⟨.blockMappingStart, k.line⟩).map fun s =>
        let s := { s with
          keys := s.keys.pop.push { k with possible := false }
          keyLevels := s.keyLevels.filter (·.1 ≠ k.number) }
        (s.allowKey false).add .value (s.cursor.skip 1)
    | _, _ =>
      (s.openBlockHere? .blockMappingStart).map fun s =>
        (s.allowKey (s.flow = 0)).add .value (s.cursor.skip 1)

/-- A token that may be a key, with the place after it. -/
def keyLike? (s : TokenStream) (token? : Option (TokenKind × Cursor)) : Option TokenStream :=
  s.holdKey?.bind fun s =>
    token?.map fun (kind, after) => (s.allowKey false).add kind after

/-- The name after an ampersand or an asterisk. -/
def name? (c : Cursor) : Option (String × Cursor) :=
  let (name, after) := (c.skip 1).span isNameChar
  let ends := atGap after.rest || comesNext ("?:,]\x7d%@\x60".toList.contains ·) after.rest
  if name.isEmpty || !ends then none else some (String.ofList name, after)

/-- A scalar in quotes. -/
def quotedToken? (double : Bool) (c : Cursor) : Option (TokenKind × Cursor) :=
  (quoted? double c).map fun (text, after) => (.scalar (String.ofList text) false, after)

/-- A block of lines. -/
def blockScalar? (s : TokenStream) (folded : Bool) : Option TokenStream :=
  s.dropKey?.bind fun s =>
    (block? folded s.indent s.cursor).map fun (text, after) =>
      (s.allowKey true).add (.scalar (String.ofList text) false) after

/-- A scalar without quotes. If it ended after a line break, a key may follow. -/
def plainScalar? (s : TokenStream) : Option TokenStream :=
  s.holdKey?.bind fun s =>
    (plain? (0 < s.flow) (s.indent + 1) s.cursor).map fun (p, after) =>
      let s := (s.allowKey p.broken).add (.scalar (String.ofList p.text) true) after
      if p.broken then s else s.skipComment

/-- Whether a scalar without quotes begins with a character before others. -/
def startsPlain (flow : Bool) (c : Char) (rest : List Char) : Bool :=
  let isIndicator := "-?:,[]\x7b\x7d#&*!|>\x27\x22%@\x60".toList.contains c
  !(isGap c || isIndicator) || (c == '-' && !comesNext isBlank rest)
    || (!flow && (c == '?' || c == ':') && !atGap rest)

/-- The token that begins with a character before others. -/
def token? (s : TokenStream) (c : Char) (rest : List Char) : Option TokenStream :=
  let inFlow := 0 < s.flow
  if c == '[' then (s.openFlow? .flowSequenceStart).map skipComment
  else if c == '\x7b' then (s.openFlow? .flowMappingStart).map skipComment
  else if c == ']' then (s.closeFlow? .flowSequenceEnd).map skipComment
  else if c == '\x7d' then (s.closeFlow? .flowMappingEnd).map skipComment
  else if c == ',' then s.flowEntry?.map skipComment
  else if c == '-' && atGap rest then s.blockEntry?
  else if c == '?' && (inFlow || atGap rest) then s.explicitKey?.map skipComment
  else if c == ':' && (inFlow || atGap rest) then s.value?.map skipComment
  else if c == '*' then
    (s.keyLike? ((name? s.cursor).map fun (n, c) => (.reference n, c))).map skipComment
  else if c == '&' then
    (s.keyLike? ((name? s.cursor).map fun (n, c) => (.anchor n, c))).map skipComment
  else if c == '!' then (s.keyLike? (tag? s.cursor)).map skipComment
  else if c == '|' && !inFlow then s.blockScalar? false
  else if c == '>' && !inFlow then s.blockScalar? true
  else if c == '\x27' then (s.keyLike? (quotedToken? false s.cursor)).map skipComment
  else if c == '\x22' then (s.keyLike? (quotedToken? true s.cursor)).map skipComment
  else if startsPlain inFlow c rest then s.plainScalar?
  else none

/-- Finds the next token. -/
def fetch? (s : TokenStream) : Option TokenStream :=
  if s.lacks 1 then none
  else if !s.started then
    some ({ s with started := true, keyAllowed := true, keys := #[{}] }.add .streamStart s.cursor)
  else
    let (keyAllowed, c) :=
      toNextToken s.flow s.markedUpTo (s.cursor.size + 1) s.keyAllowed s.cursor
    let s := { s with keyAllowed := keyAllowed, cursor := c }.closeBlocks c.column
    if s.lacks 4 then none
    else
      match c.rest with
      | [] => s.endText?
      | x :: rest =>
        let found? :=
          if c.column = 0 && x == '%' then
            (directive? c).bind fun (kind, after) => s.betweenDocuments? kind after
          else if c.atDocumentMark then
            s.betweenDocuments? (if x == '-' then .documentStart else .documentEnd) (c.skip 3)
          else s.token? x rest
        found?.bind fun s => if s.lacks 2 then none else some s

/-! ## Asking for tokens -/

/-- Finds tokens until more than two wait and the first of them is not held for a key. Every step but
the last few takes characters, so fuel for the characters is enough. -/
def fill? : Nat → TokenStream → Option TokenStream
  | 0, s => some s
  | fuel + 1, s =>
    if s.queue.length ≤ 2 then s.fetch?.bind (fill? fuel)
    else
      match s.keyLevels.find? (·.1 = s.taken) with
      | none => some s
      | some (_, level) =>
        (s.checkKey? level).bind fun (valid, s) =>
          if valid then s.fetch?.bind (fill? fuel) else some s

/-- The next token, which is not taken. -/
def peek? (s : TokenStream) : Option (Token × TokenStream) :=
  (fill? (s.cursor.size + 4) s).bind fun s => s.queue.head?.map (·, s)

/-- The stream after its next token. -/
def skip (s : TokenStream) : TokenStream :=
  { s with
    queue := s.queue.tail
    taken := s.taken + 1
    keyLevels := s.keyLevels.filter (·.1 ≠ s.taken) }

end TokenStream

end LineScript.Yaml
