/-
# Data items

The tagged binary format of RFC 7049, on which stored programs are built: integers, texts, lists,
maps, tags, simple values and floating-point numbers, each introduced by a head of one to nine
bytes. Writing is canonical, so equal items give equal bytes. Reading accepts every well-formed
item, definite or not, within fixed bounds on nesting and on the size of lists and maps.
-/

import LineScript.Wire.Head
import LineScript.Wire.Layout

namespace LineScript.Wire

open LineScript.Text (Bytes)

/-- One data item. -/
inductive Item where
  /-- A natural number below `2 ^ 64`. -/
  | unsigned (n : Nat)
  /-- The integer `-1 - n`. -/
  | negative (n : Nat)
  /-- Raw bytes. -/
  | bytes (content : Bytes)
  /-- A text in the chunks it was written in; one chunk when its length was announced. -/
  | text (chunks : List Bytes)
  | array (items : List Item)
  | map (entries : List (Item × Item))
  | tagged (tag : Nat) (content : Item)
  /-- A simple value, the truth values, null and undefined among them. -/
  | simple (n : Nat)
  | float (x : Float)

namespace Item

instance : Inhabited Item := ⟨.simple 22⟩

/-- The item for null. -/
def null : Item := .simple 22

/-- The item for a truth value. -/
def ofBool (b : Bool) : Item := .simple (if b then 21 else 20)

/-- The item for an integer. -/
def ofInt (n : Int) : Item :=
  if 0 ≤ n then .unsigned n.toNat else .negative (-1 - n).toNat

/-- The item for a text. -/
def ofString (s : String) : Item := .text [Text.encode s]

mutual

/-- The canonical bytes of an item. Map entries are written in the order they have. -/
def encode : Item → Bytes
  | .unsigned n => head 0 n
  | .negative n => head 1 n
  | .bytes content => head 2 content.length ++ content
  | .text chunks => head 3 chunks.flatten.length ++ chunks.flatten
  | .array items => head 4 items.length ++ encodeItems items
  | .map entries => head 5 entries.length ++ encodeEntries entries
  | .tagged tag content => head 6 tag ++ encode content
  | .simple n => head 7 n
  | .float x => encodeFloat x

/-- The canonical bytes of items in a row. -/
def encodeItems : List Item → Bytes
  | [] => []
  | item :: rest => encode item ++ encodeItems rest

/-- The canonical bytes of map entries in a row. -/
def encodeEntries : List (Item × Item) → Bytes
  | [] => []
  | (key, value) :: rest => encode key ++ (encode value ++ encodeEntries rest)

end

/-- The deepest nesting that is read. -/
def maxNesting : Nat := 32

/-- The longest list and the largest map that are read. -/
def maxEntries : Nat := 131072

/-- The byte that ends a list, map or string of unannounced length. -/
def breakByte : UInt8 := 0xff

/-- The chunks of a string of unannounced length: definite strings of the same major type. -/
def chunks? (major : Nat) : Nat → Bytes → Option (List Bytes × Bytes)
  | 0, _ => none
  | fuel + 1, input =>
    match input with
    | [] => none
    | b :: after =>
      if b = breakByte then some ([], after)
      else
        match head? input with
        | some (⟨m, _, some count⟩, rest) =>
          if m = major then do
            let (chunk, rest) ← take? count rest
            let (chunks, rest) ← chunks? major fuel rest
            pure (chunk :: chunks, rest)
          else none
        | _ => none

/-- Whether a tag comes next. -/
def beginsTag : Bytes → Bool
  | b :: _ => b.toNat / 32 = 6
  | [] => false

/-- Pairs up the items of a map, if their number is even. -/
def pairs? : List Item → Option (List (Item × Item))
  | [] => some []
  | [_] => none
  | key :: value :: rest => (pairs? rest).map ((key, value) :: ·)

mutual

/-- Reads one item at the given nesting. Every call passes at least one byte, so fuel in proportion to
the bytes is enough. -/
def item? : Nat → Nat → Bytes → Option (Item × Bytes)
  | 0, _, _ => none
  | fuel + 1, depth, input =>
    match head? input with
    | none => none
    | some (h, rest) =>
      match h.major, h.number? with
      | 0, some n => some (.unsigned n, rest)
      | 1, some n => some (.negative n, rest)
      | 2, some n => (take? n rest).map fun (content, rest) => (.bytes content, rest)
      | 2, none => (chunks? 2 fuel rest).map fun (chunks, rest) => (.bytes chunks.flatten, rest)
      | 3, some n => (take? n rest).map fun (content, rest) => (.text [content], rest)
      | 3, none => (chunks? 3 fuel rest).map fun (chunks, rest) => (.text chunks, rest)
      | 4, number? =>
        if maxNesting ≤ depth then none
        else
          (items? fuel (depth + 1) number? maxEntries rest).map fun (items, rest) =>
            (.array items, rest)
      | 5, number? =>
        if maxNesting ≤ depth then none
        else do
          let (items, rest) ← items? fuel (depth + 1) (number?.map (2 * ·)) (2 * maxEntries) rest
          let entries ← pairs? items
          pure (.map entries, rest)
      | 6, some tag =>
        -- A tag directly inside a tag nests; the outermost one does not.
        let depth := if beginsTag rest then depth + 1 else depth
        if maxNesting < depth then none
        else (item? fuel depth rest).map fun (content, rest) => (.tagged tag content, rest)
      | 7, some n =>
        if h.code = 25 then some (.float (Layout.half.number n), rest)
        else if h.code = 26 then some (.float (Layout.single.number n), rest)
        else if h.code = 27 then some (.float (Layout.double.number n), rest)
        else some (.simple n, rest)
      | _, _ => none

/-- Reads the announced number of items, or items up to the break, and never more than `room`. -/
def items? : Nat → Nat → Option Nat → Nat → Bytes → Option (List Item × Bytes)
  | 0, _, _, _, _ => none
  | fuel + 1, depth, count?, room, input =>
    match count? with
    | some 0 => some ([], input)
    | some (count + 1) =>
      if room < count + 1 then none
      else do
        let (item, rest) ← item? fuel depth input
        let (items, rest) ← items? fuel depth (some count) (room - 1) rest
        pure (item :: items, rest)
    | none =>
      match input with
      | [] => none
      | b :: after =>
        if b = breakByte then some ([], after)
        else if room = 0 then none
        else do
          let (item, rest) ← item? fuel depth input
          let (items, rest) ← items? fuel depth none (room - 1) rest
          pure (item :: items, rest)

end

/-- The item that a byte sequence holds, if it holds exactly one. -/
def decode? (input : Bytes) : Option Item :=
  match item? (2 * input.length + 2) 0 input with
  | some (item, []) => some item
  | _ => none

end Item

end LineScript.Wire
