/-
# Stored programs

The stored form of a program is one data item: an envelope with a magic text, a format version and
the program. Structures are maps with small integer keys in ascending order, and most fields that
hold nothing are left out, so that equal programs have equal bytes. Reading is generous about form
and strict about meaning: a key may also be its number in digits, unknown keys are passed over and the
first of two equal keys wins, but every known field has to have its type and range.
-/

import LineScript.Code.Program
import LineScript.Wire.Item

namespace LineScript.Wire

open LineScript.Code
open LineScript.Text (Bytes)

/-- The format version that is written, and the newest that is read. -/
def formatVersion : Nat := 1

/-- The text that identifies stored programs. -/
def magic : String := "LGBC"

/-! ## Writing -/

/-- A map with integer keys. -/
def record (fields : List (Nat × Item)) : Item :=
  .map (fields.map fun (key, value) => (.unsigned key, value))

/-- A field that is left out when it holds nothing. -/
def optional (key : Nat) (absent : Bool) (value : Item) : List (Nat × Item) :=
  if absent then [] else [(key, value)]

/-- The stored form of a literal. Both zeros are left out. -/
def ofLiteral (l : Literal) : Item :=
  record ((1, .unsigned l.kind.toNat) :: (optional 2 (l.number == 0) (.float l.number)
    ++ optional 3 (l.string = "") (.ofString l.string)
    ++ optional 4 (!l.boolean) (.ofBool true)))

/-- The stored form of an instruction. -/
def ofInstruction (i : Instruction) : Item :=
  record ((1, .unsigned i.op.number) :: (2, ofLiteral i.literal)
    :: (optional 3 (i.name = "") (.ofString i.name)
    ++ optional 4 (i.target = 0) (.ofInt i.target)
    ++ optional 5 (i.line = 0) (.ofInt i.line)))

/-- Texts as map keys are ordered by the length of their stored form, then by their bytes. -/
def keyBefore (a b : String) : Bool :=
  if a.utf8ByteSize = b.utf8ByteSize then decide (a ≤ b) else decide (a.utf8ByteSize < b.utf8ByteSize)

/-- The stored form of a dictionary. -/
def ofDict {α : Type} (value : α → Item) (d : Dict α) : Item :=
  .map ((d.toList.mergeSort (fun a b => keyBefore a.1 b.1)).map fun (key, v) => (.ofString key, value v))

/-- The stored form of a list that may be left out. -/
def ofList? {α : Type} (value : α → Item) : Option (List α) → Item
  | none => .null
  | some items => .array (items.map value)

/-- The stored form of a variable's marker. -/
def ofMarker : Option String → Item
  | none => .null
  | some name => record [(1, .ofString name)]

/-- The stored form of a function. -/
def ofFunction (f : Function) : Item :=
  record [(1, .ofString f.name), (2, ofList? .ofString f.params?), (3, ofDict ofMarker f.scope),
    (4, ofList? ofInstruction (f.code?.map Array.toList))]

/-- The stored form of a program, envelope included. -/
def ofProgram (p : Program) : Item :=
  record [(1, .ofString magic), (2, .unsigned formatVersion),
    (3, record [(1, ofDict ofFunction p.functions)])]

/-- The bytes of a stored program. -/
def encode (p : Program) : Bytes := (ofProgram p).encode

/-! ## Reading -/

namespace Item

/-- The natural number in a byte sequence, most significant byte first. -/
def magnitude (content : Bytes) : Nat :=
  content.foldl (fun n b => 256 * n + b.toNat) 0

/-- The item inside its tags. The tag that marks data items themselves and unknown tags are passed
over; tags for times and big integers have to hold what they announce, and a big integer counts as
the integer it is. -/
def untagged? : Item → Option Item
  | .tagged tag content =>
    match tag, content with
    | 0, .text _ => some content
    | 0, _ => none
    | 1, .unsigned _ => some content
    | 1, .negative _ => some content
    | 1, .float _ => some content
    | 1, _ => none
    | 2, .bytes b => if magnitude b < Number.twoTo 64 then some (.unsigned (magnitude b)) else none
    | 2, _ => none
    | 3, .bytes b => if magnitude b < Number.twoTo 63 then some (.negative (magnitude b)) else none
    | 3, _ => none
    | _, _ => untagged? content
  | item => some item

/-- Whether an item is null or undefined. -/
def isNull : Item → Bool
  | .simple n => n = 22 || n = 23
  | _ => false

/-- The integer in an item, null standing for zero. Simple values without a meaning of their own count
as the number they carry. -/
def int? (item : Item) : Option Int :=
  match untagged? item with
  | some (.unsigned n) => some n
  | some (.negative n) => if n < Number.twoTo 63 then some (-1 - n) else none
  | some (.simple n) =>
    if n = 22 || n = 23 then some 0 else if n = 20 || n = 21 then none else some n
  | _ => none

/-- The integer in an item, if it lies within bounds. -/
def intWithin? (low high : Int) (item : Item) : Option Int :=
  item.int?.filter fun n => decide (low ≤ n) && decide (n ≤ high)

/-- The byte in an item. -/
def byte? (item : Item) : Option UInt8 :=
  (item.intWithin? 0 255).map fun n => UInt8.ofNat n.toNat

/-- The number in an item, null standing for zero; integers are accepted. -/
def number? (item : Item) : Option Float :=
  match untagged? item with
  | some (.float x) => some x
  | some content =>
    content.int?.bind fun n => Number.Dyadic.nearest? (decide (n < 0)) n.natAbs 1
  | none => none

/-- The text in an item, null standing for the empty text. Every chunk has to be well formed. -/
def string? (item : Item) : Option String :=
  match untagged? item with
  | some (.text chunks) => (chunks.mapM Text.decode?).map String.join
  | some content => if content.isNull then some "" else none
  | none => none

/-- The truth value in an item, null standing for false. -/
def bool? (item : Item) : Option Bool :=
  match untagged? item with
  | some (.simple n) =>
    if n = 20 then some false else if n = 21 then some true
    else if n = 22 || n = 23 then some false else none
  | _ => none

/-- A list whose elements are read one by one; null stands for a list left out. -/
def list? {α : Type} (read : Item → Option α) (item : Item) : Option (Option (List α)) :=
  match untagged? item with
  | some (.array items) => (items.mapM read).map some
  | some content => if content.isNull then some none else none
  | none => none

/-- The entries of a dictionary, with the key of the entry before them. A null key stands for that key
once more. -/
def entries? {α : Type} (read : Item → Option α) :
    String → List (Item × Item) → Option (List (String × α))
  | _, [] => some []
  | before, (keyItem, value) :: rest => do
    let content ← untagged? keyItem
    let key ← if content.isNull then some before else content.string?
    let a ← read value
    let more ← entries? read key rest
    pure ((key, a) :: more)

/-- A dictionary whose values are read one by one; of equal keys the last wins, and null stands for the
empty dictionary. -/
def dict? {α : Type} (read : Item → Option α) (item : Item) : Option (Dict α) :=
  match untagged? item with
  | some (.map entries) => (entries? read "" entries).map Dict.ofList
  | some content => if content.isNull then some ∅ else none
  | none => none

/-- The key of a field: a number, or a text, which may be the number in digits. -/
inductive FieldKey where
  | number (n : Int)
  | name (s : String)
  deriving DecidableEq, Repr

/-- The key that an item is. An integer has to fit into 64 signed bits, where a large natural number
counts as a negative one; a text has to be well formed; any other key is refused. -/
def fieldKey? : Item → Option FieldKey
  | .unsigned n => some (.number (if n < Number.twoTo 63 then n else (n : Int) - Number.twoTo 64))
  | .negative n => if n < Number.twoTo 63 then some (.number (-1 - n)) else none
  | .text chunks => (chunks.mapM Text.decode?).map fun parts => .name (String.join parts)
  | _ => none

/-- The entries of a structure, in order, if every key is allowed. -/
def keyed? (entries : List (Item × Item)) : Option (List (FieldKey × Item)) :=
  entries.mapM fun (key, value) => (fieldKey? key).map (·, value)

/-- The fields of a structure. Null stands for a structure without fields. -/
def fields? (item : Item) : Option (List (FieldKey × Item)) :=
  match untagged? item with
  | some (.map entries) => keyed? entries
  | some content => if content.isNull then some [] else none
  | none => none

/-- The field with a number, or null when there is none; the first of several counts. -/
def field (n : Nat) (fields : List (FieldKey × Item)) : Item :=
  let found := fields.find? fun (key, _) => key = .number n || key = .name (toString n)
  (found.map (·.2)).getD .null

/-- A value behind a reference: null leaves the reference empty. -/
def reference? {α : Type} (read : Item → Option α) (item : Item) : Option (Option α) :=
  if item.isNull then some none else (read item).map some

end Item

/-- Reads a literal. -/
def literal? (item : Item) : Option Literal := do
  let fields ← item.fields?
  let kind ← (Item.field 1 fields).byte?
  let number ← (Item.field 2 fields).number?
  let string ← (Item.field 3 fields).string?
  let boolean ← (Item.field 4 fields).bool?
  pure { kind := .ofByte kind, number := number, string := string, boolean := boolean }

/-- Reads an instruction. -/
def instruction? (item : Item) : Option Instruction := do
  let fields ← item.fields?
  let op ← (Item.field 1 fields).byte?
  let literal ← literal? (Item.field 2 fields)
  let name ← (Item.field 3 fields).string?
  let target ← (Item.field 4 fields).intWithin? (-Number.twoTo 63) (Number.twoTo 63 - 1)
  let line ← (Item.field 5 fields).intWithin? (-Number.twoTo 63) (Number.twoTo 63 - 1)
  pure { op := .ofByte op, literal := literal, name := name, target := target, line := line }

/-- Reads the marker of a variable. -/
def marker? (item : Item) : Option String := do
  let fields ← item.fields?
  (Item.field 1 fields).string?

/-- Reads a function. -/
def function? (item : Item) : Option Function := do
  let fields ← item.fields?
  let name ← (Item.field 1 fields).string?
  let params? ← (Item.field 2 fields).list? Item.string?
  let scope ← (Item.field 3 fields).dict? (Item.reference? marker?)
  let code? ← (Item.field 4 fields).list? instruction?
  pure { name := name, params? := params?, scope := scope, code? := code?.map List.toArray }

/-- Why bytes are no stored program. -/
inductive Rejection where
  /-- The bytes are no data item, or one of the wrong shape. -/
  | malformed
  | wrongMagic (found : String)
  | newerVersion (version : Nat)
  | noTopLevel
  | misnamed (key name : String)
  /-- A function is stored as an empty reference, on which the reader breaks down. -/
  | missing (key : String)
  deriving DecidableEq, Repr

/-- The wording of a rejection. -/
def Rejection.message : Rejection → String
  | .malformed => "bytecode: unmarshal program"
  | .wrongMagic found =>
    "bytecode: invalid magic: expected " ++ Text.quote magic ++ ", got " ++ Text.quote found
  | .newerVersion version =>
    "bytecode: format version " ++ toString version ++ " is newer than supported version "
      ++ toString formatVersion
  | .noTopLevel => "bytecode: program has no top-level function"
  | .misnamed key name =>
    "bytecode: function stored under " ++ Text.quote key ++ " is named " ++ Text.quote name
  | .missing key => "bytecode: function stored under " ++ Text.quote key ++ " is missing"

/-- The envelope as it is read. -/
structure Envelope where
  magic : String
  version : Nat
  functions : Dict (Option Function)

/-- Reads the envelope. A missing program has no functions. -/
def envelope? (item : Item) : Option Envelope := do
  let fields ← item.fields?
  let magic ← (Item.field 1 fields).string?
  let version ← (Item.field 2 fields).intWithin? 0 65535
  let program ← (Item.field 3 fields).fields?
  let functions ← (Item.field 1 program).dict? (Item.reference? function?)
  pure ⟨magic, version.toNat, functions⟩

/-- Every function has to be there and to carry the name it is stored under. -/
def named? : List (String × Option Function) → Except Rejection (List (String × Function))
  | [] => .ok []
  | (key, none) :: _ => .error (.missing key)
  | (key, some f) :: rest =>
    if f.name = key then (named? rest).map ((key, f) :: ·) else .error (.misnamed key f.name)

/-- The program in an envelope. -/
def Envelope.program (e : Envelope) : Except Rejection Program :=
  if e.magic ≠ Wire.magic then .error (.wrongMagic e.magic)
  else if formatVersion < e.version then .error (.newerVersion e.version)
  else
    match e.functions.get? topLevel with
    | some (some _) => (named? e.functions.toList).map fun entries => ⟨Dict.ofList entries⟩
    | _ => .error .noTopLevel

/-- The program that bytes store. -/
def decode (bytes : Bytes) : Except Rejection Program :=
  match (Item.decode? bytes).bind envelope? with
  | none => .error .malformed
  | some envelope => envelope.program

end LineScript.Wire
