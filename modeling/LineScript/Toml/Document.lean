/-
# TOML documents

The tables that the statements of a text build up, and their keys in the order they were written. A
table that is only named on the way to another one may be opened later; anything else may be defined
once. Keys do not say which table of a list they are in, so what holds for a key of one table of a
list holds for the same key of the next one.
-/

import LineScript.Toml.Reader

namespace LineScript.Toml

/-- A value of a document. Of a list of tables only the last can still be added to, and only that one
is kept. -/
inductive Node where
  | string (s : String)
  | integer (n : Int)
  | boolean (b : Bool)
  /-- A value that no setting takes: a fraction, a point in time or a list. -/
  | other
  | table (members : List (String × Node))
  | tables (last : List (String × Node))

/-- The members of a table. -/
abbrev Members := List (String × Node)

/-- The member with a name. -/
def Members.get? (ms : Members) (name : String) : Option Node :=
  (ms.find? (·.1 = name)).map (·.2)

/-- Sets a member, at the end if it is new. -/
def Members.set (name : String) (node : Node) : Members → Members
  | [] => [(name, node)]
  | (k, v) :: rest => if k = name then (k, node) :: rest else (k, v) :: Members.set name node rest

/-- The members of the table at a key. -/
def Members.at? : Key → Members → Option Members
  | [], ms => some ms
  | name :: rest, ms =>
    match ms.get? name with
    | some (.table t) => Members.at? rest t
    | some (.tables t) => Members.at? rest t
    | _ => none

/-- Replaces the members of the table at a key. -/
def Members.replace (new : Members) : Key → Members → Members
  | [], _ => new
  | name :: rest, ms =>
    match ms.get? name with
    | some (.table t) => ms.set name (.table (Members.replace new rest t))
    | some (.tables t) => ms.set name (.tables (Members.replace new rest t))
    | _ => ms

/-- Makes the tables on the way to a key that are missing. -/
def Members.ensure : Key → Members → Option Members
  | [], ms => some ms
  | name :: rest, ms =>
    match ms.get? name with
    | none => (Members.ensure rest []).map fun t => ms.set name (.table t)
    | some (.table t) => (Members.ensure rest t).map fun t => ms.set name (.table t)
    | some (.tables t) => (Members.ensure rest t).map fun t => ms.set name (.tables t)
    | some _ => none

/-- The front parts of a key at which there is nothing yet, `front` being the parts before. -/
def Members.missing (front : Key) : Key → Members → List Key
  | [], _ => []
  | name :: rest, ms =>
    let here := front ++ [name]
    match ms.get? name with
    | none => here :: Members.missing here rest []
    | some (.table t) => Members.missing here rest t
    | some (.tables t) => Members.missing here rest t
    | some _ => []

/-- A document while it is being built. -/
structure Building where
  root : Members := []
  /-- The table that assignments go to. -/
  context : Key := []
  /-- The tables that have only been named on the way to another one. -/
  implied : List Key := []
  /-- The keys whose value is a list. -/
  lists : List Key := []
  /-- All keys as they were written, the last one first. -/
  written : List Key := []

namespace Building

/-- Marks a key as only implied. -/
def imply (b : Building) (key : Key) : Building := { b with implied := key :: b.implied }

/-- Marks a key as no longer only implied. -/
def confirm (b : Building) (key : Key) : Building :=
  { b with implied := b.implied.filter (· ≠ key) }

/-- Records whether the value of a key is a list. -/
def mark (b : Building) (key : Key) (isList : Bool) : Building :=
  { b with lists := if isList then key :: b.lists else b.lists.filter (· ≠ key) }

/-- Records that a key was written. -/
def note (b : Building) (key : Key) : Building := { b with written := key :: b.written }

/-- Puts a value into the current table. -/
def put (b : Building) (ms : Members) (name : String) (node : Node) : Building :=
  { b with root := Members.replace (ms.set name node) b.context b.root }

/-- Defines a name in the current table. What is there already has to be only implied; a list takes the
place of the tables that were gathered for it, and a table stays as it is. -/
def define? (b : Building) (name : String) (node : Node) : Option Building := do
  let ms ← Members.at? b.context b.root
  let key := b.context ++ [name]
  if (ms.get? name).isNone then some (b.put ms name node)
  else if !b.implied.contains key then none
  else if b.lists.contains key then some ((b.put ms name node).confirm key)
  else some (b.confirm key)

/-- Adds a table to a list in the current table. -/
def extend? (b : Building) (name : String) : Option Building := do
  let ms ← Members.at? b.context b.root
  match ms.get? name with
  | none => some (b.put ms name (.tables []))
  | some (.tables _) => some (b.put ms name (.tables []))
  | some _ => none

/-- Makes a table the current one, as a new table of a list if `isList` is set. -/
def enter? (b : Building) (key : Key) (isList : Bool) : Option Building := do
  let name ← key.getLast?
  let parent := key.dropLast
  let root ← Members.ensure parent b.root
  let implied := Members.missing [] parent b.root ++ b.implied
  let b := { b with root := root, implied := implied, context := parent }
  let b ← if isList then b.extend? name else b.define? name (.table [])
  some { b with context := key }

/-- Enters the tables on the way to an assigned key. -/
def descend? (b : Building) : Key → Option Building
  | [] => some b
  | name :: rest => do
    let key := b.context ++ [name]
    let b ← (b.imply key).enter? key false
    b.descend? rest

mutual

/-- The value of a name in the current table, and the document with what the value itself defines. -/
def evaluate (b : Building) (name : String) (inList : Bool) : Written → Option (Building × Node)
  | .string s => some (b, .string s)
  | .integer n => some (b, .integer n)
  | .boolean x => some (b, .boolean x)
  | .fraction => some (b, .other)
  | .moment => some (b, .other)
  | .array items => do
    let b ← evaluateItems (b.mark (b.context ++ [name]) true) name items
    some (b, .other)
  | .inline members => do
    let outer := b.context
    let here := outer ++ [name]
    let b ← (b.imply here).enter? here inList
    let b ← assignAll b members
    some ({ b with context := outer }, .table [])

/-- Evaluates the items of a list one after the other. -/
def evaluateItems (b : Building) (name : String) : List Written → Option Building
  | [] => some b
  | item :: rest => do
    let (b, _) ← evaluate b name true item
    evaluateItems b name rest

/-- Assigns the members of an inline table one after the other, each from the current table. -/
def assignAll (b : Building) : List (Key × Written) → Option Building
  | [] => some b
  | (key, v) :: rest => do
    let name ← key.getLast?
    let outer := b.context
    let b ← b.descend? key.dropLast
    let b := b.note (b.context ++ [name])
    let (b, node) ← evaluate b name false v
    let b ← b.define? name node
    let b := b.mark (b.context ++ [name]) (match v with | .array _ => true | _ => false)
    assignAll { b with context := outer } rest

end

/-- Takes a statement into the document. -/
def take? (b : Building) : Statement → Option Building
  | .table key => do
    let b ← b.enter? key false
    some ((b.mark key false).note key)
  | .tableOfList key => do
    let b ← b.enter? key true
    some ((b.mark key false).note key)
  | .assignment key v => b.assignAll [(key, v)]

end Building

/-- A document: its tables, and its keys in the order they were written. -/
structure Document where
  root : Members
  keys : List Key

/-- The document that a text is. -/
def parse? (bytes : Text.Bytes) : Option Document := do
  let statements ← read? bytes
  let b ← statements.foldlM Building.take? {}
  some ⟨b.root, b.written.reverse⟩

/-- The form of a character inside a quoted part of a key. -/
def quotedKeyChar (c : Char) : List Char :=
  match c with
  | '\x22' => ['\\', '\x22']
  | '\\' => ['\\', '\\']
  | '\x08' => ['\\', 'b']
  | '\t' => ['\\', 't']
  | '\n' => ['\\', 'n']
  | '\x0c' => ['\\', 'f']
  | '\r' => ['\\', 'r']
  | c => if c.toNat < 0x20 || c.toNat = 0x7f then '\\' :: 'u' :: Text.hexDigits 4 c.toNat else [c]

/-- A part of a key, quoted when it is not bare. -/
def partText (part : String) : String :=
  let cs := part.toList
  if !cs.isEmpty && cs.all isBareKeyChar then part
  else String.ofList ('\x22' :: (cs.flatMap quotedKeyChar ++ ['\x22']))

/-- A key as it could be written. -/
def keyText (key : Key) : String := Text.joined "." (key.map partText)

end LineScript.Toml
