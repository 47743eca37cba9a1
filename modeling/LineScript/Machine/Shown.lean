/-
# Showing values

A value as text, and as plain data without references. A container met again inside itself is cut
there, so both end on every heap; one that is merely shared is shown in full each time. Inside
containers texts are quoted, so that what is shown reads like a script.
-/

import LineScript.Dict
import LineScript.Machine.Value
import LineScript.Text.Hex

namespace LineScript.Machine

/-- Plain data: a value with its containers unfolded. -/
inductive Data where
  | null
  | number (x : Float)
  | string (s : String)
  | boolean (b : Bool)
  | list (items : List Data)
  | object (members : List (String × Data))

instance : Inhabited Data := ⟨.null⟩

namespace Heap

/-- The text of a container that is cut because it stands inside itself. -/
def cut : Ref → String
  | .list _ => "[...]"
  | .object _ => "\x7b...\x7d"

/-- The text of a value inside the containers of `path`. Each level of nesting adds a container to the
path, so fuel for one more than there are containers is enough. -/
def textWithin (h : Heap) : Nat → List Ref → Bool → Value → String
  | _, _, _, .null => "null"
  | _, _, _, .number x => Number.written x
  | _, _, quoted, .string s => if quoted then Text.quote s else s
  | _, _, _, .boolean b => if b then "true" else "false"
  | 0, _, _, .ref r => cut r
  | fuel + 1, path, _, .ref r =>
    if path.contains r then cut r
    else
      match r with
      | .list place =>
        let items := (h.list place).toList.map fun v => textWithin h fuel (r :: path) true v
        "[" ++ Text.joined ", " items ++ "]"
      | .object place =>
        let members := (h.object place).members.map fun (key, v) =>
          key ++ " = " ++ textWithin h fuel (r :: path) true v
        "\x7b" ++ Text.joined ", " members ++ "\x7d"

/-- A value for display: a text stands bare. -/
def display (h : Heap) (v : Value) : String := h.textWithin (h.size + 1) [] false v

/-- A value as it would be written in a script. -/
def repr (h : Heap) (v : Value) : String := h.textWithin (h.size + 1) [] true v

/-- The plain data of a value inside the containers of `path`; what is cut is null. -/
def dataWithin (h : Heap) : Nat → List Ref → Value → Data
  | _, _, .null => .null
  | _, _, .number x => .number x
  | _, _, .string s => .string s
  | _, _, .boolean b => .boolean b
  | 0, _, .ref _ => .null
  | fuel + 1, path, .ref r =>
    if path.contains r then .null
    else
      match r with
      | .list place => .list ((h.list place).toList.map fun v => dataWithin h fuel (r :: path) v)
      | .object place =>
        .object ((h.object place).members.map fun (key, v) => (key, dataWithin h fuel (r :: path) v))

/-- The plain data of a value. -/
def data (h : Heap) (v : Value) : Data := h.dataWithin (h.size + 1) [] v

mutual

/-- Builds plain data as a new value. -/
def build (h : Heap) : Data → Value × Heap
  | .null => (.null, h)
  | .number x => (.number x, h)
  | .string s => (.string s, h)
  | .boolean b => (.boolean b, h)
  | .list items =>
    let (values, h) := buildItems h items
    h.newList values.toArray
  | .object members =>
    let (o, h) := buildMembers h {} members
    h.newObject o

/-- Builds plain data in a row. -/
def buildItems (h : Heap) : List Data → List Value × Heap
  | [] => ([], h)
  | item :: rest =>
    let (v, h) := build h item
    let (values, h) := buildItems h rest
    (v :: values, h)

/-- Sets plain data as members of an object, in order. -/
def buildMembers (h : Heap) (o : Object) : List (String × Data) → Object × Heap
  | [] => (o, h)
  | (key, member) :: rest =>
    let (v, h) := build h member
    buildMembers h (o.set key v) rest

end

end Heap

end LineScript.Machine
