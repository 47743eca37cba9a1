/-
# Values

What scripts compute with. Numbers, texts, truth values and null are themselves; lists and objects
are references into a heap, so assigning one shares it and changing it is seen everywhere. An object
remembers the order in which its keys were first set.
-/

import LineScript.Code.Literal
import LineScript.Dict

namespace LineScript.Machine

/-- The kinds of values. -/
inductive Kind where
  | null
  | number
  | string
  | boolean
  | list
  | object
  deriving DecidableEq, Repr

namespace Kind

/-- The kinds in numeric order. -/
def all : List Kind := [null, number, string, boolean, list, object]

/-- The name of a kind in messages. -/
def label : Kind → String
  | null => "null"
  | number => "number"
  | string => "string"
  | boolean => "boolean"
  | list => "list"
  | object => "object"

end Kind

/-- A container, by its place in the heap. -/
inductive Ref where
  | list (place : Nat)
  | object (place : Nat)
  deriving DecidableEq, Repr

/-- A value of the language. -/
inductive Value where
  | null
  | number (x : Float)
  | string (s : String)
  | boolean (b : Bool)
  | ref (r : Ref)

namespace Value

instance : Inhabited Value := ⟨.null⟩

/-- The value for a list in the heap. -/
abbrev list (place : Nat) : Value := .ref (.list place)

/-- The value for an object in the heap. -/
abbrev object (place : Nat) : Value := .ref (.object place)

/-- The kind of a value. -/
def kind : Value → Kind
  | null => .null
  | number _ => .number
  | string _ => .string
  | boolean _ => .boolean
  | ref (.list _) => .list
  | ref (.object _) => .object

/-- Whether a value counts as true in a condition: all but null and false do. -/
def truthy : Value → Bool
  | null => false
  | boolean b => b
  | _ => true

/-- Whether a value is the truth value true. -/
def isTrue : Value → Bool
  | boolean b => b
  | _ => false

/-- The number that a value holds: its own for a number, one for true, zero for all else. -/
def toNumber : Value → Float
  | number x => x
  | boolean true => 1
  | _ => 0

/-- Whether two values are equal. Values of different kinds never are; containers are compared by
identity. -/
def equal : Value → Value → Bool
  | null, null => true
  | number x, number y => x == y
  | string s, string t => s = t
  | boolean a, boolean b => a = b
  | ref r, ref q => r = q
  | _, _ => false

/-- The value of a literal. -/
def ofLiteral (l : Code.Literal) : Value :=
  match l.kind with
  | .number => number l.number
  | .string => string l.string
  | .boolean => boolean l.boolean
  | _ => null

end Value

/-- An object: its keys in the order they were first set, and the value of each. -/
structure Object where
  keys : List String := []
  fields : Dict Value := ∅

namespace Object

instance : Inhabited Object := ⟨{}⟩

/-- The value under a key. -/
def get? (o : Object) (key : String) : Option Value :=
  o.fields.get? key

/-- Sets a member. A key that is not there yet comes last. -/
def set (o : Object) (key : String) (value : Value) : Object where
  keys := if o.fields.contains key then o.keys else o.keys ++ [key]
  fields := o.fields.insert key value

/-- The members in the order their keys were first set. -/
def members (o : Object) : List (String × Value) :=
  o.keys.map fun key => (key, (o.get? key).getD .null)

@[simp] theorem members_empty : ({} : Object).members = [] := rfl

/-- The number of members. -/
def size (o : Object) : Nat := o.keys.length

end Object

/-- The containers that exist. -/
structure Heap where
  lists : Array (Array Value) := #[]
  objects : Array Object := #[]

namespace Heap

instance : Inhabited Heap := ⟨{}⟩

/-- How many containers there are. -/
def size (h : Heap) : Nat := h.lists.size + h.objects.size

/-- The elements of a list. -/
def list (h : Heap) (place : Nat) : Array Value := h.lists.getD place #[]

/-- The members of an object. -/
def object (h : Heap) (place : Nat) : Object := h.objects.getD place {}

/-- A new list. -/
def newList : Heap → Array Value → Value × Heap
  | ⟨lists, objects⟩, items => (.list lists.size, ⟨lists.push items, objects⟩)

/-- A new object. -/
def newObject : Heap → Object → Value × Heap
  | ⟨lists, objects⟩, o => (.object objects.size, ⟨lists, objects.push o⟩)

/-- Appends to a list. -/
def append : Heap → Nat → Value → Heap
  | ⟨lists, objects⟩, place, value => ⟨lists.modify place (·.push value), objects⟩

/-- Changes an element of a list. -/
def setElement : Heap → Nat → Nat → Value → Heap
  | ⟨lists, objects⟩, place, index, value =>
    ⟨lists.modify place (·.setIfInBounds index value), objects⟩

/-- Sets a member of an object. -/
def setMember : Heap → Nat → String → Value → Heap
  | ⟨lists, objects⟩, place, key, value => ⟨lists, objects.modify place (·.set key value)⟩

end Heap

end LineScript.Machine
