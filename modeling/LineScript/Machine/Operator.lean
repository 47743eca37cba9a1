/-
# Operators on values

Arithmetic, comparison and access to elements. Each gives a value or the cause of its failure, and
none changes the heap; assignment first finds its place, which may fail, and then writes to it.
-/

import LineScript.Machine.Fault
import LineScript.Machine.Shown

namespace LineScript.Machine

open LineScript.Code (Opcode)

/-- Addition: texts are joined with whatever stands on the other side, numbers are added. -/
def add (h : Heap) : Value → Value → Except Cause Value
  | .number x, .number y => .ok (.number (x + y))
  | a, b =>
    if a.kind = .string || b.kind = .string then .ok (.string (h.display a ++ h.display b))
    else .error (.wrongKinds "add" a.kind b.kind)

/-- Subtraction, multiplication and division of numbers. Division by either zero fails. -/
def arithmetic (op : Opcode) : Value → Value → Except Cause Value
  | .number x, .number y =>
    match op with
    | .subtract => .ok (.number (x - y))
    | .multiply => .ok (.number (x * y))
    | _ => if y == 0 then .error .divisionByZero else .ok (.number (x / y))
  | a, b => .error (.wrongKinds op.label a.kind b.kind)

/-- Where one value stands relative to another. Values that are neither less nor greater count as the
same. -/
def order : Value → Value → Except Cause Ordering
  | .number x, .number y => .ok (if x < y then .lt else if y < x then .gt else .eq)
  | .string s, .string t => .ok (if s < t then .lt else if t < s then .gt else .eq)
  | a, b => .error (.wrongKinds "compare" a.kind b.kind)

/-- The four comparisons. -/
def compare (op : Opcode) (a b : Value) : Except Cause Value :=
  (order a b).map fun o =>
    .boolean (match op with
      | .less => o.isLT
      | .lessOrEqual => o.isLE
      | .greater => o.isGT
      | _ => o.isGE)

/-- The integer that stands for every one beyond the signed 64-bit range. -/
def outOfWord : Int := -Number.twoTo 63

/-- The position that a value gives in a sequence of `length` elements. -/
def position (index : Value) (length : Nat) : Except Cause Nat :=
  match index with
  | .number x =>
    let at? : Option Int :=
      match Number.whole x with
      | .fraction => none
      | .beyond => some outOfWord
      | .exactly n => some (if Number.fits64 n then n else outOfWord)
    match at? with
    | none => .error (.indexNotInteger (Number.written x))
    | some n =>
      if 0 ≤ n ∧ n < length then .ok n.toNat else .error (.indexOutOfRange n length)
  | v => .error (.indexNotNumber v.kind)

/-- The element of a list, the character of a text or the member of an object. A key that is not set
gives null. -/
def element (h : Heap) (container index : Value) : Except Cause Value :=
  match container with
  | .ref (.list place) =>
    let items := h.list place
    (position index items.size).map fun i => items.getD i .null
  | .string s =>
    let cs := s.toList
    (position index cs.length).map fun i => .string (String.ofList (cs[i]?.toList))
  | .ref (.object place) =>
    match index with
    | .string key => .ok (((h.object place).get? key).getD .null)
    | v => .error (.keyNotString v.kind)
  | v => .error (.wrongKind "index" v.kind)

/-- A place that can be assigned to. -/
inductive Slot where
  | element (list index : Nat)
  | member (object : Nat) (key : String)
  deriving DecidableEq, Repr

/-- The place that a container and an index name. An object has one for every text, a list only for the
elements it has. -/
def slot (h : Heap) (container index : Value) : Except Cause Slot :=
  match container with
  | .ref (.list place) => (position index (h.list place).size).map (.element place)
  | .ref (.object place) =>
    match index with
    | .string key => .ok (.member place key)
    | v => .error (.keyNotString v.kind)
  | v => .error (.wrongKind "assign an element of" v.kind)

/-- Assigns to a place. -/
def Heap.write (h : Heap) (slot : Slot) (value : Value) : Heap :=
  match slot with
  | .element place index => h.setElement place index value
  | .member place key => h.setMember place key value

end LineScript.Machine
