/-
# Standard host functions

The functions every script can call: output, lengths, conversions, growing a list, the keys of an
object, and three functions of numbers. A function that refuses its arguments changes nothing. Output
can also fail when the writer behind it does, and then a part of the line may have been written.
-/

import LineScript.Machine.State
import LineScript.Number.Reading
import LineScript.Text.Blank
import LineScript.Text.Utf8

namespace LineScript.Native

open LineScript.Machine

/-- A host function of one argument. Without an argument the host breaks down. -/
def unary (f : Value → World → Reply × World) : Machine.Native :=
  ⟨fun _ args w =>
    match args with
    | v :: _ => f v w
    | [] => (.breakdown "missing argument", w)⟩

/-- A host function of two arguments. -/
def binary (f : Value → Value → World → Reply × World) : Machine.Native :=
  ⟨fun _ args w =>
    match args with
    | a :: b :: _ => f a b w
    | _ => (.breakdown "missing argument", w)⟩

/-- The writer behind the output. For each write, by its number and its text, it is settled whether the writer
fails, how many bytes of the text it has taken by then, and with what error. A writer that does not fail takes
all of the text, and by default none fails. -/
structure Writer where
  failure? : Nat → String → Option (Nat × String) := fun _ _ => none

/-- Writes a text to the output, or what the writer takes of it before it fails. -/
def Writer.write (out : Writer) (number : Nat) (text : String) (w : World) : Reply × World :=
  match out.failure? number text with
  | none => (.value .null, { w with output := w.output ++ text })
  | some (taken, detail) => (.failure detail, { w with output := w.output ++ Text.front taken text })

/-- The line that is written for a value: the value for display, and a line feed. -/
def line (h : Heap) (v : Value) : String := h.display v ++ "\n"

/-- Writes a value for display, and a line feed, to the output, and fails with its writer. -/
def log (out : Writer := {}) : Machine.Native :=
  ⟨fun calls => (unary fun v w => out.write calls (line w.heap v) w).run calls⟩

/-- The number of characters, elements or members. -/
def length : Machine.Native :=
  unary fun v w =>
    match v with
    | .string s => (.value (.number (Number.ofNat s.length)), w)
    | .ref (.list place) => (.value (.number (Number.ofNat (w.heap.list place).size)), w)
    | .ref (.object place) => (.value (.number (Number.ofNat (w.heap.object place).size)), w)
    | v => (.failure (v.kind.label ++ " has no length"), w)

/-- A value for display, as a text. -/
def text : Machine.Native :=
  unary fun v w => (.value (.string (w.heap.display v)), w)

/-- A value as a number. A text that is no number gives null. -/
def number : Machine.Native :=
  unary fun v w =>
    match v with
    | .number x => (.value (.number x), w)
    | .boolean b => (.value (.number (if b then 1 else 0)), w)
    | .string s =>
      match Number.read? (Text.trim s) with
      | some x => (.value (.number x), w)
      | none => (.value .null, w)
    | v => (.failure ("cannot convert " ++ v.kind.label ++ " to number"), w)

/-- Appends to a list and gives the list back. -/
def push : Machine.Native :=
  binary fun c v w =>
    match c, w with
    | .ref (.list place), ⟨heap, output⟩ => (.value c, ⟨heap.append place v, output⟩)
    | c, w => (.failure ("cannot push to " ++ c.kind.label), w)

/-- The keys of an object, in the order they were first set, as a new list. -/
def keys : Machine.Native :=
  unary fun v w =>
    match v with
    | .ref (.object place) =>
      let names := (w.heap.object place).keys.map Value.string
      let (v, h) := w.heap.newList names.toArray
      (.value v, { w with heap := h })
    | v => (.failure (v.kind.label ++ " has no keys"), w)

/-- A function of numbers. -/
def numeric (name : String) (f : Float → Float) : Machine.Native :=
  unary fun v w =>
    match v with
    | .number x => (.value (.number (f x)), w)
    | v => (.failure (name ++ " expects a number, not " ++ v.kind.label), w)

end LineScript.Native
