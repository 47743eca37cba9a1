/-
# Scripted host functions

Host functions with a behaviour fixed in advance, for hosts that are put together from a description
and for trying out what scripts see of a host.
-/

import LineScript.Machine.State

namespace LineScript.Native

open LineScript.Machine

/-- A behaviour fixed in advance. -/
inductive Stub where
  /-- Gives back its arguments as a new list. -/
  | arguments
  /-- Tells how often it has been called. -/
  | count
  | fail (detail : String)
  | breakDown (detail : String)
  /-- Gives the same data each time, built anew. -/
  | constant (data : Data)

/-- The host function with the behaviour. -/
def Stub.native (stub : Stub) : Machine.Native :=
  ⟨fun calls args w =>
    match stub with
    | .arguments =>
      let (v, h) := w.heap.newList args.toArray
      (.value v, { w with heap := h })
    | .count => (.value (.number (Number.ofNat calls)), w)
    | .fail detail => (.failure detail, w)
    | .breakDown detail => (.breakdown detail, w)
    | .constant data =>
      let (v, h) := w.heap.build data
      (.value v, { w with heap := h })⟩

end LineScript.Native
