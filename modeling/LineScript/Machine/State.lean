/-
# The state of a run

One flat stack holds the values of all active calls; every call remembers the height at which its
own part begins and never reaches below it. The top level keeps its variables among the globals,
which outlive the run.
-/

import LineScript.Code.Program
import LineScript.Machine.Operator

namespace LineScript.Machine

open LineScript.Code

/-- What host functions can touch: the containers and the output. -/
structure World where
  heap : Heap := {}
  output : String := ""

/-- How a host function answers a call. -/
inductive Reply where
  | value (v : Value)
  /-- The call fails, and the script with it. -/
  | failure (detail : String)
  /-- The host itself breaks down. -/
  | breakdown (detail : String)

/-- A host function: given the number of the call, its arguments and the world, it answers and leaves a
world. -/
structure Native where
  run : Nat → List Value → World → Reply × World

/-- A host function under a name: how many values a call takes from the stack, and how many calls have been
answered with a value. -/
structure Bound where
  native : Native
  arity : Int
  calls : Nat := 0

/-- An active call. The top level has no variables of its own: its variables are the globals. -/
structure Frame where
  function : Function
  /-- The address of the next instruction. -/
  ip : Int := 0
  /-- The stack height at which the call's own values begin. -/
  base : Nat := 0
  locals? : Option (Dict Value) := none

/-- Bounds on a run; zero and below mean none. -/
structure Limits where
  steps : Int := 0
  depth : Int := 1024

/-- The state between two instructions. -/
structure State where
  stack : Array Value := #[]
  /-- The running call. -/
  frame : Frame
  /-- The calls that wait for it, innermost first. -/
  callers : List Frame := []
  globals : Dict Value
  world : World
  natives : Dict Bound
  /-- How many instructions have begun. -/
  steps : Nat := 0
  /-- The instructions executed so far, when a record is kept. -/
  trace? : Option String := none

namespace State

/-- Puts a value on the stack. -/
def push : State → Value → State
  | ⟨stack, frame, callers, globals, world, natives, steps, trace?⟩, v =>
    ⟨stack.push v, frame, callers, globals, world, natives, steps, trace?⟩

/-- Drops the topmost value. -/
def drop : State → State
  | ⟨stack, frame, callers, globals, world, natives, steps, trace?⟩ =>
    ⟨stack.pop, frame, callers, globals, world, natives, steps, trace?⟩

/-- Whether the running call has a value on the stack. -/
def hasTop (s : State) : Bool := s.frame.base < s.stack.size

/-- The topmost value. -/
def top (s : State) : Value := s.stack.back?.getD .null

/-- The variables of the running call. -/
def locals (s : State) : Dict Value := s.frame.locals?.getD s.globals

/-- Reads a variable: a local one when the running function declares the name, else a global. A variable
without a value reads as null. -/
def load (s : State) (name : String) : Value :=
  let scope := if s.frame.function.declares name then s.locals else s.globals
  (scope.get? name).getD .null

/-- Assigns a variable, local or global by the same rule. -/
def store (s : State) (name : String) (v : Value) : State :=
  match s.frame.function.declares name, s.frame.locals? with
  | true, some locals => { s with frame := { s.frame with locals? := some (locals.insert name v) } }
  | _, _ => { s with globals := s.globals.insert name v }

/-- Goes on at another address. -/
def jump (s : State) (target : Int) : State := { s with frame := { s.frame with ip := target } }

/-- The heap of the state. -/
def heap (s : State) : Heap := s.world.heap

/-- Changes the heap. -/
def mapHeap : State → (Heap → Heap) → State
  | ⟨stack, frame, callers, globals, ⟨heap, output⟩, natives, steps, trace?⟩, f =>
    ⟨stack, frame, callers, globals, ⟨f heap, output⟩, natives, steps, trace?⟩

/-- Makes a new container and puts it on the stack. -/
def pushNew : State → (Heap → Value × Heap) → State
  | ⟨stack, frame, callers, globals, ⟨heap, output⟩, natives, steps, trace?⟩, make =>
    let (v, heap) := make heap
    ⟨stack.push v, frame, callers, globals, ⟨heap, output⟩, natives, steps, trace?⟩

/-- The depth of calls, the running one included. -/
def depth (s : State) : Nat := s.callers.length + 1

/-- The instruction before the next one failed: its function, address and line. -/
def error (s : State) (cause : Cause) : RuntimeError :=
  let address := s.frame.ip - 1
  let line := if 0 ≤ address then ((s.frame.function.code[address.toNat]?).map (·.line)).getD 0 else 0
  { function := s.frame.function.name, address := address, line := line, cause := cause }

end State

end LineScript.Machine
