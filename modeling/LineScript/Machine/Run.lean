/-
# Running programs

A machine keeps the host functions, the globals and the heap from one run to the next, which is what
a session builds on. A run starts at the top level with an empty stack and goes on until it finishes,
fails, breaks down, or its patience is spent.
-/

import LineScript.Machine.Step

namespace LineScript

open LineScript.Code

/-- How a run ended. -/
inductive Machine.Outcome where
  | value (v : Machine.Value)
  | failed (e : Machine.RuntimeError)
  | noTopLevel
  /-- The host broke down. -/
  | breakdown (detail : String)
  /-- The run was still going on when its patience was spent. -/
  | unfinished

/-- What lasts between runs. -/
structure Machine where
  natives : Dict Machine.Bound := ∅
  globals : Dict Machine.Value := ∅
  heap : Machine.Heap := {}
  limits : Machine.Limits := {}
  /-- Whether runs keep a record of their instructions. -/
  tracing : Bool := false
  /-- How many instructions the last run began. -/
  steps : Nat := 0

/-- The report of a run. -/
structure Machine.Report where
  outcome : Machine.Outcome
  machine : Machine
  output : String := ""
  trace : String := ""

namespace Machine

/-- Makes a host function callable under a name. -/
def bind (m : Machine) (name : String) (arity : Int) (native : Native) : Machine :=
  { m with natives := m.natives.insert name { native := native, arity := arity } }

/-- Whether a host function is bound under a name. -/
def isBound (m : Machine) (name : String) : Bool := m.natives.contains name

/-- The value of a global. -/
def global? (m : Machine) (name : String) : Option Value := m.globals.get? name

/-- Assigns a global. -/
def setGlobal (m : Machine) (name : String) (data : Data) : Machine :=
  let (v, h) := m.heap.build data
  { m with globals := m.globals.insert name v, heap := h }

/-- The state a run starts in. -/
def start (m : Machine) (main : Function) : State :=
  { frame := { function := main }
    globals := m.globals
    world := { heap := m.heap }
    natives := m.natives
    trace? := if m.tracing then some "" else none }

/-- Takes up to `patience` steps. -/
def proceed (p : Program) (limits : Limits) (cancelled : Bool) : Nat → State → Outcome × State
  | 0, s => (.unfinished, s)
  | patience + 1, s =>
    match s.step p limits cancelled with
    | .next s => proceed p limits cancelled patience s
    | .finished v s => (.value v, s)
    | .failed e s => (.failed e, s)
    | .breakdown detail s => (.breakdown detail, s)

/-- What the machine keeps of the final state of a run, and the report. -/
def report (m : Machine) (outcome : Outcome) (s : State) : Report :=
  { outcome := outcome
    machine := { m with
      natives := s.natives, globals := s.globals, heap := s.world.heap, steps := s.steps }
    output := s.world.output
    trace := s.trace?.getD "" }

/-- Runs a program for up to `patience` steps. -/
def runFor (m : Machine) (patience : Nat) (p : Program) (cancelled : Bool := false) : Report :=
  match p.main? with
  | none => { outcome := .noTopLevel, machine := m }
  | some main =>
    let (outcome, s) := proceed p m.limits cancelled patience (m.start main)
    m.report outcome s

/-- More steps than any run can take before its host is switched off. -/
def patience : Nat := Number.twoTo 62

/-- Runs a program. -/
def run (m : Machine) (p : Program) (cancelled : Bool := false) : Report :=
  m.runFor patience p cancelled

/-- The variables that the top level of a program declares and that have a value, as they would be
written in a script. -/
def shownGlobals (m : Machine) (p : Program) : List (String × String) :=
  match p.main? with
  | none => []
  | some main => main.scope.keys.filterMap fun name =>
      (m.global? name).map fun v => (name, m.heap.repr v)

/-- The wording of a run without a top level. -/
def noTopLevelMessage : String := "program has no top-level function"

end Machine

end LineScript
