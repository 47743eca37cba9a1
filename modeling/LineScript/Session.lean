/-
# Interactive sessions

A session evaluates one entry after another. The functions and the variables of earlier entries stay
visible to later ones: each entry is compiled on top of the program of the entry before it and run on
the same machine.
-/

import LineScript.Registry

namespace LineScript

open LineScript.Code

/-- A session: its host functions, the machine its entries run on, and the last program. -/
structure Session where
  registry : Registry
  compiler : Compiler
  machine : Machine
  prelude? : Option Program := none

namespace Session

/-- A fresh session. -/
def new (registry : Registry) (limits : Machine.Limits) (tracing : Bool := false) :
    Except InstallError Session := do
  let host ← registry.host limits tracing
  .ok { registry := registry, compiler := host.compiler, machine := host.machine }

/-- Compiles an entry on top of the earlier ones. -/
def compile (s : Session) (entry : String) : Except CompileError Program :=
  Compiler.compileSource { s.compiler with prelude? := s.prelude? } entry

/-- Compiles and runs an entry. An entry that compiles is what later entries build on, whether its
run succeeds or not. -/
def eval (s : Session) (entry : String) : Except CompileError (Machine.Report × Session) := do
  let p ← s.compile entry
  let report := s.machine.run p
  .ok (report, { s with prelude? := some p, machine := report.machine })

/-- Whether an entry needs more lines before it can be evaluated. -/
def isIncomplete (s : Session) (entry : String) : Bool :=
  match s.compile entry with
  | .ok _ => false
  | .error e => e.isIncomplete

/-- What a session answers to a command. -/
structure Answer where
  text : String := ""
  quit : Bool := false
  deriving DecidableEq, Repr

/-- The commands and what they do. -/
def help : String :=
  "REPL Commands:\n"
    ++ "  :help, :h, :?     Show this help\n"
    ++ "  :disasm           Show the bytecode compiled so far\n"
    ++ "  :natives          List native functions\n"
    ++ "  :quit, :q         Exit REPL\n"
    ++ "\n"
    ++ "A top-level return prints its value.\n"

/-- The text of the last program. -/
def listing (s : Session) : String :=
  match s.prelude? with
  | none => "(nothing compiled yet)\n"
  | some p => p.listing

/-- Answers a command. -/
def command (s : Session) (name : String) : Answer :=
  if name = ":help" || name = ":h" || name = ":?" then { text := help }
  else if name = ":disasm" then { text := s.listing }
  else if name = ":natives" then
    { text := String.join (s.registry.entries.map fun e => "  " ++ e.signature ++ "\n") }
  else if name = ":quit" || name = ":q" then { quit := true }
  else { text := "Unknown command: " ++ name ++ " (try :help)\n" }

end Session

end LineScript
