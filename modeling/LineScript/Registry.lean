/-
# Registries

The host functions that a compiler and a machine are given, each with its name and signature. The
compiler learns the signatures, the machine the functions; both get the same entries, so a call takes
from the stack exactly what the compiler counted.
-/

import LineScript.Compile.Compiler
import LineScript.Machine.Run
import LineScript.Native.Standard

namespace LineScript

/-- A host function with its declared signature. -/
structure Entry where
  name : String
  signature : String
  native : Machine.Native

/-- Host functions in the order they were registered. -/
structure Registry where
  entries : List Entry := []

/-- Why a registry could not be installed. -/
inductive InstallError where
  /-- The compiler refused an entry. -/
  | imported (error : ImportError)
  /-- An entry cannot be bound because its signature is malformed. -/
  | unbindable (name : String) (cause : Signature.Malformed)
  deriving DecidableEq, Repr

namespace InstallError

/-- The wording of a failed installation. -/
def message : InstallError → String
  | imported error => error.message
  | unbindable name cause => "native " ++ name ++ ": " ++ cause.message

/-- The compile error behind a failed installation, if it is one. -/
def compileError? : InstallError → Option CompileError
  | imported error => error.compileError?
  | unbindable _ _ => none

end InstallError

namespace Registry

/-- The standard host functions, with a writer for the output. -/
def standard (out : Native.Writer := {}) : Registry :=
  ⟨[⟨"log", "log(value)", Native.log out⟩,
    ⟨"len", "len(value)", Native.length⟩,
    ⟨"str", "str(value)", Native.text⟩,
    ⟨"num", "num(value)", Native.number⟩,
    ⟨"push", "push(list, value)", Native.push⟩,
    ⟨"keys", "keys(object)", Native.keys⟩,
    ⟨"floor", "floor(x)", Native.numeric "floor" Number.floor⟩,
    ⟨"sqrt", "sqrt(x)", Native.numeric "sqrt" Float.sqrt⟩,
    ⟨"abs", "abs(x)", Native.numeric "abs" Float.abs⟩]⟩

/-- Adds entries after those already there. -/
def add (r : Registry) (entries : List Entry) : Registry := ⟨r.entries ++ entries⟩

/-- The signature of each name; the last entry of a name counts. -/
def signatures (r : Registry) : Dict String :=
  Dict.ofList (r.entries.map fun e => (e.name, e.signature))

/-- The parameter count of each name in a list of signatures. -/
def aritiesOf : List (String × String) → Except InstallError (List (String × Nat))
  | [] => .ok []
  | (name, signature) :: rest =>
    match Signature.parse signature with
    | .error cause => .error (.unbindable name cause)
    | .ok params => (aritiesOf rest).map ((name, params.length) :: ·)

/-- The parameter count of each name. -/
def arities (r : Registry) : Except InstallError (Dict Nat) :=
  (aritiesOf (r.entries.map fun e => (e.name, e.signature))).map Dict.ofList

/-- Imports the signatures into a compiler, in order. -/
def installCompiler (c : Compiler) : List Entry → Except InstallError Compiler
  | [] => .ok c
  | e :: rest =>
    match c.importNative e.name e.signature with
    | .ok c => installCompiler c rest
    | .error error => .error (.imported error)

/-- Binds the functions to a machine, in order, up to the first whose signature is malformed; a later
entry replaces an earlier one of its name. -/
def bindAll (m : Machine) : List Entry → Machine × Option InstallError
  | [] => (m, none)
  | e :: rest =>
    match Signature.parse e.signature with
    | .ok params => bindAll (m.bind e.name params.length e.native) rest
    | .error cause => (m, some (.unbindable e.name cause))

/-- Imports the signatures into a compiler. -/
def compiler (r : Registry) (c : Compiler := {}) : Except InstallError Compiler :=
  installCompiler c r.entries

/-- Binds the functions to a machine. -/
def machine (r : Registry) (m : Machine) : Except InstallError Machine :=
  match bindAll m r.entries with
  | (m, none) => .ok m
  | (_, some error) => .error error

end Registry

/-- A compiler and a machine with the same host functions. -/
structure Host where
  compiler : Compiler
  machine : Machine

/-- A compiler and a machine with the host functions of a registry. The compiler refuses what the
machine would refuse, so its error is the one that is reported. -/
def Registry.host (r : Registry) (limits : Machine.Limits) (tracing : Bool := false) :
    Except InstallError Host := do
  let c ← r.compiler
  let m ← r.machine { limits := limits, tracing := tracing }
  .ok ⟨c, m⟩

end LineScript
