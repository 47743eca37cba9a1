/-
# Programs

A program maps names to compiled functions; the statements outside every function make up the one
under the reserved name. A program can be checked for structural soundness before it is run, which
is what stored programs go through.
-/

import LineScript.Code.Function

namespace LineScript.Code

/-- A compiled program. -/
structure Program where
  functions : Dict Function := ∅

namespace Program

instance : Inhabited Program := ⟨{}⟩

/-- The program with an empty top level and nothing else. -/
def new : Program := ⟨(∅ : Dict Function).insert topLevel (.new topLevel [])⟩

/-- The top level. -/
def main? (p : Program) : Option Function := p.functions.get? topLevel

/-- The function under a name. -/
def function? (p : Program) (name : String) : Option Function := p.functions.get? name

/-- The function names, ascending; the top level comes first among identifiers. -/
def names (p : Program) : List String := p.functions.keys

/-- The listings of all functions with a blank line between each two. -/
def listing (p : Program) : String :=
  Text.joined "\n" (p.functions.values.map Function.listing)

end Program

/-- What is wrong with one instruction. -/
inductive Fault where
  | unknownOpcode (byte : UInt8)
  | unresolved (op : Opcode)
  | targetOutOfRange (op : Opcode) (target : Int)
  | nameless (op : Opcode)
  | unknownCallee (name : String)
  deriving DecidableEq, Repr

/-- A fault with the function and the address it was found at. -/
structure Finding where
  function : String
  address : Nat
  fault : Fault
  deriving DecidableEq, Repr

/-- The wording of a finding. -/
def Finding.message (f : Finding) : String :=
  let site := f.function ++ "@" ++ toString f.address ++ ": "
  match f.fault with
  | .unknownOpcode byte => site ++ "unknown opcode 0x" ++ Text.upperHexByte byte
  | .unresolved op => site ++ "unresolved " ++ op.label
  | .targetOutOfRange op target => site ++ op.label ++ " target " ++ toString target ++ " out of range"
  | .nameless op => site ++ op.label ++ " without name"
  | .unknownCallee name => site ++ "call to unknown function " ++ Text.quote name

/-- What is wrong with an instruction of a function of `length` instructions, when the callable names
are those of the program and of the natives. -/
def Instruction.fault? (p : Program) (natives : Dict Nat) (length : Nat) (i : Instruction) :
    Option Fault :=
  match i.op with
  | .unassigned _ => some (.unknownOpcode i.op.toByte)
  | op =>
    match op.operand with
    | .address =>
      if i.target = unresolvedTarget then some (.unresolved op)
      else if i.target < 0 || (length : Int) < i.target then some (.targetOutOfRange op i.target)
      else none
    | .name =>
      if i.name = "" then some (.nameless op)
      else if op = .call && !p.functions.contains i.name && !natives.contains i.name then
        some (.unknownCallee i.name)
      else none
    | _ => none

/-- The findings in one function, in address order. -/
def Function.findings (p : Program) (natives : Dict Nat) (f : Function) : List Finding :=
  f.code.toList.zipIdx.filterMap fun (i, address) =>
    (i.fault? p natives f.length).map (⟨f.name, address, ·⟩)

/-- Why a program may not be run. -/
inductive Invalid where
  | noTopLevel
  | findings (first : Finding) (rest : List Finding)
  deriving DecidableEq, Repr

/-- The wording, one finding a line. -/
def Invalid.message : Invalid → String
  | .noTopLevel => "validate: missing top-level function"
  | .findings first rest => Text.joined "\n" ((first :: rest).map Finding.message)

/-- Checks that a program has a top level, knows all its operations and callees and jumps only within
its functions, given the natives and their parameter counts. -/
def Program.invalid? (p : Program) (natives : Dict Nat) : Option Invalid :=
  match p.main? with
  | none => some .noTopLevel
  | some _ =>
    match p.functions.values.flatMap (Function.findings p natives) with
    | [] => none
    | first :: rest => some (.findings first rest)

end LineScript.Code
