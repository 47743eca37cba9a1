/-
# Functions under construction

A compiled function: its parameters, the names declared in its scope and its instructions. Code is
written front to back; a jump whose target is not known yet is left as a placeholder and resolved
once, when the target is reached.
-/

import LineScript.Code.Literal
import LineScript.Code.Opcode
import LineScript.Dict

namespace LineScript.Code

/-- The reserved name of the function that holds the statements outside every other function. No
identifier is spelled like it. -/
def topLevel : String := "."

/-- The target of a jump that has not been resolved. -/
def unresolvedTarget : Int := -1

/-- An operation with its operand and the line of the script it comes from, zero when unknown. Only
the operand that the operation calls for means anything; the others are kept as they are. -/
structure Instruction where
  op : Opcode := .value
  literal : Literal := {}
  name : String := ""
  target : Int := 0
  line : Int := 0

namespace Instruction

instance : Inhabited Instruction := ⟨{}⟩

/-- Whether an instruction is no placeholder. -/
def isResolved (i : Instruction) : Bool :=
  !i.op.isJump || i.target ≠ unresolvedTarget

/-- The instruction as listings show it. -/
def text (i : Instruction) : String :=
  match i.op.operand with
  | .literal => i.op.label ++ " " ++ i.literal.source
  | .name => i.op.label ++ " " ++ i.name
  | .address =>
    if i.target = unresolvedTarget then i.op.label ++ " ?" else i.op.label ++ " " ++ toString i.target
  | .none => i.op.label

end Instruction

/-- A compiled function. A stored program may leave out the list of parameters or of instructions,
which then counts as empty and is left out again when the program is stored anew. The marker of a
declared name is that name; only a stored program can hold another one, or none. -/
structure Function where
  name : String
  params? : Option (List String) := some []
  scope : Dict (Option String) := ∅
  code? : Option (Array Instruction) := some #[]

namespace Function

instance : Inhabited Function := ⟨{ name := "" }⟩

/-- The parameters in order. -/
def params (f : Function) : List String := f.params?.getD []

/-- The instructions in order. -/
def code (f : Function) : Array Instruction := f.code?.getD #[]

/-- The number of parameters. -/
def arity (f : Function) : Nat := f.params.length

/-- The address of the next instruction. -/
def length (f : Function) : Nat := f.code.size

/-- Whether a name is declared in the function's own scope. -/
def declares (f : Function) (name : String) : Bool :=
  f.scope.contains name

/-- Adds a name to the scope; a name already there keeps its marker. -/
def declare (f : Function) (name : String) : Function :=
  if f.declares name then f else { f with scope := f.scope.insert name (some name) }

/-- A function without code whose scope holds its parameters. -/
def new (name : String) (params : List String) : Function :=
  params.foldl declare { name := name, params? := some params }

/-- Appends an instruction; its address is the length before. -/
def emit (f : Function) (i : Instruction) : Function :=
  { f with code? := some (f.code.push i) }

/-- Appends a placeholder for a jump. -/
def emitJump (f : Function) (op : Opcode) (line : Int) : Function :=
  f.emit { op := op, target := unresolvedTarget, line := line }

/-- Appends a jump to a known target. -/
def emitJumpTo (f : Function) (op : Opcode) (target line : Int) : Function :=
  f.emit { op := op, target := target, line := line }

/-- Why a placeholder could not be resolved. -/
inductive PatchCause where
  | noSuchAddress
  | notJump (op : Opcode)
  | alreadyPatched (op : Opcode)
  | targetOutOfRange (target : Int)
  deriving DecidableEq, Repr

/-- A refused attempt to resolve a placeholder. -/
structure PatchError where
  function : String
  address : Int
  cause : PatchCause
  deriving DecidableEq, Repr

/-- The wording of a refused attempt. -/
def PatchError.message (e : PatchError) : String :=
  let site := "patch " ++ e.function ++ "@" ++ toString e.address
  match e.cause with
  | .noSuchAddress => site ++ ": address out of range"
  | .notJump op => site ++ " (" ++ op.label ++ "): instruction has no address operand"
  | .alreadyPatched op => site ++ " (" ++ op.label ++ "): instruction already patched"
  | .targetOutOfRange target => site ++ ": target " ++ toString target ++ " out of range"

/-- Resolves the placeholder at an address. The address has to hold a jump that is still unresolved,
and the target has to lie within the code or just past its end. -/
def patch (f : Function) (address target : Int) : Except PatchError Function :=
  let refuse (cause : PatchCause) : Except PatchError Function := .error ⟨f.name, address, cause⟩
  if address < 0 then refuse .noSuchAddress
  else
    match f.code[address.toNat]? with
    | none => refuse .noSuchAddress
    | some i =>
      if !i.op.isJump then refuse (.notJump i.op)
      else if i.target ≠ unresolvedTarget then refuse (.alreadyPatched i.op)
      else if target < 0 || (f.length : Int) < target then refuse (.targetOutOfRange target)
      else .ok { f with code? := some (f.code.modify address.toNat (fun i => { i with target := target })) }

/-- Resolves a placeholder to the end of the code. -/
def patchHere (f : Function) (address : Int) : Except PatchError Function :=
  f.patch address f.length

/-- The addresses of the placeholders, ascending. -/
def unresolved (f : Function) : List Nat :=
  (f.code.toList.zipIdx.filter (fun entry => !entry.1.isResolved)).map (·.2)

/-- The declared names that are no parameters, ascending. -/
def locals (f : Function) : List String :=
  f.scope.keys.filter (fun name => !f.params.contains name)

/-- The lines of a listing: an address, the instruction, and the line of the script where it
changes. -/
def listingLines : Int → Nat → List Instruction → List String
  | _, _, [] => []
  | last, address, i :: rest =>
    if 0 < i.line && i.line ≠ last then
      (Text.fourDigits address ++ "  " ++ Text.padRight 30 i.text ++ " ; line " ++ toString i.line ++ "\n")
        :: listingLines i.line (address + 1) rest
    else
      (Text.fourDigits address ++ "  " ++ i.text ++ "\n") :: listingLines last (address + 1) rest

/-- The listing of a function. -/
def listing (f : Function) : String :=
  let title := if f.name = topLevel then "<top level>" else f.name
  let params :=
    if f.params.isEmpty then ""
    else "; Parameters (" ++ toString f.arity ++ "): " ++ Text.joined ", " f.params ++ "\n"
  let locals :=
    if f.locals.isEmpty then "" else "; Locals: " ++ Text.joined ", " f.locals ++ "\n"
  "; === " ++ title ++ " ===\n" ++ params ++ locals ++ "; Code:\n"
    ++ String.join (listingLines 0 0 f.code.toList)

end Function

end LineScript.Code
