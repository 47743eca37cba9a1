/-
# A compilation in progress

What one compilation holds between two steps: the tokens still to be read, the function that
receives instructions, the top level set aside while another function is compiled, and the callable
names. Every operation takes such a draft and gives a new one, so an abandoned compilation leaves
nothing behind.
-/

import LineScript.Code.Program
import LineScript.Compile.Error

namespace LineScript.Compile

open LineScript.Code

/-- The state of one compilation. -/
structure Draft where
  /-- The tokens not yet consumed. -/
  rest : List Token
  /-- The line of the token consumed last. -/
  consumed? : Option Int := none
  /-- The line of the final token, where the input ends. -/
  lastLine : Int
  /-- The function that receives instructions. -/
  body : Function
  /-- The top level, while another function is compiled. -/
  outer? : Option Function := none
  /-- The functions declared so far, the top level excepted. -/
  functions : Dict Function
  /-- The host functions with their parameters. -/
  natives : Dict (List String)

/-- The result of a step of the compilation. -/
abbrev Result := Except CompileError Draft

namespace Draft

/-! ## Tokens -/

/-- The next token, or the end of the input past the last one. -/
def peek (d : Draft) : Token := d.rest.headD (.ending d.lastLine)

/-- The token after the next one. -/
def peekSecond (d : Draft) : Token := d.rest.tail.headD (.ending d.lastLine)

/-- Whether the input has ended. -/
def atEnd (d : Draft) : Bool := d.peek.kind = .endOfInput

/-- Consumes the next token. -/
def next (d : Draft) : Draft :=
  match d.rest with
  | [] => d
  | t :: rest => { d with rest := rest, consumed? := some t.line }

/-- Whether the next token has the given kind. -/
def sees (d : Draft) (kind : TokenKind) : Bool := d.peek.kind = kind

/-- Consumes a token of the given kind, or fails. -/
def expect (d : Draft) (kind : TokenKind) : Result :=
  if d.sees kind then .ok d.next
  else .error (.at_ d.peek (.unexpected d.peek.kind kind))

/-- Consumes a token of the given kind and hands over its text, or fails. -/
def expectText (d : Draft) (kind : TokenKind) : Except CompileError (String × Draft) :=
  (d.expect kind).map fun after => (d.peek.text, after)

/-- Consumes the end of a statement: a line break or the end of the input. -/
def expectLineEnd (d : Draft) : Result :=
  if d.atEnd then .ok d else d.expect .lineBreak

/-- Consumes the line breaks at the front of the given tokens. -/
def skipLineBreaksFrom (d : Draft) : List Token → Option Int → Draft
  | t :: rest, consumed? =>
    if t.kind = .lineBreak then d.skipLineBreaksFrom rest (some t.line)
    else { d with rest := t :: rest, consumed? := consumed? }
  | [], consumed? => { d with rest := [], consumed? := consumed? }

/-- Consumes any run of line breaks. -/
def skipLineBreaks (d : Draft) : Draft := d.skipLineBreaksFrom d.rest d.consumed?

/-! ## Instructions -/

/-- The line that instructions emitted now belong to: that of the token consumed last. -/
def line (d : Draft) : Int := d.consumed?.getD d.peek.line

/-- Appends an instruction. -/
def emitInstruction (d : Draft) (i : Instruction) : Draft :=
  { d with body := d.body.emit { i with line := d.line } }

/-- Appends an operation without an operand. -/
def emit (d : Draft) (op : Opcode) : Draft := d.emitInstruction { op := op }

/-- Appends the push of a constant. -/
def emitValue (d : Draft) (literal : Literal) : Draft :=
  d.emitInstruction { op := .value, literal := literal }

/-- Appends an operation on a name. -/
def emitName (d : Draft) (op : Opcode) (name : String) : Draft :=
  d.emitInstruction { op := op, name := name }

/-- Appends a placeholder for a jump; its address is where the code ended before. -/
def emitJump (d : Draft) (op : Opcode) : Draft :=
  { d with body := d.body.emitJump op d.line }

/-- Appends a jump to a known address. -/
def emitJumpTo (d : Draft) (op : Opcode) (target : Nat) : Draft :=
  { d with body := d.body.emitJumpTo op target d.line }

/-- The address of the next instruction. -/
def address (d : Draft) : Nat := d.body.length

/-- Resolves a placeholder to the end of the code. -/
def patchHere (d : Draft) (address : Nat) : Result :=
  match d.body.patchHere address with
  | .ok body => .ok { d with body := body }
  | .error e => .error { cause := .patch e, line := d.line }

/-- Resolves several placeholders to the end of the code. -/
def patchAllHere (d : Draft) : List Nat → Result
  | [] => .ok d
  | address :: rest =>
    match d.patchHere address with
    | .ok d => d.patchAllHere rest
    | .error e => .error e

/-- Fails when the current function still holds placeholders. -/
def checkResolved (d : Draft) : Result :=
  match d.body.unresolved with
  | [] => .ok d
  | addresses => .error { cause := .unresolvedJumps d.body.name addresses, line := d.line }

/-! ## Names -/

/-- Whether a variable is visible: declared by the current function or by the top level. -/
def sees? (d : Draft) (name : String) : Bool :=
  d.body.declares name || d.outer?.any (·.declares name)

/-- The number of arguments that a callable name takes, functions of the script first. -/
def arity? (d : Draft) (name : String) : Option Nat :=
  match d.functions.get? name with
  | some f => some f.arity
  | none => (d.natives.get? name).map List.length

/-- Declares a variable in the current function. -/
def declare (d : Draft) (name : String) : Draft := { d with body := d.body.declare name }

/-- Begins a function: it receives instructions from now on, and it can be called at once. A function
under the reserved name takes the place of the top level. -/
def enter (d : Draft) (name : String) (params : List String) : Draft :=
  let f := Function.new name params
  if name = topLevel then { d with body := f }
  else { d with body := f, outer? := some d.body, functions := d.functions.insert name f }

/-- Ends a function and goes back to the top level. -/
def leave (d : Draft) : Draft :=
  match d.outer? with
  | none => d
  | some top =>
    { d with body := top, outer? := none, functions := d.functions.insert d.body.name d.body }

/-- The program of a finished draft. -/
def program (d : Draft) : Program := ⟨d.functions.insert topLevel d.body⟩

end Draft

end LineScript.Compile
