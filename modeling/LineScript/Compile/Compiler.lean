/-
# The compiler

A compiler knows the host functions a script may call and, in a session, the program entered so far.
Compiling is a function of that knowledge and the tokens: nothing a compilation does is seen by the
next one.
-/

import LineScript.Compile.Statement
import LineScript.Signature
import LineScript.Token.Lexer

namespace LineScript

open LineScript.Code

/-- What compilations are based on. -/
structure Compiler where
  /-- The host functions with their parameters. -/
  natives : Dict (List String) := ∅
  /-- An earlier program whose functions and top-level variables are visible. -/
  prelude? : Option Program := none

/-- Why a host function could not be imported. -/
inductive ImportError where
  | duplicate (name : String)
  | malformed (name : String) (cause : Signature.Malformed)
  deriving DecidableEq, Repr

namespace ImportError

/-- A duplicate is a compile error without a position. -/
def compileError? : ImportError → Option CompileError
  | duplicate name => some { cause := .duplicateFunction name, line := 0, token := name }
  | malformed _ _ => none

/-- The wording of a refused import. -/
def message : ImportError → String
  | duplicate name =>
    CompileError.message { cause := .duplicateFunction name, line := 0, token := name }
  | malformed name cause => "import native " ++ Text.quote name ++ ": " ++ cause.message

end ImportError

namespace Compiler

/-- Imports a host function by its signature. A name can be imported once. -/
def importNative (c : Compiler) (name signature : String) : Except ImportError Compiler :=
  if c.natives.contains name then .error (.duplicate name)
  else
    match Signature.parse signature with
    | .ok params => .ok { c with natives := c.natives.insert name params }
    | .error cause => .error (.malformed name cause)

/-- The canonical signatures of the imported host functions. -/
def signatures (c : Compiler) : Dict String :=
  Dict.ofList (c.natives.toList.map fun (name, params) => (name, Signature.render name params))

/-- The draft a compilation begins with: an empty top level that declares the variables of the
prelude, beside the functions of the prelude. -/
def draft (c : Compiler) (tokens : List Token) : Compile.Draft :=
  let earlier := (c.prelude?.map (·.functions)).getD ∅
  let visible := ((earlier.get? topLevel).map (·.scope.keys)).getD []
  { rest := tokens
    lastLine := ((tokens.getLast?).map (·.line)).getD 1
    body := visible.foldl Function.declare (.new topLevel [])
    functions := earlier.erase topLevel
    natives := c.natives }

/-- Compiles tokens. -/
def compile (c : Compiler) (tokens : List Token) : Except CompileError Program := do
  let d ← Compile.block (c.draft tokens)
  let d ← d.checkResolved
  .ok d.program

/-- Compiles a script. -/
def compileSource (c : Compiler) (source : String) : Except CompileError Program := do
  let tokens ← Token.scan source
  c.compile tokens

end Compiler

end LineScript
