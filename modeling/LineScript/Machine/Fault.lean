/-
# Runtime errors

Why a run stopped: the cause, and the instruction it happened at. The causes that mean a limit, a
cancelled run or unsound code can be told apart from mistakes in a script.
-/

import LineScript.Code.Function
import LineScript.Machine.Value

namespace LineScript.Machine

/-- Why an instruction failed. -/
inductive Cause where
  | stepLimit
  | depthLimit
  | cancelled
  | underflow
  /-- A call found fewer values than it takes. -/
  | missingArguments (name : String)
  | wrongKind (action : String) (kind : Kind)
  | wrongKinds (action : String) (left right : Kind)
  | divisionByZero
  | indexNotNumber (kind : Kind)
  | indexNotInteger (written : String)
  | indexOutOfRange (index : Int) (length : Nat)
  | keyNotString (kind : Kind)
  | undefinedFunction (name : String)
  | nativeFailure (name detail : String)
  | unknownOpcode (label : String)
  deriving DecidableEq, Repr

/-- The classes that callers tell apart. -/
inductive Category where
  | stepLimit
  | depthLimit
  | underflow
  | cancelled
  | other
  deriving DecidableEq, Repr

namespace Cause

/-- The class of a cause. -/
def category : Cause → Category
  | stepLimit => .stepLimit
  | depthLimit => .depthLimit
  | cancelled => .cancelled
  | underflow | missingArguments _ => .underflow
  | _ => .other

/-- The wording of a cause. -/
def text : Cause → String
  | stepLimit => "step limit exceeded"
  | depthLimit => "call depth limit exceeded"
  | cancelled => "context canceled"
  | underflow => "stack underflow"
  | missingArguments name => "call " ++ name ++ ": stack underflow"
  | wrongKind action kind => "cannot " ++ action ++ " " ++ kind.label
  | wrongKinds action left right => "cannot " ++ action ++ " " ++ left.label ++ " and " ++ right.label
  | divisionByZero => "division by zero"
  | indexNotNumber kind => "index must be a number, not " ++ kind.label
  | indexNotInteger written => "index " ++ written ++ " is not an integer"
  | indexOutOfRange index length =>
    "index " ++ toString index ++ " out of range [0, " ++ toString length ++ ")"
  | keyNotString kind => "object key must be a string, not " ++ kind.label
  | undefinedFunction name => "function " ++ Text.quote name ++ " is not defined"
  | nativeFailure name detail => name ++ ": " ++ detail
  | unknownOpcode label => "unknown opcode " ++ label

end Cause

/-- A failed instruction: the function that was running, the address and the line. -/
structure RuntimeError where
  function : String
  address : Int
  line : Int
  cause : Cause
  deriving DecidableEq, Repr

/-- The wording of a runtime error; the line is left out when it is unknown. -/
def RuntimeError.message (e : RuntimeError) : String :=
  let name := if e.function = Code.topLevel then "<top level>" else e.function
  let site := " (in " ++ name ++ "@" ++ toString e.address ++ ")"
  if 0 < e.line then "line " ++ toString e.line ++ ": " ++ e.cause.text ++ site
  else e.cause.text ++ site

end LineScript.Machine
