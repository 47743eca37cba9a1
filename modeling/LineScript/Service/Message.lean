/-
# Messages of the compile service

What the service is asked and what it answers. Answers leave out what is empty, so that a reader sees
a field only when it says something.
-/

import LineScript.Compile.Error
import LineScript.Json
import LineScript.Machine.Fault
import LineScript.Registry
import LineScript.Text.Base64
import LineScript.Wire.Stored

namespace LineScript.Service

open LineScript.Code

/-- A problem with a script: where it is, as far as that is known, and what it is. -/
structure Diagnostic where
  /-- The line, counted from one, or zero when it is unknown. -/
  line : Int := 0
  kind? : Option ErrorKind := none
  message : String
  deriving DecidableEq, Repr

namespace Diagnostic

/-- A compile error as a diagnostic. -/
def ofCompileError (e : CompileError) : Diagnostic :=
  { line := e.line, kind? := some e.kind, message := e.detail }

/-- A runtime error as a diagnostic. -/
def ofRuntimeError (e : Machine.RuntimeError) : Diagnostic :=
  { line := e.line, message := e.message }

/-- A host that could not be set up as a diagnostic. -/
def ofInstallError (e : InstallError) : Diagnostic :=
  match e.compileError? with
  | some c => ofCompileError c
  | none => { message := e.message }

/-- The diagnostic in an answer. -/
def toJson (d : Diagnostic) : Json :=
  .object ([("severity", .string "error")]
    ++ (if d.line = 0 then [] else [("line", .ofInt d.line)])
    ++ (match d.kind? with | some kind => [("kind", .string kind.label)] | none => [])
    ++ [("message", .string d.message)])

end Diagnostic

/-- The members for a text, none when it is empty. -/
def textMember (key : String) (s : String) : List (String × Json) :=
  if s = "" then [] else [(key, .string s)]

/-- The members for a problem, if there is one. -/
def problemMember : Option Diagnostic → List (String × Json)
  | none => []
  | some d => [("diagnostics", .array [d.toJson])]

/-- The answer to a request to compile. -/
inductive Compiled where
  /-- The program, and whether it came from the cache. -/
  | success (p : Program) (cached : Bool)
  | failure (problem : Diagnostic)

/-- The answer as it is sent. -/
def Compiled.toJson : Compiled → Json
  | success p cached =>
    .object ([("success", .boolean true)]
      ++ textMember "disassembly" p.listing
      ++ textMember "program" (Text.toBase64 (Wire.encode p))
      ++ (if cached then [("cached", .boolean true)] else []))
  | failure problem => .object (("success", .boolean false) :: problemMember (some problem))

/-- The answer to a request to check: the problem, if there is one. -/
structure Checked where
  problem? : Option Diagnostic

/-- The answer as it is sent. -/
def Checked.toJson (c : Checked) : Json :=
  .object (("valid", .boolean c.problem?.isNone) :: problemMember c.problem?)

/-- The answer to a request to run. -/
structure Ran where
  /-- The result as it would be written in a script, if the run succeeded. -/
  result? : Option String := none
  output : String := ""
  steps : Nat := 0
  problem? : Option Diagnostic := none

/-- The answer to a run that failed before its first step. -/
def Ran.failed (problem : Diagnostic) : Ran := { problem? := some problem }

/-- The answer as it is sent. -/
def Ran.toJson (r : Ran) : Json :=
  .object ([("success", .boolean r.result?.isSome)]
    ++ textMember "result" (r.result?.getD "")
    ++ textMember "output" r.output
    ++ [("steps", .ofNat r.steps)]
    ++ problemMember r.problem?)

/-- Why a request is not answered. -/
inductive Refusal where
  | noSource
  | negativeSteps
  /-- The host functions could not be set up. -/
  | host (cause : InstallError)
  deriving DecidableEq, Repr

namespace Refusal

/-- The class of a refusal. -/
def code : Refusal → String
  | noSource | negativeSteps => "invalid_argument"
  | host _ => "internal"

/-- The wording of a refusal. -/
def message : Refusal → String
  | noSource => "source is required"
  | negativeSteps => "maxSteps must not be negative"
  | host cause => cause.message

/-- The status that a refused web request is answered with. -/
def status : Refusal → Nat
  | noSource | negativeSteps => 400
  | host _ => 500

/-- The refusal in an answer. -/
def toJson (r : Refusal) : Json :=
  .object [("error", .string r.code), ("message", .string r.message)]

end Refusal

/-- The fields of a request. -/
structure Request where
  source : String := ""
  maxSteps : Int := 0

/-- Takes a member into a request. A field that is null stays as it is; one of the wrong type makes
the request unreadable, and a member that names no field says nothing. -/
def Request.take? (withSteps : Bool) (r : Request) (key : String) (v : Json) : Option Request :=
  if Json.sameKey key "source" then
    match v with
    | .null => some r
    | .string s => some { r with source := s }
    | _ => none
  else if withSteps && Json.sameKey key "maxSteps" then
    match v with
    | .null => some r
    | .number text => (Json.whole? text).map fun n => { r with maxSteps := n }
    | _ => none
  else some r

/-- The request in the body of a web request. -/
def Request.read? (withSteps : Bool) (body : String) : Option Request :=
  match Json.parse? body with
  | some (.object members) =>
    members.foldlM (fun r (key, v) => r.take? withSteps key v) {}
  | some .null => some {}
  | _ => none

end LineScript.Service
