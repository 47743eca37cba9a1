/-
# Signatures

A host function is declared by a signature such as `push(list, value)`. Only the parameter list
between the first opening and the last closing parenthesis counts; parameters are separated by commas
and trimmed, and have to be present and distinct.
-/

import LineScript.Dict
import LineScript.Text.Blank
import LineScript.Text.Hex

namespace LineScript

namespace Signature

/-- Why a text is no signature. -/
inductive Cause where
  | noParameterList
  | emptyParameter
  | duplicateParameter (name : String)
  deriving DecidableEq, Repr

/-- A refused signature. -/
structure Malformed where
  signature : String
  cause : Cause
  deriving DecidableEq, Repr

/-- The wording of a refused signature. -/
def Malformed.message (m : Malformed) : String :=
  let subject := "malformed signature " ++ Text.quote m.signature
  match m.cause with
  | .noParameterList => subject
  | .emptyParameter => subject ++ ": empty parameter"
  | .duplicateParameter name => subject ++ ": duplicate parameter " ++ Text.quote name

/-- The characters before the last closing parenthesis. -/
def beforeLastClose : List Char → Option (List Char)
  | [] => none
  | c :: rest =>
    match beforeLastClose rest with
    | some kept => some (c :: kept)
    | none => if c = ')' then some [] else none

/-- What stands between the first opening and the last closing parenthesis. A closing parenthesis
before the first opening one does not count. -/
def between? (cs : List Char) : Option (List Char) :=
  match cs.dropWhile (· ≠ '(') with
  | [] => none
  | _ :: inner => beforeLastClose inner

/-- Checks that the parameters are present and distinct, given those before them. -/
def distinct? : List String → List String → Except Cause (List String)
  | _, [] => .ok []
  | seen, name :: rest =>
    if name = "" then .error .emptyParameter
    else if seen.contains name then .error (.duplicateParameter name)
    else (distinct? (name :: seen) rest).map (name :: ·)

/-- The parameter names that a signature declares, in order. -/
def parse (signature : String) : Except Malformed (List String) :=
  match between? signature.toList with
  | none => .error ⟨signature, .noParameterList⟩
  | some inner =>
    match Text.trimChars inner with
    | [] => .ok []
    | trimmed =>
      let names := (Text.splitOnChar ',' trimmed).map fun piece => String.ofList (Text.trimChars piece)
      match distinct? [] names with
      | .ok names => .ok names
      | .error cause => .error ⟨signature, cause⟩

/-- The canonical signature of a name with parameters. -/
def render (name : String) (params : List String) : String :=
  name ++ "(" ++ Text.joined ", " params ++ ")"

end Signature

end LineScript
