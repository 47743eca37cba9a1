/-
# Test suites

Suites of scripts with what is expected of them, loaded from the YAML files below a directory and run
one case at a time, each on a host of its own.
-/

import LineScript.Files
import LineScript.Suite.Expectation
import LineScript.Yaml.Reader

namespace LineScript

/-- A script with what is expected of it. Texts are bytes, because they can be written as binary
data. -/
structure Suite.Case where
  name : Text.Bytes := []
  description : Text.Bytes := []
  /-- Why the case is skipped, if it is. -/
  skip? : Option Text.Bytes := none
  source : Text.Bytes := []
  /-- The step limit, or zero for the usual one. -/
  maxSteps : Int := 0
  expect : Suite.Expectation := {}

/-- Cases under a common name. -/
structure Suite where
  name : Text.Bytes := []
  description : Text.Bytes := []
  tests : List Suite.Case := []

namespace Suite

open LineScript.Yaml (Node Document Decode)
open LineScript.Text (Bytes)

/-! ## Reading -/

/-- The integer nearest to zero from a number, if the number is not past the integers. One that is too
far below zero, or just past the largest integer, is the least one. -/
def truncated? (x : Float) : Option Int :=
  let limit : Int := Number.twoTo 63
  let whole : Int := match Number.whole (if x < 0 then Number.floor (-x) else Number.floor x) with
    | .exactly n => if x < 0 then -n else n
    | _ => if x < 0 then -limit else limit + 1
  if !(x == x) || limit < whole then none
  else if whole = limit || whole < -limit then some (-limit)
  else some whole

/-- An integer; null leaves what was there. -/
def integer (current : Int) (n : Node) : Decode Int :=
  Decode.visit n fun n => do
    let found? : Option Int ← match n with
      | .scalar _ tag text =>
        match ← Decode.scalar tag text with
        | .null => pure (some current)
        | .integer n => pure (if n < Number.twoTo 63 then some n else none)
        | .float x => pure (truncated? x)
        | _ => pure none
      | _ => pure none
    match found? with
    | some n => return n
    | none =>
      Decode.problem n.line "cannot unmarshal into int"
      return current

/-- A text; null leaves what was there. -/
def text (current : Bytes) (n : Node) : Decode Bytes := do
  return (← Decode.text n).getD current

/-- Why a case is skipped: a text says why, and true says only that it is. -/
def skipReason? : Option Yaml.Value → Option Bytes
  | some (.boolean true) => some (Text.encode "skipped")
  | some (.text bytes) => some bytes
  | _ => none

/-- Takes a field of an expectation. -/
def Expectation.take? (e : Expectation) (name : String) (v : Node) : Option (Decode Expectation) :=
  match name with
  | "value" => some do
    Decode.count
    return { e with value? := some v }
  | "repr" => some do return { e with repr := ← text e.repr v }
  | "output" => some do return { e with output? := ← Decode.text v }
  | "error" => some do return { e with error := ← text e.error v }
  | "message" => some do return { e with message := ← text e.message v }
  | _ => none

/-- Takes a field of a case. -/
def Case.take? (fuel : Nat) (c : Case) (name : String) (v : Node) : Option (Decode Case) :=
  match name with
  | "name" => some do return { c with name := ← text c.name v }
  | "description" => some do return { c with description := ← text c.description v }
  | "skip" => some do return { c with skip? := skipReason? (← Decode.value fuel v) }
  | "source" => some do return { c with source := ← text c.source v }
  | "max_steps" => some do return { c with maxSteps := ← integer c.maxSteps v }
  | "expect" => some do
    return { c with expect := (← Decode.fields fuel Expectation.take? c.expect v).getD c.expect }
  | _ => none

/-- The cases in a list. Nothing at all in the place of a case is none. -/
def cases (fuel : Nat) (n : Node) : Decode (List Case) :=
  Decode.visit n fun n => match n with
    | .sequence _ _ items => items.filterMapM (Decode.fields fuel (Case.take? fuel) {})
    | .scalar line tag text => do
      match ← Decode.scalar tag text with
      | .null => return []
      | v =>
        Decode.problem line ("cannot unmarshal " ++ v.tag)
        return []
    | n => do
      Decode.problem n.line "cannot unmarshal !!map"
      return []

/-- Takes a field of a suite. -/
def take? (fuel : Nat) (s : Suite) (name : String) (v : Node) : Option (Decode Suite) :=
  match name with
  | "name" => some do return { s with name := ← text s.name v }
  | "description" => some do return { s with description := ← text s.description v }
  | "tests" => some do return { s with tests := ← cases fuel v }
  | _ => none

/-- The suite in a document. -/
def ofDocument? (d : Document) : Option Suite :=
  let act : Decode Suite := do
    Decode.count
    return (← Decode.fields d.fuel (take? d.fuel) {} d.root).getD {}
  (Decode.run act d).toOption

/-! ## Loading -/

/-- A case with the file it was loaded from and the suite it belongs to. -/
structure Loaded where
  file : String
  suite : Bytes
  case_ : Case
  /-- The document that the case is written in. -/
  document : Document

/-- Why suites could not be loaded. -/
inductive LoadError where
  | unreadable (cause : Files.Error)
  | malformed (path : String)
  | unnamedCase (path : String)
  deriving DecidableEq, Repr

/-- The wording of a failure to load suites. -/
def LoadError.message : LoadError → String
  | unreadable cause => cause.message
  | malformed path => path ++ ": malformed suite"
  | unnamedCase path => path ++ ": case without a name"

/-- The suffix of the files that hold suites. -/
def suffix : String := ".yaml"

/-- The cases in a file, `shown` being its name in results. -/
def loadFile (path shown : String) (bytes : Bytes) : Except LoadError (List Loaded) :=
  match (Text.decode? bytes).map Yaml.read with
  | some (.document d) =>
    match ofDocument? d with
    | none => .error (.malformed path)
    | some suite =>
      if suite.tests.any (·.name.isEmpty) then .error (.unnamedCase path)
      else .ok (suite.tests.map (⟨shown, suite.name, ·, d⟩))
  | _ => .error (.malformed path)

/-- Loads the files below a directory, `shown` being the path from where the search began. Directories
are entered where they stand in the order of the names. The depth of the tree bounds the recursion. -/
def loadBelow (fs : Files) : Nat → List String → List String → Except LoadError (List Loaded)
  | 0, _, _ => .ok []
  | depth + 1, place, shown => do
    let parts ← (fs.list place).mapM fun (name, node) =>
      let here := place ++ [name]
      let shown := shown ++ [name]
      match node with
      | .directory => loadBelow fs depth here shown
      | .file bytes =>
        if Path.extension name = suffix then
          loadFile (Files.pathOf here) (Text.joined "/" shown) bytes
        else .ok []
      | .database _ =>
        if Path.extension name = suffix then .error (.malformed (Files.pathOf here)) else .ok []
    .ok parts.flatten

/-- Loads all suites below a directory. -/
def load (fs : Files) (directory : String) : Except LoadError (List Loaded) :=
  match fs.resolve "/" directory with
  | .error obstacle => .error (.unreadable ⟨.opening, directory, obstacle⟩)
  | .ok place =>
    match fs.at? place with
    | none => .error (.unreadable ⟨.opening, directory, .noEntry⟩)
    | some .directory => loadBelow fs (fs.nodes.size + 1) place []
    | some (.file bytes) =>
      if Path.extension directory = suffix then loadFile directory "." bytes else .ok []
    | some (.database _) =>
      if Path.extension directory = suffix then .error (.malformed directory) else .ok []

/-! ## Running -/

/-- How a case went. -/
inductive Verdict where
  | passed
  | skipped (reason : Bytes)
  | failed (failure : Bytes)
  deriving DecidableEq, Repr

/-- The usual step limit of a case. -/
def defaultMaxSteps : Int := 1000000

/-- How a run ended, unless the host broke down. -/
def endingOf? (r : Machine.Report) : Option Ending :=
  match r.outcome with
  | .value v =>
    some { output := r.output, repr := r.machine.heap.repr v, data := r.machine.heap.data v }
  | .failed e => some { output := r.output, error? := some ("runtime", e.message) }
  | .noTopLevel => some { output := r.output, error? := some ("unknown", Machine.noTopLevelMessage) }
  | .breakdown _ | .unfinished => none

/-- Runs a case of a document. There is no verdict when the host breaks down. -/
def Case.run? (c : Case) (document : Document) (registry : Registry) : Option Verdict :=
  match c.skip? with
  | some reason => some (.skipped reason)
  | none =>
    let steps := if c.maxSteps = 0 then defaultMaxSteps else c.maxSteps
    match registry.host { steps := steps } with
    | .error e => some (.failed (Text.encode ("install natives: " ++ e.message)))
    | .ok host =>
      let ending? : Option Ending := match host.compiler.compileSource (Text.decode c.source) with
        | .error e => some { error? := some (e.kind.label, e.message) }
        | .ok p => endingOf? (host.machine.run p)
      ending?.map fun ending =>
        match c.expect.failure? document ending with
        | none => .passed
        | some failure => .failed failure

/-- A count of verdicts in words. -/
def summary (verdicts : List Verdict) : String :=
  let passed := (verdicts.filter (· = .passed)).length
  let skipped := (verdicts.filter fun | .skipped _ => true | _ => false).length
  toString passed ++ " passed, " ++ toString (verdicts.length - passed - skipped) ++ " failed, "
    ++ toString skipped ++ " skipped (" ++ toString verdicts.length ++ " total)"

end Suite

end LineScript
