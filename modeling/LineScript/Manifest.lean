/-
# Manifests

The settings of a project, read from a file in its root directory. A directory inside the project
finds the manifest of the nearest directory above it. Settings that are left out have defaults; a key
that is no setting is a mistake, because it would be ignored in silence otherwise.
-/

import LineScript.Files
import LineScript.Json
import LineScript.Toml.Document

namespace LineScript

/-- The settings of a project. -/
structure Manifest where
  name : String := ""
  version : String := ""
  entry : String := ""
  output : String := ""
  cache : String := ""
  disasm : Bool := false
  maxSteps : Int := 0
  maxDepth : Int := 0
  verbosity : Int := 0
  logFile : String := ""
  /-- The directory of the project. -/
  directory : String := ""
  deriving DecidableEq, Repr

namespace Manifest

open LineScript.Toml (Key Members Node)

/-- The name of the file that holds the settings. -/
def fileName : String := "luiggi.toml"

/-- Why settings could not be loaded. -/
inductive Error where
  | unreadable (path : String) (cause : Files.Error)
  | malformed (path : String)
  | unknownKey (path : String) (key : Key)
  | negativeLimits (path : String)
  deriving DecidableEq, Repr

/-- The wording of a failure to load settings. -/
def Error.message : Error → String
  | unreadable path cause => "cannot read " ++ path ++ ": " ++ cause.message
  | malformed path => "parse error in " ++ path
  | unknownKey path key => path ++ ": unknown key " ++ Text.quote (Toml.keyText key)
  | negativeLimits path => path ++ ": run limits must not be negative"

/-! ## Settings -/

/-- Where a setting goes. -/
inductive Setting where
  | text (set : Manifest → String → Manifest)
  | integer (set : Manifest → Int → Manifest)
  | boolean (set : Manifest → Bool → Manifest)

/-- The settings by table and name. -/
def settings : List (String × List (String × Setting)) :=
  [("project",
     [("name", .text fun m s => { m with name := s }),
      ("version", .text fun m s => { m with version := s })]),
   ("source", [("entry", .text fun m s => { m with entry := s })]),
   ("build",
     [("output", .text fun m s => { m with output := s }),
      ("cache", .text fun m s => { m with cache := s }),
      ("disasm", .boolean fun m b => { m with disasm := b })]),
   ("run",
     [("max-steps", .integer fun m n => { m with maxSteps := n }),
      ("max-depth", .integer fun m n => { m with maxDepth := n })]),
   ("log",
     [("verbosity", .integer fun m n => { m with verbosity := n }),
      ("file", .text fun m s => { m with logFile := s })])]

/-- The entry for a name, case set aside. -/
def named? {α : Type} (name : String) (entries : List (String × α)) : Option α :=
  (entries.find? fun e => Json.sameKey e.1 name).map (·.2)

/-- Makes a setting. The value has to be of its type. -/
def Setting.make? (m : Manifest) : Setting → Node → Option Manifest
  | .text set, .string s => some (set m s)
  | .integer set, .integer n => some (set m n)
  | .boolean set, .boolean b => some (set m b)
  | _, _ => none

/-- Makes the settings of one table. -/
def takeMembers? (entries : List (String × Setting)) (m : Manifest) (ms : Members) : Option Manifest :=
  ms.foldlM
    (fun m (name, node) =>
      match named? name entries with
      | none => some m
      | some setting => setting.make? m node)
    m

/-- Makes all settings of a document. -/
def takeDocument? (root : Members) : Option Manifest :=
  root.foldlM
    (fun m (name, node) =>
      match named? name settings with
      | none => some m
      | some entries =>
        match node with
        | .table ms => takeMembers? entries m ms
        | _ => none)
    {}

/-- Whether a key names a table of settings or a setting. -/
def isKnown : Key → Bool
  | [table] => (named? table settings).isSome
  | [table, name] => ((named? table settings).bind (named? name)).isSome
  | _ => false

/-! ## Loading -/

/-- Fills in the settings that were left out. -/
def withDefaults (m : Manifest) : Manifest :=
  let name := if m.name = "" then Path.base m.directory else m.name
  { m with
    name := name
    entry := if m.entry = "" then "main.lg" else m.entry
    output := if m.output = "" then Path.join "build" (name ++ ".lgc") else m.output }

/-- The settings in a text. -/
def parse (path directory : String) (bytes : Text.Bytes) : Except Error Manifest :=
  match Toml.parse? bytes with
  | none => .error (.malformed path)
  | some document =>
    match takeDocument? document.root with
    | none => .error (.malformed path)
    | some m =>
      match document.keys.find? (!isKnown ·) with
      | some key => .error (.unknownKey path key)
      | none =>
        if m.maxSteps < 0 || m.maxDepth < 0 then .error (.negativeLimits path)
        else .ok (withDefaults { m with directory := directory })

/-- Loads the settings of a directory. -/
def load (fs : Files) (directory : String) : Except Error Manifest :=
  let path := Path.join directory fileName
  match fs.read "/" path with
  | .error cause => .error (.unreadable path cause)
  | .ok bytes => parse path (Path.clean directory) bytes

/-- Whether a directory, given by its segments, last first, has settings. -/
def isProject (fs : Files) (segments : List String) : Bool :=
  fs.exists? "/" (Path.join (Files.pathOf segments.reverse) fileName)

/-- The nearest project from the directory with the given segments, last first, outwards. -/
def nearest? (fs : Files) : List String → Option (List String)
  | [] => if isProject fs [] then some [] else none
  | name :: outer => if isProject fs (name :: outer) then some (name :: outer) else nearest? fs outer

/-- Loads the settings of a directory or of the nearest one above it that has any. -/
def find (fs : Files) (directory : String) : Except Error (Option Manifest) :=
  match nearest? fs (Path.segments directory).reverse with
  | none => .ok none
  | some segments => (load fs (Files.pathOf segments.reverse)).map some

/-! ## Paths -/

/-- A path as seen from the directory of the project. -/
def resolve (m : Manifest) (path : String) : String :=
  if Path.isAbsolute path then path else Path.join m.directory path

/-- The script that is run. -/
def entryPath (m : Manifest) : String := m.resolve m.entry

/-- Where the compiled program goes. -/
def outputPath (m : Manifest) : String := m.resolve m.output

/-- Where the cache is, or nothing when there is none. -/
def cachePath (m : Manifest) : String := if m.cache = "" then "" else m.resolve m.cache

/-- Where messages go, or nothing when they go nowhere. -/
def logPath (m : Manifest) : String := if m.logFile = "" then "" else m.resolve m.logFile

end Manifest

end LineScript
