/-
# The command line

What the command does with its flags, the files and the input: it runs a script or a compiled program,
writes compiled programs, or starts a session, the service or the editor support. The nearest manifest
says what the flags leave open.
-/

import LineScript.CommandLine.Flags
import LineScript.CommandLine.Prompt
import LineScript.Manifest
import LineScript.Service

namespace LineScript.CommandLine

open LineScript.Code
open LineScript.Text (Bytes)

/-- What a command is carried out with. -/
structure Settings where
  disasm : Bool := false
  output : String := ""
  compileOnly : Bool := false
  cachePath : String := ""
  trace : Bool := false
  limits : Machine.Limits := {}

/-- What there is to do. -/
inductive Task where
  | editor
  | service (port : Int)
  | prompt
  | script (path : String)
  deriving DecidableEq, Repr

/-- The settings from the flags and the manifest. -/
def settingsOf (f : Flags) (m? : Option Manifest) : Settings :=
  let s : Settings :=
    { disasm := f.disasm, output := f.output, compileOnly := f.compileOnly
      cachePath := f.cachePath, trace := f.trace }
  match m? with
  | none => s
  | some m =>
    { s with
      disasm := s.disasm || m.disasm
      cachePath := if s.cachePath = "" then m.cachePath else s.cachePath
      limits :=
        { steps := m.maxSteps, depth := if 0 < m.maxDepth then m.maxDepth else s.limits.depth } }

/-- What to do, and with which settings. A script that is not named is the entry of the project. -/
def prepare (f : Flags) (m? : Option Manifest) : Task × Settings :=
  let s := settingsOf f m?
  let named := f.arguments.head?.getD ""
  if f.editor then (.editor, s)
  else if f.serve then (.service f.port, s)
  else if f.interactive then (.prompt, s)
  else if named ≠ "" then (.script named, s)
  else
    match m? with
    | none => (.prompt, s)
    | some m =>
      let output := if s.output = "" && s.compileOnly then m.outputPath else s.output
      (.script m.entryPath, { s with output := output })

/-- What a command leaves behind. There is no exit code when the program breaks down. -/
structure Result where
  exit? : Option Nat := some 0
  transcript : Transcript := {}
  files : Files

/-- A command that failed. -/
def failure (files : Files) (message : String) (before : Transcript := {}) : Result :=
  { exit? := some 1, transcript := before ++ { err := errorLine message }, files := files }

/-! ## Caches in files -/

/-- Why a cache could not be opened. -/
inductive CacheError where
  | directory (cause : Files.Error)
  | unopenable
  | notDatabase
  /-- No journal can be kept beside the file. -/
  | noJournal
  deriving DecidableEq, Repr

/-- The wording of a cache that could not be opened. -/
def CacheError.message : CacheError → String
  | directory cause => "creating cache dir: " ++ cause.message
  | unopenable => "setting busy timeout: unable to open database file: out of memory (14)"
  | notDatabase => "creating table: file is not a database (26)"
  | noJournal => "creating table: unable to open database file (14)"

/-- The name of a cache that is in no file. -/
def memoryPath : String := ":memory:"

/-- The file that the path of a cache names. Settings may follow it after a question mark, and a zero
ends it. -/
def databasePath (path : String) : String :=
  match path.toList with
  | [] => ""
  | c :: rest => String.ofList ((c :: rest.takeWhile (· ≠ '?')).takeWhile (· ≠ '\x00'))

/-- What the name of a journal adds to the name of its file. -/
def journalSuffix : String := "-journal"

/-- An open cache, with the place of its file if it has one, and the files with its directory. -/
structure OpenCache where
  cache : Cache
  place? : Option (List String)
  files : Files

/-- Opens a cache. An empty file is a cache without programs, and a single byte counts as none. -/
def openCache (fs : Files) (cwd path : String) : Except CacheError OpenCache :=
  if path = memoryPath then .ok ⟨{}, none, fs⟩
  else
    match fs.makeDirectories cwd (Path.directory path) with
    | .error cause => .error (.directory cause)
    | .ok fs =>
      match fs.resolve cwd (databasePath path) with
      | .error _ => .error .unopenable
      | .ok place =>
        let fresh : Except CacheError OpenCache :=
          if Files.maxName < ((place.getLast?.getD "") ++ journalSuffix).utf8ByteSize then
            .error .noJournal
          else .ok ⟨{}, some place, fs⟩
        match fs.at? place with
        | some .directory => .error .unopenable
        | some (.database rows) => .ok ⟨{ rows := rows }, some place, fs⟩
        | some (.file (_ :: _ :: _)) => .error .notDatabase
        | some (.file _) | none => fresh

/-- The files with the cache as it is now. -/
def OpenCache.saved (o : OpenCache) : Files :=
  match o.place? with
  | none => o.files
  | some place => o.files.place place (.database o.cache.rows)

/-! ## Scripts -/

/-- How obtaining a program ended: with a program, an error, or a breakdown of the reader. -/
inductive Obtained where
  | program (p : Program)
  | error (message : String)
  | breakdown

/-- Compiles a script, as far as the cache does not know it. -/
def compileScript (fs : Files) (cwd path cachePath : String) (c : Compiler) : Obtained × Files :=
  let compiled (source : String) : Obtained :=
    match c.compileSource source with
    | .ok p => .program p
    | .error e => .error (path ++ ": " ++ e.message)
  match fs.read cwd path with
  | .error e => (.error e.message, fs)
  | .ok bytes =>
    let source := Text.decode bytes
    if cachePath = "" then (compiled source, fs)
    else
      match openCache fs cwd cachePath with
      | .error e => (.error e.message, fs)
      | .ok o =>
        match o.cache.get source c.signatures with
        | (.hit p, cache) => (.program p, { o with cache := cache }.saved)
        | (.breakdown, _) => (.breakdown, o.saved)
        | (_, cache) =>
          match compiled source with
          | .program p =>
            let cache := match cache.put source c.signatures (some p) with
              | .ok cache => cache
              | .error _ => cache
            (.program p, { o with cache := cache }.saved)
          | outcome => (outcome, { o with cache := cache }.saved)

/-- Loads a compiled program. It has to fit the standard host functions. -/
def loadCompiled (fs : Files) (cwd path : String) : Obtained :=
  match fs.read cwd path with
  | .error e => .error e.message
  | .ok bytes =>
    match Wire.decode bytes with
    | .error (.missing _) => .breakdown
    | .error r => .error (path ++ ": " ++ r.message)
    | .ok p =>
      match Registry.standard.arities with
      | .error e => .error e.message
      | .ok arities =>
        match p.invalid? arities with
        | some i => .error (path ++ ": " ++ i.message)
        | none => .program p

/-- Writes a compiled program. -/
def writeCompiled (fs : Files) (cwd path : String) (p : Program) : Except Files.Error Files := do
  let directory := Path.directory path
  let fs ← if directory = "." then .ok fs else fs.makeDirectories cwd directory
  fs.write cwd path (Wire.encode p)

/-- Runs a program and tells how it went. -/
def execute (fs : Files) (m : Machine) (p : Program) (before : Transcript) : Result :=
  let r := m.run p
  let shown := before ++ ⟨r.output, r.trace⟩
  match r.outcome with
  | .value _ => { transcript := shown, files := fs }
  | .failed e => failure fs e.message shown
  | .noTopLevel => failure fs Machine.noTopLevelMessage shown
  | .breakdown _ | .unfinished => { exit? := none, transcript := shown, files := fs }

/-- The suffix of compiled programs. -/
def compiledSuffix : String := ".lgc"

/-- Carries out the task of running a script or a compiled program. -/
def runScript (fs : Files) (cwd path : String) (s : Settings) (host : Host) : Result :=
  let (obtained, fs) :=
    if Path.extension path = compiledSuffix then (loadCompiled fs cwd path, fs)
    else compileScript fs cwd path s.cachePath host.compiler
  match obtained with
  | .error message => failure fs message
  | .breakdown => { exit? := none, files := fs }
  | .program p =>
    let shown : Transcript := { out := if s.disasm then p.listing else "" }
    let written := if s.output = "" then .ok fs else writeCompiled fs cwd s.output p
    match written with
    | .error e => failure fs e.message shown
    | .ok fs =>
      if s.compileOnly then { transcript := shown, files := fs }
      else execute fs host.machine p shown

/-! ## The service -/

/-- Whether a number can be a port. -/
def isPort (port : Int) : Bool := 0 ≤ port && port ≤ 65535

/-- What is shown when the service starts. -/
def serviceBanner (port : Int) : String :=
  let address := ":" ++ toString port
  "Luiggi compiler service listening on " ++ address ++ "\n"
    ++ "  Connect (HTTP/JSON): http://" ++ address ++ Service.Procedure.compile.path ++ "\n"

/-- Why the service cannot be reached. -/
def serviceObstacle (port : Int) : String :=
  "listen tcp: address " ++ toString port ++ ": " ++ (if isPort port then "unavailable" else "invalid port")

/-- Starts the service. Nothing here can be listened on, so it ends at once. -/
def runService (fs : Files) (cwd : String) (port : Int) (s : Settings) : Result :=
  let opened := if s.cachePath = "" then .ok fs else (openCache fs cwd s.cachePath).map OpenCache.saved
  match opened with
  | .error e => failure fs e.message
  | .ok fs =>
    { exit? := some 1
      transcript := ⟨serviceBanner port, "Server error: " ++ serviceObstacle port ++ "\n"⟩
      files := fs }

/-! ## The command -/

/-- Where the history of sessions is. -/
def historyPath (home : String) : String := Path.join home History.fileName

/-- The history of earlier sessions. A file that cannot be read is as good as none. -/
def historyIn (fs : Files) (home : String) : History :=
  match fs.read "/" (historyPath home) with
  | .ok bytes => .ofBytes bytes
  | .error _ => {}

/-- The files with the history, unless it cannot be written. -/
def withHistory (fs : Files) (home : String) (h : History) : Files :=
  match fs.write "/" (historyPath home) h.toBytes with
  | .ok fs => fs
  | .error _ => fs

/-- Holds a session with the lines of the input. -/
def runPrompt (fs : Files) (home : String) (input : Bytes) (s : Settings) : Result :=
  let start : Transcript := { out := Prompt.banner }
  match Session.new .standard s.limits s.trace with
  | .error e => failure fs e.message start
  | .ok session =>
    let p : Prompt := { session := session, history := historyIn fs home }
    let (transcript, p) := p.feedAll start (inputLines input)
    { transcript := transcript, files := withHistory fs home p.history }

/-- Carries out a task in a directory, for a user whose files are in `home`. -/
def carryOut (fs : Files) (cwd home : String) (input : Bytes) (task : Task) (s : Settings) : Result :=
  match task with
  | .editor => { files := fs }
  | .service port => runService fs cwd port s
  | .prompt => runPrompt fs home input s
  | .script path =>
    match Registry.standard.host s.limits s.trace with
    | .error e => failure fs e.message
    | .ok host => runScript fs cwd path s host

/-- The files with the file that messages go to, which is made when it is missing. -/
def withLog (fs : Files) (m? : Option Manifest) : Files :=
  let path := (m?.map (·.logPath)).getD ""
  if path = "" || fs.exists? "/" path then fs
  else
    match fs.write "/" path [] with
    | .ok fs => fs
    | .error _ => fs

/-- Carries out a command in a directory, for a user whose files are in `home`. -/
def run (fs : Files) (cwd home : String) (arguments : List String) (input : Bytes) : Result :=
  match Flags.read arguments with
  | .error .help => { transcript := { err := usage }, files := fs }
  | .error e => { exit? := some 2, transcript := { err := e.message ++ "\n" ++ usage }, files := fs }
  | .ok flags =>
    match Manifest.find fs cwd with
    | .error e => failure fs e.message
    | .ok m? =>
      let (task, s) := prepare flags m?
      carryOut (withLog fs m?) cwd home input task s

end LineScript.CommandLine
