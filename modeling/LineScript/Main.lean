/-
# The program

Carries out a command with the files of the disk. The files that a command can touch are read first,
the command is carried out on them, and what it changed is written back; a session reads its lines one
by one instead, so that it can answer each of them at once.
-/

import LineScript.CommandLine

namespace LineScript.Main

open LineScript.CommandLine
open LineScript.Text (Bytes)

/-- What is on the disk at a path. -/
def nodeOnDisk (path : String) : IO (Option Files.Node) := do
  try
    let content ← IO.FS.readBinFile path
    return some (.file content.toList)
  catch
    | .inappropriateType .. => return some .directory
    | _ => return none

/-- The files with what is on the disk at a path. -/
def withDisk (fs : Files) (path : String) : IO Files := do
  match ← nodeOnDisk path with
  | some (.file content) => return fs.withFile path content
  | some _ => return fs.withDirectory path
  | none => return fs

/-- The places where a manifest is looked for, from a directory with the given segments, last first,
outwards. -/
def manifestPaths : List String → List String
  | [] => [Path.join "/" Manifest.fileName]
  | name :: outer =>
    Path.join (Files.pathOf (name :: outer).reverse) Manifest.fileName :: manifestPaths outer

/-- The paths that a command can touch, apart from manifests. -/
def touched (f : Flags) (m? : Option Manifest) : List String :=
  let (task, s) := prepare f m?
  let script := match task with
    | .script path => [path]
    | _ => []
  (script ++ [s.output]).filter (· ≠ "")

/-- The files that a command can touch. -/
def filesFor (cwd : String) (f : Flags) : IO Files := do
  let mut fs := ({} : Files).withDirectory cwd
  for path in manifestPaths (Path.segments cwd).reverse do
    fs ← withDisk fs path
  let m? := match Manifest.find fs cwd with
    | .ok m? => m?
    | .error _ => none
  for path in touched f m? do
    let path := Path.absolute cwd path
    fs ← withDisk fs (Path.directory path)
    fs ← withDisk fs path
  return fs

/-- Writes the files that differ from those before. -/
def writeBack (before after : Files) : IO Unit := do
  for (path, node) in after.nodes.toList do
    match node, before.nodes.get? path with
    | .directory, none => IO.FS.createDirAll path
    | .file content, some (.file old) =>
      if content ≠ old then IO.FS.writeBinFile path ⟨content.toArray⟩
    | .file content, _ => IO.FS.writeBinFile path ⟨content.toArray⟩
    | _, _ => pure ()

/-- Writes a transcript. -/
def put (t : Transcript) : IO Unit := do
  IO.print t.out
  (← IO.getStdout).flush
  IO.eprint t.err

/-- Reads lines and answers them until the session ends; the prompt in the end. -/
partial def converse (p : Prompt) : IO Prompt := do
  put { out := p.mark }
  let line ← (← IO.getStdin).getLine
  if line.isEmpty then
    put { out := "\n" }
    return p
  else
    let bytes := (Text.encode line).takeWhile (· ≠ 10)
    let (next, transcript, quit) := p.feed (Text.decode (endedLine bytes))
    put transcript
    if quit then return next else converse next

/-- Holds a session at the terminal. -/
def holdSession (home : String) (s : Settings) : IO UInt32 := do
  put { out := Prompt.banner }
  match Session.new .standard s.limits s.trace with
  | .error e =>
    put { err := errorLine e.message }
    return 1
  | .ok session =>
    let before ← withDisk (({} : Files).withDirectory home) (historyPath home)
    let p ← converse { session := session, history := historyIn before home }
    writeBack before (withHistory before home p.history)
    return 0

/-- Carries out a command. -/
def command (arguments : List String) : IO UInt32 := do
  let cwd := (← IO.currentDir).toString
  let home := (← IO.getEnv "HOME").getD ""
  match Flags.read arguments with
  | .error _ =>
    let r := CommandLine.run {} cwd home arguments []
    put r.transcript
    return UInt32.ofNat (r.exit?.getD 2)
  | .ok flags =>
    let fs ← filesFor cwd flags
    match Manifest.find fs cwd with
    | .error e =>
      put { err := errorLine e.message }
      return 1
    | .ok m? =>
      match prepare flags m? with
      | (.prompt, s) => holdSession home s
      | (task, s) =>
        let r := carryOut fs cwd home [] task s
        put r.transcript
        writeBack fs r.files
        return UInt32.ofNat (r.exit?.getD 2)

end LineScript.Main

/-- Carries out the command that the arguments give. -/
def main (arguments : List String) : IO UInt32 := LineScript.Main.command arguments
