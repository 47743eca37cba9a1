/-
# The prompt

A session at the command line. Lines are gathered into an entry until it is complete or cannot become
so, then the entry is evaluated; an entry that begins with a colon is a command. Input comes in lines,
and a line too long for the buffer of the reader comes in pieces.
-/

import LineScript.CommandLine.History
import LineScript.Session
import LineScript.Text.Blank

namespace LineScript.CommandLine

open LineScript.Text (Bytes)

/-- What was written to the output and to the error output. -/
structure Transcript where
  out : String := ""
  err : String := ""
  deriving DecidableEq, Repr

/-- One transcript after another. -/
def Transcript.append (a b : Transcript) : Transcript := ⟨a.out ++ b.out, a.err ++ b.err⟩

instance : Append Transcript := ⟨Transcript.append⟩

/-- The wording of an error at the command line. -/
def errorLine (message : String) : String := "Error: " ++ message ++ "\n"

/-! ## Lines of input -/

/-- The number of bytes that fit in the buffer of the reader. -/
def bufferSize : Nat := 4096

/-- A line that a line feed ends, without a carriage return before it. -/
def endedLine (line : Bytes) : Bytes :=
  match line.reverse with
  | 13 :: before => before.reverse
  | _ => line

/-- A piece as long as the buffer. A carriage return at its end is left for the next piece, because it
may belong to the end of the line. -/
def fullPiece (line : Bytes) : Bytes := endedLine (line.take bufferSize)

/-- The lines of the input. The last one need not be ended. Every piece takes a byte, so fuel for one
more than the bytes is enough. -/
def pieces : Nat → Bytes → List Bytes
  | 0, _ => []
  | fuel + 1, bytes =>
    if bytes.isEmpty then []
    else
      let line := bytes.takeWhile (· ≠ 10)
      if bufferSize ≤ line.length then
        let piece := fullPiece line
        piece :: pieces fuel (bytes.drop piece.length)
      else if line.length = bytes.length then [line]
      else endedLine line :: pieces fuel (bytes.drop (line.length + 1))

/-- The lines of the input as texts. -/
def inputLines (bytes : Bytes) : List String := (pieces (bytes.length + 1) bytes).map Text.decode

/-! ## Entries -/

/-- A session, the lines of an entry that is not complete, and the entries that were evaluated. -/
structure Prompt where
  session : Session
  pending : String := ""
  history : History := {}

namespace Prompt

/-- What is shown first. -/
def banner : String := "Luiggi REPL (type :quit to exit, :help for commands)\n\n"

/-- What is shown before a line is read. -/
def mark (p : Prompt) : String := if p.pending = "" then ">> " else ".. "

/-- Whether an entry is a command. -/
def isCommand (entry : String) : Bool := (Text.trimChars entry.toList).head? == some ':'

/-- What an evaluated entry shows. -/
def shown (r : Machine.Report) : Transcript :=
  match r.outcome with
  | .value v =>
    ⟨r.output ++ (if v.kind = .null then "" else r.machine.heap.repr v ++ "\n"), r.trace⟩
  | .failed e => ⟨r.output, r.trace ++ errorLine e.message⟩
  | .noTopLevel => ⟨r.output, r.trace ++ errorLine Machine.noTopLevelMessage⟩
  | .breakdown detail => ⟨r.output, r.trace ++ errorLine detail⟩
  | .unfinished => ⟨r.output, r.trace⟩

/-- Takes a complete entry: the prompt after it, what it shows, and whether the session ends. -/
def enter (p : Prompt) (entry : String) : Prompt × Transcript × Bool :=
  let p := { p with pending := "" }
  let trimmed := Text.trim entry
  if trimmed = "" then (p, {}, false)
  else if isCommand entry then
    let answer := p.session.command trimmed
    (p, { out := answer.text }, answer.quit)
  else
    let p := { p with history := p.history.add entry }
    match p.session.eval entry with
    | .error e => (p, { err := errorLine e.message }, false)
    | .ok (r, s) => ({ p with session := s }, shown r, false)

/-- Takes a line: it completes the entry, or is kept for it. -/
def feed (p : Prompt) (line : String) : Prompt × Transcript × Bool :=
  let entry := if p.pending = "" then line else p.pending ++ "\n" ++ line
  if !isCommand entry && p.session.isIncomplete entry then ({ p with pending := entry }, {}, false)
  else p.enter entry

/-- Takes all lines, from the mark before the first one: what is shown, and the prompt in the end. At
the end of the input a line is ended. -/
def feedAll (p : Prompt) (done : Transcript) : List String → Transcript × Prompt
  | [] => (done ++ { out := p.mark ++ "\n" }, p)
  | line :: rest =>
    let (next, transcript, quit) := p.feed line
    let done := done ++ { out := p.mark } ++ transcript
    if quit then (done, next) else feedAll next done rest

end Prompt

end LineScript.CommandLine
