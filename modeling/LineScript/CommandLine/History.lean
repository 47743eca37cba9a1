/-
# The history of sessions

The entries that were evaluated, in a file in the user's home, one on a line. A session begins with what
is in the file and writes it anew in the end.
-/

import LineScript.Text.Utf8

namespace LineScript.CommandLine

open LineScript.Text (Bytes)

/-- The entries of earlier sessions and of this one, the oldest first. -/
structure History where
  entries : List String := []
  deriving DecidableEq, Repr

namespace History

/-- The name of the file. -/
def fileName : String := ".luiggi_history"

/-- How many entries are kept. -/
def limit : Nat := 1000

/-- How many bytes a line of the file may have. -/
def maxLine : Nat := 4095

/-- The latest entries, as many as are kept. -/
def latest (entries : List String) : List String := entries.drop (entries.length - limit)

/-- Adds an entry, which becomes one line. An entry that repeats the last one is not added. -/
def add (h : History) (entry : String) : History :=
  let line := String.ofList (entry.toList.map fun c => if c = '\n' then ' ' else c)
  if h.entries.getLast? = some line then h else ⟨latest (h.entries ++ [line])⟩

/-- The lines at the front of a file, up to one that is too long or malformed. Every line takes a byte,
so fuel for the bytes is enough. -/
def linesFrom : Nat → Bytes → List String
  | 0, _ => []
  | fuel + 1, bytes =>
    if bytes.isEmpty then []
    else
      let line := bytes.takeWhile (· ≠ 10)
      if maxLine < line.length then []
      else
        let ended := line.length < bytes.length
        let content := if ended && line.getLast? = some 13 then line.dropLast else line
        match Text.decode? content with
        | none => []
        | some s => s :: linesFrom fuel (bytes.drop (line.length + 1))

/-- The history in a file. -/
def ofBytes (bytes : Bytes) : History := ⟨latest (linesFrom bytes.length bytes)⟩

/-- The file for a history. -/
def toBytes (h : History) : Bytes := Text.encode (String.join (h.entries.map (· ++ "\n")))

end History

end LineScript.CommandLine
