/-
# The cache of compiled programs

Programs are stored by a digest of what they were compiled from: the format version, the script and
the signatures of the host functions. What comes out of the cache is checked like anything that comes
from outside, so a stored program that cannot be read, or that does not fit the host functions, is
dropped and counts as a miss.
-/

import LineScript.Code.Program
import LineScript.Digest.Blake2b
import LineScript.Registry
import LineScript.Wire.Stored

namespace LineScript

open LineScript.Code
open LineScript.Text (Bytes)

/-- A stored program with the format version it was stored under. -/
structure Cache.Row where
  version : Int
  data : Bytes

/-- A cache: what is stored, and how lookups went since it was opened. -/
structure Cache where
  rows : Dict Cache.Row := ∅
  hits : Nat := 0
  misses : Nat := 0
  isOpen : Bool := true

namespace Cache

/-- What was being done when the cache turned out to be closed. -/
inductive Activity where
  | querying
  | saving
  | counting
  | planting
  deriving DecidableEq, Repr

/-- Why an operation on the cache failed. -/
inductive Failure where
  | closed (activity : Activity)
  /-- There was no program to store. -/
  | noProgram
  deriving DecidableEq, Repr

/-- The wording of a failure. -/
def Failure.message : Failure → String
  | .closed .querying => "querying program: sql: database is closed"
  | .closed .saving => "saving program: sql: database is closed"
  | .closed .counting => "counting programs: sql: database is closed"
  | .closed .planting => "sql: database is closed"
  | .noProgram => "encoding program: bytecode: marshal nil program"

/-- How a lookup ended. -/
inductive Lookup where
  | hit (p : Program)
  | miss
  | failed (cause : Failure)
  /-- The stored program made its reader break down. -/
  | breakdown

/-- The wording of a miss. -/
def missMessage : String := "cache: miss"

/-- What a host function adds to the key material. -/
def nativeMaterial (name signature : String) : Bytes :=
  Text.encode name ++ [0] ++ Text.encode signature ++ Text.encode "\n"

/-- What the key is the digest of: the format version, the script, and the host functions in the
order of their names. -/
def material (source : Bytes) (natives : Dict String) : Bytes :=
  Text.encode ("luiggi/" ++ toString Wire.formatVersion) ++ [0] ++ source ++ [0]
    ++ natives.toList.flatMap fun (name, signature) => nativeMaterial name signature

/-- The key of a script compiled with the given host functions. -/
def key (source : String) (natives : Dict String) : String :=
  Text.toHex (Digest.blake2b (material (Text.encode source) natives))

/-- Reads a row as a program that may be run with the given host functions. The outer answer is
missing when the reader breaks down, the inner one when the row is of no use. -/
def Row.program? (row : Row) (natives : Dict String) : Option (Option Program) :=
  if row.version ≠ Wire.formatVersion then some none
  else
    match Wire.decode row.data with
    | .error (.missing _) => none
    | .error _ => some none
    | .ok p =>
      match Registry.aritiesOf natives.toList with
      | .error _ => some none
      | .ok arities =>
        if (p.invalid? (Dict.ofList arities)).isNone then some (some p) else some none

/-- Looks up the program of a script. A row that is of no use is dropped. -/
def get (c : Cache) (source : String) (natives : Dict String) : Lookup × Cache :=
  if !c.isOpen then (.failed (.closed .querying), c)
  else
    let key := key source natives
    match c.rows.get? key with
    | none => (.miss, { c with misses := c.misses + 1 })
    | some row =>
      match row.program? natives with
      | none => (.breakdown, c)
      | some none => (.miss, { c with rows := c.rows.erase key, misses := c.misses + 1 })
      | some (some p) => (.hit p, { c with hits := c.hits + 1 })

/-- Stores a row under the key of a script, in place of an earlier one. -/
def plant (c : Cache) (source : String) (natives : Dict String) (row : Row)
    (activity : Activity := .planting) : Except Failure Cache :=
  if !c.isOpen then .error (.closed activity)
  else .ok { c with rows := c.rows.insert (key source natives) row }

/-- Stores the program of a script, if there is one. -/
def put (c : Cache) (source : String) (natives : Dict String) (p? : Option Program) :
    Except Failure Cache :=
  match p? with
  | none => .error .noProgram
  | some p => c.plant source natives ⟨Wire.formatVersion, Wire.encode p⟩ .saving

/-- The number of stored programs. -/
def entries (c : Cache) : Except Failure Nat :=
  if c.isOpen then .ok c.rows.size else .error (.closed .counting)

/-- Closes the cache. -/
def close (c : Cache) : Cache := { c with isOpen := false }

/-- Opens the cache again. The counts start anew, and only a cache in a file keeps its programs. -/
def reopen (c : Cache) (inFile : Bool) : Cache := { rows := if inFile then c.rows else ∅ }

end Cache

end LineScript
