/-
# Literals

The constant that an instruction may push. A literal has room for a number, a text and a truth
value, and its kind says which of them counts; stored programs may fill the others as well, and keep
them.
-/

import LineScript.Number.Written
import LineScript.Text.Quoted

namespace LineScript.Code

/-- Which field of a literal counts. A stored program may hold any byte here; the bytes past the last
kind mean the same as null. -/
inductive LiteralKind where
  | null
  | number
  | string
  | boolean
  /-- The byte that lies `offset` past the last kind. -/
  | unassigned (offset : Fin 252)
  deriving DecidableEq, Repr

namespace LiteralKind

/-- The kinds in numeric order. -/
def all : List LiteralKind := [null, number, string, boolean]

/-- The number of a kind. -/
def toNat : LiteralKind → Nat
  | null => 0
  | number => 1
  | string => 2
  | boolean => 3
  | unassigned offset => 4 + offset.val

/-- The byte that stands for a kind. -/
def toByte (kind : LiteralKind) : UInt8 :=
  UInt8.ofNat kind.toNat

/-- The kind that a byte stands for. -/
def ofByte (byte : UInt8) : LiteralKind :=
  match all[byte.toNat]? with
  | some kind => kind
  | none => unassigned ⟨byte.toNat - 4, by have := byte.toNat_lt; omega⟩

/-- The name of a kind. -/
def label : LiteralKind → String
  | null => "null"
  | number => "number"
  | string => "string"
  | boolean => "boolean"
  | kind@(unassigned _) => "LiteralKind(" ++ toString kind.toNat ++ ")"

end LiteralKind

/-- A constant carried by an instruction. -/
structure Literal where
  kind : LiteralKind := .null
  number : Float := 0
  string : String := ""
  boolean : Bool := false

namespace Literal

instance : Inhabited Literal := ⟨{}⟩

/-- The null literal. -/
def null : Literal := {}

/-- A number literal. -/
def ofNumber (x : Float) : Literal := { kind := .number, number := x }

/-- A text literal. -/
def ofString (s : String) : Literal := { kind := .string, string := s }

/-- A truth value literal. -/
def ofBool (b : Bool) : Literal := { kind := .boolean, boolean := b }

/-- The literal as it would appear in a script. -/
def source (l : Literal) : String :=
  match l.kind with
  | .number => Number.written l.number
  | .string => Text.quote l.string
  | .boolean => if l.boolean then "true" else "false"
  | _ => "null"

end Literal

end LineScript.Code
