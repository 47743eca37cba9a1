/-
# Operation codes

The vocabulary of the stack machine: thirty-one operations, each with a fixed name, a stack effect
and a kind of operand. A stored program may hold any byte, so the bytes without an operation are
part of the type too.
-/

import LineScript.Text.Hex

namespace LineScript.Code

/-- What the operand of an instruction holds. -/
inductive Operand where
  | none
  | literal
  | name
  | address
  deriving DecidableEq, Repr

namespace Operand

/-- The operand kinds in numeric order. -/
def all : List Operand := [none, literal, name, address]

/-- The name of an operand kind. -/
def label : Operand → String
  | none => "none"
  | literal => "literal"
  | name => "name"
  | address => "address"

end Operand

/-- An operation of the stack machine, or a byte without one. -/
inductive Opcode where
  | value
  | pop
  | load
  | store
  | put
  | get
  | set
  | index
  | list
  | append
  | object
  | call
  | branch
  | jump
  | skipAnd
  | skipOr
  | and
  | or
  | not
  | negate
  | add
  | subtract
  | multiply
  | divide
  | less
  | lessOrEqual
  | greater
  | greaterOrEqual
  | equal
  | notEqual
  | ret
  /-- The byte that lies `offset` past the last operation. -/
  | unassigned (offset : Fin 225)
  deriving DecidableEq, Repr

instance : Inhabited Opcode := ⟨.value⟩

namespace Opcode

/-- The operations in numeric order. -/
def all : List Opcode :=
  [value, pop, load, store, put, get, set, index, list, append, object, call, branch, jump,
   skipAnd, skipOr, and, or, not, negate, add, subtract, multiply, divide, less, lessOrEqual,
   greater, greaterOrEqual, equal, notEqual, ret]

/-- The number of an operation. -/
def number : Opcode → Nat
  | value => 0
  | pop => 1
  | load => 2
  | store => 3
  | put => 4
  | get => 5
  | set => 6
  | index => 7
  | list => 8
  | append => 9
  | object => 10
  | call => 11
  | branch => 12
  | jump => 13
  | skipAnd => 14
  | skipOr => 15
  | and => 16
  | or => 17
  | not => 18
  | negate => 19
  | add => 20
  | subtract => 21
  | multiply => 22
  | divide => 23
  | less => 24
  | lessOrEqual => 25
  | greater => 26
  | greaterOrEqual => 27
  | equal => 28
  | notEqual => 29
  | ret => 30
  | unassigned offset => 31 + offset.val

/-- The byte that stands for an operation. -/
def toByte (op : Opcode) : UInt8 :=
  UInt8.ofNat op.number

/-- The operation that a byte stands for. -/
def ofByte (byte : UInt8) : Opcode :=
  match all[byte.toNat]? with
  | some op => op
  | none => unassigned ⟨byte.toNat - 31, by have := byte.toNat_lt; omega⟩

/-- Whether the machine has an operation for the byte. -/
def isAssigned : Opcode → Bool
  | unassigned _ => false
  | _ => true

/-- The fixed name of an operation, under which programs are listed. -/
def label : Opcode → String
  | value => "value"
  | pop => "pop"
  | load => "load"
  | store => "store"
  | put => "put"
  | get => "get"
  | set => "set"
  | index => "index"
  | list => "list"
  | append => "append"
  | object => "object"
  | call => "call"
  | branch => "branch"
  | jump => "jump"
  | skipAnd => "skip_and"
  | skipOr => "skip_or"
  | and => "and"
  | or => "or"
  | not => "not"
  | negate => "negate"
  | add => "add"
  | subtract => "substract"
  | multiply => "multiply"
  | divide => "divide"
  | less => "less"
  | lessOrEqual => "less_or_equal"
  | greater => "greater"
  | greaterOrEqual => "greater_or_equal"
  | equal => "equal"
  | notEqual => "not_equal"
  | ret => "return"
  | op@(unassigned _) => "UNKNOWN(0x" ++ Text.upperHexByte op.toByte ++ ")"

/-- The operation with the given name. -/
def ofLabel? (name : String) : Option Opcode :=
  all.find? (fun op => op.label = name)

/-- The kind of operand an operation carries. -/
def operand : Opcode → Operand
  | value => .literal
  | load | store | get | set | call => .name
  | branch | jump | skipAnd | skipOr => .address
  | _ => .none

/-- Whether the operand of an operation is an instruction address. -/
def isJump (op : Opcode) : Bool :=
  op.operand = .address

/-- How many values an operation pops; nothing when that depends on the function called. -/
def pops : Opcode → Option Nat
  | call => Option.none
  | put => some 3
  | set | index | append | and | or | add | subtract | multiply | divide | less | lessOrEqual
  | greater | greaterOrEqual | equal | notEqual => some 2
  | pop | store | get | branch | not | negate | ret => some 1
  | _ => some 0

/-- How many values an operation pushes. -/
def pushes : Opcode → Nat
  | pop | store | put | branch | jump | skipAnd | skipOr | ret | unassigned _ => 0
  | _ => 1

end Opcode

end LineScript.Code
