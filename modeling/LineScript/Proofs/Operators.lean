/-
# The operators of the language

The precedence grammar has two families of operators. A binary operator stands
between two values; all of them associate to the left, and its level says how
tightly it binds. A unary operator stands before a value, and its level is the
lowest level of the operators that still belong to its operand.

The operator tables of the one-pass compiler describe the same operators by a
priority and a direction. This module says what each operator is, independently
of those tables, and proves that the tables agree.
-/

import Mathlib
import LineScript.Compile.Expression

namespace LineScript

open LineScript.Code LineScript.Compile

/-- The operators between two values. -/
inductive BinaryOp where
  | or
  | and
  | less
  | lessOrEqual
  | greater
  | greaterOrEqual
  | equal
  | notEqual
  | add
  | subtract
  | multiply
  | divide
  deriving DecidableEq, Repr

namespace BinaryOp

/-- How tightly an operator binds. -/
def level : BinaryOp → Nat
  | or => 0
  | and => 1
  | less | lessOrEqual | greater | greaterOrEqual | equal | notEqual => 3
  | add | subtract => 4
  | multiply | divide => 5

/-- The token of an operator. -/
def kind : BinaryOp → TokenKind
  | or => .or
  | and => .and
  | less => .less
  | lessOrEqual => .lessEqual
  | greater => .greater
  | greaterOrEqual => .greaterEqual
  | equal => .equal
  | notEqual => .notEqual
  | add => .plus
  | subtract => .minus
  | multiply => .star
  | divide => .slash

/-- The operator of a token. -/
def ofKind? : TokenKind → Option BinaryOp
  | .or => some or
  | .and => some and
  | .less => some less
  | .lessEqual => some lessOrEqual
  | .greater => some greater
  | .greaterEqual => some greaterOrEqual
  | .equal => some equal
  | .notEqual => some notEqual
  | .plus => some add
  | .minus => some subtract
  | .star => some multiply
  | .slash => some divide
  | _ => none

/-- The operation that combines the two values. -/
def opcode : BinaryOp → Opcode
  | or => .or
  | and => .and
  | less => .less
  | lessOrEqual => .lessOrEqual
  | greater => .greater
  | greaterOrEqual => .greaterOrEqual
  | equal => .equal
  | notEqual => .notEqual
  | add => .add
  | subtract => .subtract
  | multiply => .multiply
  | divide => .divide

/-- The jump past the right operand, for the operators that may leave it out. -/
def skip? : BinaryOp → Option Opcode
  | or => some .skipOr
  | and => some .skipAnd
  | _ => none

/-- The entry that the one-pass compiler keeps for an operator. -/
def operator (o : BinaryOp) : Operator := ⟨some o.opcode, o.level, false⟩

theorem ofKind?_kind (o : BinaryOp) : ofKind? o.kind = some o := by
  cases o <;> rfl

theorem kind_of_ofKind? {kind : TokenKind} {o : BinaryOp}
    (h : ofKind? kind = some o) : o.kind = kind := by
  cases kind <;> cases h <;> rfl

/-- The table of the one-pass compiler holds the binary operators. -/
theorem binary?_eq (kind : TokenKind) :
    binary? kind = (ofKind? kind).map operator := by
  cases kind <;> rfl

@[simp]
theorem effective_operator (o : BinaryOp) : o.operator.effective = o.level := rfl

end BinaryOp

/-- The operators before a value. -/
inductive UnaryOp where
  | plus
  | minus
  | not
  deriving DecidableEq, Repr

namespace UnaryOp

/-- The lowest level of the operators that belong to the operand. No binary
operator has level two, so the operand of `not` takes in every comparison and
everything tighter, and that of a sign takes in no binary operator at all. -/
def level : UnaryOp → Nat
  | plus | minus => 6
  | not => 2

/-- The token of an operator. -/
def kind : UnaryOp → TokenKind
  | plus => .plus
  | minus => .minus
  | not => .not

/-- The operator of a token. -/
def ofKind? : TokenKind → Option UnaryOp
  | .plus => some plus
  | .minus => some minus
  | .not => some not
  | _ => none

/-- The operation on the value; a plus has none. -/
def opcode? : UnaryOp → Option Opcode
  | plus => none
  | minus => some .negate
  | not => some .not

/-- The entry that the one-pass compiler keeps for an operator. -/
def operator (o : UnaryOp) : Operator := ⟨o.opcode?, o.level, true⟩

theorem ofKind?_kind (o : UnaryOp) : ofKind? o.kind = some o := by
  cases o <;> rfl

theorem kind_of_ofKind? {kind : TokenKind} {o : UnaryOp}
    (h : ofKind? kind = some o) : o.kind = kind := by
  cases kind <;> cases h <;> rfl

/-- The table of the one-pass compiler holds the unary operators. -/
theorem unary?_eq (kind : TokenKind) :
    unary? kind = (ofKind? kind).map operator := by
  cases kind <;> rfl

/-- A unary operator lets the operators of its own level join its operand. -/
theorem effective_operator (o : UnaryOp) : o.operator.effective + 1 = o.level := by
  cases o <;> rfl

end UnaryOp

end LineScript
