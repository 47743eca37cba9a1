/-
# Syntax trees and their code

The compiler builds no syntax tree. This module has the trees it could have built,
and the code of a tree: instructions without lines, with every jump target worked
out from the sizes of the parts instead of being patched in later. What the
compiler does to a source is then said in two steps: the source reads as a tree, and
the code is that of the tree.

A tree forgets parentheses, commas and line breaks. All other words of a source
stand in its tree in the same order, which is what ties a tree to the source it was
read from.
-/

import LineScript.Proofs.Operators

namespace LineScript.Tree

open LineScript.Code

/-! ## Expressions -/

mutual

/-- An expression. -/
inductive Expr where
  | null
  | literal (value : Literal)
  | name (text : String)
  | call (function : String) (arguments : Exprs)
  | list (items : Exprs)
  | object (members : Members)
  | index (container position : Expr)
  | member (object : Expr) (name : String)
  | unary (o : UnaryOp) (operand : Expr)
  | binary (o : BinaryOp) (left right : Expr)

/-- Expressions in a row. -/
inductive Exprs where
  | nil
  | cons (first : Expr) (rest : Exprs)

/-- The members of an object literal. -/
inductive Members where
  | nil
  | cons (name : String) (value : Expr) (rest : Members)

end

/-- How many expressions there are in a row. -/
def Exprs.count : Exprs → Nat
  | .nil => 0
  | .cons _ rest => rest.count + 1

/-! ## Statements -/

/-- A statement without statements inside. -/
inductive Simple where
  | assign (name : String) (value : Expr)
  | assignElement (name : String) (position value : Expr)
  | assignMember (name member : String) (value : Expr)
  | discard (value : Expr)
  | giveBack (value? : Option Expr)

mutual

/-- A statement. -/
inductive Stmt where
  | simple (s : Simple)
  /-- One statement under a condition, on a line. -/
  | when (condition : Expr) (s : Simple)
  | choose (condition : Expr) (body : Block) (arms : Arms)
  | loop (condition : Expr) (body : Block)
  | function (name : String) (params : List String) (body : Block)

/-- Statements in a row. -/
inductive Block where
  | nil
  | cons (first : Stmt) (rest : Block)

/-- What follows the first arm of a conditional. -/
inductive Arms where
  | done
  | otherwise (body : Block)
  | elif (condition : Expr) (body : Block) (arms : Arms)

end

/-! ## Instructions without lines -/

/-- An operation without an operand. -/
def plain (op : Opcode) : Instruction := { op := op }

/-- An operation on a name. -/
def named (op : Opcode) (name : String) : Instruction := { op := op, name := name }

/-- The push of a constant. -/
def constant (l : Literal) : Instruction := { op := .value, literal := l }

/-- A jump. -/
def jumpTo (op : Opcode) (target : Int) : Instruction := { op := op, target := target }

/-- The jump past the right operand of an operator that may leave it out. -/
def skipCode (o : BinaryOp) (target : Int) : List Instruction :=
  match o.skip? with
  | some skip => [jumpTo skip target]
  | none => []

/-- How many instructions stand between the operands of an operator. -/
def skipSize (o : BinaryOp) : Nat := (skipCode o 0).length

/-- The instruction of a unary operator, if it has one. -/
def unaryCode (o : UnaryOp) : List Instruction := o.opcode?.toList.map plain

@[simp]
theorem length_skipCode (o : BinaryOp) (target : Int) : (skipCode o target).length = skipSize o := by
  cases o <;> rfl

/-! ## Code of expressions -/

mutual

/-- How many instructions an expression has. -/
def Expr.size : Expr → Nat
  | .null | .literal _ | .name _ => 1
  | .call _ arguments => arguments.size + 1
  | .list items => items.size + items.count + 1
  | .object members => members.size + 1
  | .index container position => container.size + position.size + 1
  | .member object _ => object.size + 1
  | .unary o operand => operand.size + (unaryCode o).length
  | .binary o left right => left.size + skipSize o + right.size + 1

/-- How many instructions expressions in a row have. -/
def Exprs.size : Exprs → Nat
  | .nil => 0
  | .cons first rest => first.size + rest.size

/-- How many instructions the members of an object have. -/
def Members.size : Members → Nat
  | .nil => 0
  | .cons _ value rest => value.size + 1 + rest.size

end

mutual

/-- The code of an expression at an address. It leaves the value of the expression
on the stack. -/
def Expr.code : Expr → Nat → List Instruction
  | .null, _ => [constant .null]
  | .literal value, _ => [constant value]
  | .name text, _ => [named .load text]
  | .call function arguments, a => arguments.code a ++ [named .call function]
  | .list items, a => plain .list :: items.appendCode (a + 1)
  | .object members, a => plain .object :: members.code (a + 1)
  | .index container position, a =>
    container.code a ++ position.code (a + container.size) ++ [plain .index]
  | .member object name, a => object.code a ++ [named .get name]
  | .unary o operand, a => operand.code a ++ unaryCode o
  | .binary o left right, a =>
    let middle := a + left.size + skipSize o
    left.code a ++ skipCode o (middle + right.size + 1 : Nat) ++ right.code middle
      ++ [plain o.opcode]

/-- The code of arguments: each leaves its value on the stack. -/
def Exprs.code : Exprs → Nat → List Instruction
  | .nil, _ => []
  | .cons first rest, a => first.code a ++ rest.code (a + first.size)

/-- The code of list elements: each is appended to the list below it. -/
def Exprs.appendCode : Exprs → Nat → List Instruction
  | .nil, _ => []
  | .cons first rest, a =>
    first.code a ++ plain .append :: rest.appendCode (a + first.size + 1)

/-- The code of the members of an object: each is set in the object below it. -/
def Members.code : Members → Nat → List Instruction
  | .nil, _ => []
  | .cons name value rest, a =>
    value.code a ++ named .set name :: rest.code (a + value.size + 1)

end

mutual

@[simp]
theorem Expr.length_code : ∀ (e : Expr) (a : Nat), (e.code a).length = e.size
  | .null, _ | .literal _, _ | .name _, _ => rfl
  | .call _ arguments, a => by simp [Expr.code, Expr.size, arguments.length_code]
  | .list items, a => by simp [Expr.code, Expr.size, items.length_appendCode]
  | .object members, a => by simp [Expr.code, Expr.size, members.length_code]
  | .index container position, a => by
      simp [Expr.code, Expr.size, container.length_code, position.length_code]
      omega
  | .member object _, a => by simp [Expr.code, Expr.size, object.length_code]
  | .unary o operand, a => by simp [Expr.code, Expr.size, operand.length_code]
  | .binary o left right, a => by
      simp [Expr.code, Expr.size, left.length_code, right.length_code]
      omega

@[simp]
theorem Exprs.length_code : ∀ (es : Exprs) (a : Nat), (es.code a).length = es.size
  | .nil, _ => rfl
  | .cons first rest, a => by
      simp [Exprs.code, Exprs.size, first.length_code, rest.length_code]

@[simp]
theorem Exprs.length_appendCode : ∀ (es : Exprs) (a : Nat),
    (es.appendCode a).length = es.size + es.count
  | .nil, _ => rfl
  | .cons first rest, a => by
      simp [Exprs.appendCode, Exprs.size, Exprs.count, first.length_code, rest.length_appendCode]
      omega

@[simp]
theorem Members.length_code : ∀ (ms : Members) (a : Nat), (ms.code a).length = ms.size
  | .nil, _ => rfl
  | .cons name value rest, a => by
      simp [Members.code, Members.size, value.length_code, rest.length_code]
      omega

end

/-! ## Code of statements -/

/-- The code of a simple statement at an address. It leaves the stack as it was. -/
def Simple.code : Simple → Nat → List Instruction
  | .assign name value, a => value.code a ++ [named .store name]
  | .assignElement name position value, a =>
    named .load name :: position.code (a + 1) ++ value.code (a + 1 + position.size) ++ [plain .put]
  | .assignMember name member value, a =>
    named .load name :: value.code (a + 1) ++ [named .set member, plain .pop]
  | .discard value, a => value.code a ++ [plain .pop]
  | .giveBack none, _ => [constant .null, plain .ret]
  | .giveBack (some value), a => value.code a ++ [plain .ret]

/-- How many instructions a simple statement has. -/
def Simple.size (s : Simple) : Nat := (s.code 0).length

@[simp]
theorem Simple.length_code (s : Simple) (a : Nat) : (s.code a).length = s.size := by
  unfold Simple.size
  cases s with
  | giveBack value? => cases value? <;> simp [Simple.code]
  | _ => simp [Simple.code]

mutual

/-- How many instructions a statement has in the function it stands in. -/
def Stmt.size : Stmt → Nat
  | .simple s => s.size
  | .when condition s => condition.size + 1 + s.size
  | .choose condition body arms => condition.size + 1 + body.size + 1 + arms.size
  | .loop condition body => condition.size + 1 + body.size + 1
  | .function _ _ _ => 0

/-- How many instructions statements in a row have. -/
def Block.size : Block → Nat
  | .nil => 0
  | .cons first rest => first.size + rest.size

/-- How many instructions the further arms of a conditional have. -/
def Arms.size : Arms → Nat
  | .done => 0
  | .otherwise body => body.size
  | .elif condition body arms => condition.size + 1 + body.size + 1 + arms.size

end

mutual

/-- The code of a statement at an address. A function leaves no code where it is
defined. -/
def Stmt.code : Stmt → Nat → List Instruction
  | .simple s, a => s.code a
  | .when condition s, a =>
    let inner := a + condition.size + 1
    condition.code a ++ jumpTo .branch (inner + s.size : Nat) :: s.code inner
  | .choose condition body arms, a =>
    let inner := a + condition.size + 1
    let next := inner + body.size + 1
    condition.code a ++ jumpTo .branch next :: body.code inner
      ++ jumpTo .jump (next + arms.size : Nat) :: arms.code next (next + arms.size : Nat)
  | .loop condition body, a =>
    let inner := a + condition.size + 1
    condition.code a ++ jumpTo .branch (inner + body.size + 1 : Nat) :: body.code inner
      ++ [jumpTo .jump a]
  | .function _ _ _, _ => []

/-- The code of statements in a row. -/
def Block.code : Block → Nat → List Instruction
  | .nil, _ => []
  | .cons first rest, a => first.code a ++ rest.code (a + first.size)

/-- The code of the further arms of a conditional that ends at the given address. -/
def Arms.code : Arms → Nat → Int → List Instruction
  | .done, _, _ => []
  | .otherwise body, a, _ => body.code a
  | .elif condition body arms, a, ending =>
    let inner := a + condition.size + 1
    let next := inner + body.size + 1
    condition.code a ++ jumpTo .branch next :: body.code inner
      ++ jumpTo .jump ending :: arms.code next ending

end

mutual

@[simp]
theorem Stmt.length_code : ∀ (s : Stmt) (a : Nat), (s.code a).length = s.size
  | .simple s, a => by simp [Stmt.code, Stmt.size]
  | .when condition s, a => by simp [Stmt.code, Stmt.size]; omega
  | .choose condition body arms, a => by
      simp [Stmt.code, Stmt.size, body.length_code, arms.length_code]
      omega
  | .loop condition body, a => by
      simp [Stmt.code, Stmt.size, body.length_code]
      omega
  | .function _ _ _, _ => rfl

@[simp]
theorem Block.length_code : ∀ (b : Block) (a : Nat), (b.code a).length = b.size
  | .nil, _ => rfl
  | .cons first rest, a => by
      simp [Block.code, Block.size, first.length_code, rest.length_code]

@[simp]
theorem Arms.length_code : ∀ (arms : Arms) (a : Nat) (ending : Int),
    (arms.code a ending).length = arms.size
  | .done, _, _ => rfl
  | .otherwise body, a, _ => by simp [Arms.code, Arms.size, body.length_code]
  | .elif condition body arms, a, ending => by
      simp [Arms.code, Arms.size, body.length_code, arms.length_code]
      omega

end

/-- The code of a function whose statements are given: it returns null when they do
not return. -/
def functionCode (body : Block) : List Instruction :=
  body.code 0 ++ [constant .null, plain .ret]

/-! ## Targets -/

/-- Code without placeholders. -/
def Resolved (code : List Instruction) : Prop := ∀ i ∈ code, i.isResolved = true

theorem Resolved.append {code code' : List Instruction} (h : Resolved code)
    (h' : Resolved code') : Resolved (code ++ code') := by
  intro i hi
  exact (List.mem_append.mp hi).elim (h i) (h' i)

theorem Resolved.cons {i : Instruction} {code : List Instruction} (hi : i.isResolved = true)
    (h : Resolved code) : Resolved (i :: code) :=
  List.forall_mem_cons.mpr ⟨hi, h⟩

theorem resolved_nil : Resolved [] := fun _ h => nomatch h

theorem isResolved_jumpTo (op : Opcode) (target : Nat) :
    (jumpTo op target).isResolved = true := by
  have hne : ((target : Nat) : Int) ≠ unresolvedTarget := by
    unfold unresolvedTarget
    omega
  simp [Instruction.isResolved, jumpTo, hne]

theorem resolved_skipCode (o : BinaryOp) (target : Nat) : Resolved (skipCode o target) := by
  unfold skipCode
  split
  · exact .cons (isResolved_jumpTo _ _) resolved_nil
  · exact resolved_nil

theorem resolved_unaryCode (o : UnaryOp) : Resolved (unaryCode o) := by
  cases o <;> simp [unaryCode, UnaryOp.opcode?, Resolved, plain, Instruction.isResolved,
    Opcode.isJump, Opcode.operand]

theorem isResolved_plain_opcode (o : BinaryOp) : (plain o.opcode).isResolved = true := by
  cases o <;> rfl

mutual

theorem Expr.resolved_code : ∀ (e : Expr) (a : Nat), Resolved (e.code a)
  | .null, _ | .literal _, _ | .name _, _ => .cons rfl resolved_nil
  | .call _ arguments, a => (arguments.resolved_code a).append (.cons rfl resolved_nil)
  | .list items, a => .cons rfl (items.resolved_appendCode (a + 1))
  | .object members, a => .cons rfl (members.resolved_code (a + 1))
  | .index container position, a =>
    ((container.resolved_code a).append (position.resolved_code _)).append (.cons rfl resolved_nil)
  | .member object _, a => (object.resolved_code a).append (.cons rfl resolved_nil)
  | .unary o operand, a => (operand.resolved_code a).append (resolved_unaryCode o)
  | .binary o left right, a =>
    (((left.resolved_code a).append (resolved_skipCode o _)).append (right.resolved_code _)).append
      (.cons (isResolved_plain_opcode o) resolved_nil)

theorem Exprs.resolved_code : ∀ (es : Exprs) (a : Nat), Resolved (es.code a)
  | .nil, _ => resolved_nil
  | .cons first rest, a => (first.resolved_code a).append (rest.resolved_code _)

theorem Exprs.resolved_appendCode : ∀ (es : Exprs) (a : Nat), Resolved (es.appendCode a)
  | .nil, _ => resolved_nil
  | .cons first rest, a =>
    (first.resolved_code a).append (.cons rfl (rest.resolved_appendCode _))

theorem Members.resolved_code : ∀ (ms : Members) (a : Nat), Resolved (ms.code a)
  | .nil, _ => resolved_nil
  | .cons _ value rest, a => (value.resolved_code a).append (.cons rfl (rest.resolved_code _))

end

theorem Simple.resolved_code : ∀ (s : Simple) (a : Nat), Resolved (s.code a)
  | .assign _ value, a => (value.resolved_code a).append (.cons rfl resolved_nil)
  | .assignElement _ position value, _ =>
    .append (.append (.cons rfl (position.resolved_code _)) (value.resolved_code _))
      (.cons rfl resolved_nil)
  | .assignMember _ _ value, _ =>
    .append (.cons rfl (value.resolved_code _)) (.cons rfl (.cons rfl resolved_nil))
  | .discard value, a => (value.resolved_code a).append (.cons rfl resolved_nil)
  | .giveBack none, _ => .cons rfl (.cons rfl resolved_nil)
  | .giveBack (some value), a => (value.resolved_code a).append (.cons rfl resolved_nil)

mutual

theorem Stmt.resolved_code : ∀ (s : Stmt) (a : Nat), Resolved (s.code a)
  | .simple s, a => s.resolved_code a
  | .when condition s, a =>
    (condition.resolved_code a).append (.cons (isResolved_jumpTo _ _) (s.resolved_code _))
  | .choose condition body arms, a =>
    .append ((condition.resolved_code a).append
        (.cons (isResolved_jumpTo _ _) (body.resolved_code _)))
      (.cons (isResolved_jumpTo _ _) (arms.resolved_code _ _))
  | .loop condition body, a =>
    .append ((condition.resolved_code a).append
        (.cons (isResolved_jumpTo _ _) (body.resolved_code _)))
      (.cons (isResolved_jumpTo _ _) resolved_nil)
  | .function _ _ _, _ => resolved_nil

theorem Block.resolved_code : ∀ (b : Block) (a : Nat), Resolved (b.code a)
  | .nil, _ => resolved_nil
  | .cons first rest, a => (first.resolved_code a).append (rest.resolved_code _)

theorem Arms.resolved_code : ∀ (arms : Arms) (a ending : Nat), Resolved (arms.code a ending)
  | .done, _, _ => resolved_nil
  | .otherwise body, a, _ => body.resolved_code a
  | .elif condition body arms, a, ending =>
    .append ((condition.resolved_code a).append
        (.cons (isResolved_jumpTo _ _) (body.resolved_code _)))
      (.cons (isResolved_jumpTo _ _) (arms.resolved_code _ ending))

end

theorem resolved_functionCode (body : Block) : Resolved (functionCode body) :=
  (body.resolved_code 0).append (.cons rfl (.cons rfl resolved_nil))

/-! ## Words -/

/-- A word of a source: a name, a constant, or a symbol. -/
inductive Word where
  | name (text : String)
  | literal (value : Literal)
  | symbol (kind : TokenKind)

/-- The word of a token. Parentheses, commas and line breaks are no words. -/
def Word.ofToken? (t : Token) : Option Word :=
  match t.kind with
  | .identifier => some (.name t.text)
  | .number | .string | .boolean => some (.literal t.value)
  | .lineBreak | .leftParen | .rightParen | .comma => none
  | kind => some (.symbol kind)

/-- The words of tokens. -/
def Word.ofTokens (tokens : List Token) : List Word := tokens.filterMap Word.ofToken?

mutual

/-- The words of an expression. -/
def Expr.words : Expr → List Word
  | .null => [.symbol .null]
  | .literal value => [.literal value]
  | .name text => [.name text]
  | .call function arguments => .name function :: arguments.words
  | .list items => .symbol .leftBracket :: items.words ++ [.symbol .rightBracket]
  | .object members => .symbol .leftBrace :: members.words ++ [.symbol .rightBrace]
  | .index container position =>
    container.words ++ .symbol .leftBracket :: position.words ++ [.symbol .rightBracket]
  | .member object name => object.words ++ [.symbol .dot, .name name]
  | .unary o operand => .symbol o.kind :: operand.words
  | .binary o left right => left.words ++ .symbol o.kind :: right.words

/-- The words of expressions in a row. -/
def Exprs.words : Exprs → List Word
  | .nil => []
  | .cons first rest => first.words ++ rest.words

/-- The words of the members of an object. -/
def Members.words : Members → List Word
  | .nil => []
  | .cons name value rest => .name name :: .symbol .equal :: value.words ++ rest.words

end

/-- The words of a simple statement. -/
def Simple.words : Simple → List Word
  | .assign name value => .name name :: .symbol .equal :: value.words
  | .assignElement name position value =>
    .name name :: .symbol .leftBracket :: position.words
      ++ .symbol .rightBracket :: .symbol .equal :: value.words
  | .assignMember name member value =>
    .name name :: .symbol .dot :: .name member :: .symbol .equal :: value.words
  | .discard value => value.words
  | .giveBack none => [.symbol .return_]
  | .giveBack (some value) => .symbol .return_ :: value.words

theorem Expr.words_ne_nil (e : Expr) : e.words ≠ [] := by
  cases e <;> simp [Expr.words]

theorem Simple.words_ne_nil (s : Simple) : s.words ≠ [] := by
  cases s with
  | discard value => exact value.words_ne_nil
  | giveBack value? => cases value? <;> simp [Simple.words]
  | _ => simp [Simple.words]

mutual

/-- The words of a statement. -/
def Stmt.words : Stmt → List Word
  | .simple s => s.words
  | .when condition s => .symbol .if_ :: condition.words ++ .symbol .then_ :: s.words
  | .choose condition body arms =>
    .symbol .if_ :: condition.words ++ body.words ++ arms.words ++ [.symbol .end_]
  | .loop condition body => .symbol .while_ :: condition.words ++ body.words ++ [.symbol .end_]
  | .function name params body =>
    .symbol .func :: .name name :: params.map .name ++ body.words ++ [.symbol .end_]

/-- The words of statements in a row. -/
def Block.words : Block → List Word
  | .nil => []
  | .cons first rest => first.words ++ rest.words

/-- The words of the further arms of a conditional, without the final `end`. -/
def Arms.words : Arms → List Word
  | .done => []
  | .otherwise body => .symbol .else_ :: body.words
  | .elif condition body arms => .symbol .elif :: condition.words ++ body.words ++ arms.words

end

theorem Stmt.words_ne_nil (s : Stmt) : s.words ≠ [] := by
  cases s with
  | simple s => exact s.words_ne_nil
  | _ => simp [Stmt.words]

end LineScript.Tree
