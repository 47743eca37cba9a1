/-
# Trees as tokens

A tree is written down with every statement on lines of its own and parentheses only
where an operator would otherwise bind to something else. Whether they are needed
depends on two levels: operators below the first one are not read where the expression
stands, and operators below the second one may come right behind it.

Not every tree can be written down. A list literal has to begin an expression, so it
can stand neither behind an operator nor inside parentheses; and an expression that
stands for itself must not begin like an assignment.
-/

import LineScript.Proofs.Tree

namespace LineScript.Token

open LineScript.Code

/-! ## Tokens -/

/-- The token of a symbol or a reserved word. -/
def ofKind (kind : TokenKind) (line : Int) : Token :=
  { kind := kind, text := kind.label, line := line }

/-- The token of a name. -/
def ofName (name : String) (line : Int) : Token :=
  { kind := .identifier, text := name, line := line }

/-- The token of a constant. -/
def ofLiteral (value : Literal) (line : Int) : Token :=
  { kind :=
      match value.kind with
      | .number => .number
      | .string => .string
      | .boolean => .boolean
      | _ => .null
    value := value
    text := value.source
    line := line }

/-- The token of a line break. -/
def ofBreak (line : Int) : Token := { kind := .lineBreak, text := "\n", line := line }

end LineScript.Token

namespace LineScript.Tree

open LineScript.Code

/-! ## Expressions -/

/-- A level above all operators. -/
def tightest : Nat := 7

/-- Tokens, in parentheses unless they can stand bare. -/
def enclosed (bare : Bool) (line : Int) (tokens : List Token) : List Token :=
  if bare then tokens else .ofKind .leftParen line :: tokens ++ [.ofKind .rightParen line]

/-- Whether an expression needs no parentheses between the given levels. -/
def Expr.bare (least follow : Nat) : Expr → Bool
  | .unary o _ => follow ≤ o.level
  | .binary o _ _ => least ≤ o.level
  | _ => true

/-- The comma before further expressions in a row. -/
def Exprs.comma (line : Int) : Exprs → List Token
  | .nil => []
  | .cons _ _ => [.ofKind .comma line]

/-- The comma before further members. -/
def Members.comma (line : Int) : Members → List Token
  | .nil => []
  | .cons _ _ _ => [.ofKind .comma line]

mutual

/-- The tokens of an expression between the given levels. -/
def Expr.tokens (line : Int) : Expr → Nat → Nat → List Token
  | .null, _, _ => [.ofKind .null line]
  | .literal value, _, _ => [.ofLiteral value line]
  | .name text, _, _ => [.ofName text line]
  | .call function arguments, _, _ =>
    .ofName function line :: .ofKind .leftParen line :: arguments.tokens line
      ++ [.ofKind .rightParen line]
  | .list items, _, _ =>
    .ofKind .leftBracket line :: items.tokens line ++ [.ofKind .rightBracket line]
  | .object members, _, _ =>
    .ofKind .leftBrace line :: members.tokens line ++ [.ofKind .rightBrace line]
  | .index container position, _, _ =>
    container.tokens line tightest tightest ++ .ofKind .leftBracket line :: position.tokens line 0 0
      ++ [.ofKind .rightBracket line]
  | .member object name, _, _ =>
    object.tokens line tightest tightest ++ [.ofKind .dot line, .ofName name line]
  | .unary o operand, _, follow =>
    enclosed (follow ≤ o.level) line (.ofKind o.kind line :: operand.tokens line o.level o.level)
  | .binary o left right, least, _ =>
    enclosed (least ≤ o.level) line
      (left.tokens line o.level (o.level + 1)
        ++ .ofKind o.kind line :: right.tokens line (o.level + 1) (o.level + 1))

/-- The tokens of expressions in a row. -/
def Exprs.tokens (line : Int) : Exprs → List Token
  | .nil => []
  | .cons first rest => first.tokens line 0 0 ++ rest.comma line ++ rest.tokens line

/-- The tokens of the members of an object. -/
def Members.tokens (line : Int) : Members → List Token
  | .nil => []
  | .cons name value rest =>
    .ofName name line :: .ofKind .equal line :: value.tokens line 0 0 ++ rest.comma line
      ++ rest.tokens line

end

mutual

/-- Whether an expression can be written down, at the beginning of an expression or
behind it, where operators of at least the given level are read. -/
def Expr.Expressible : Expr → Bool → Nat → Prop
  | .null, _, _ | .name _, _, _ => True
  | .literal value, _, _ =>
    value.kind = .number ∨ value.kind = .string ∨ value.kind = .boolean
  | .call _ arguments, _, _ => arguments.Expressible
  | .list items, first, _ => first = true ∧ items.Expressible
  | .object members, _, _ => members.Expressible
  | .index container position, first, _ =>
    container.Expressible first tightest ∧ position.Expressible true 0
  | .member object _, first, _ => object.Expressible first tightest
  | .unary o operand, _, _ => operand.Expressible false o.level
  | .binary o left right, first, least =>
    left.Expressible (first && least ≤ o.level) o.level ∧ right.Expressible false (o.level + 1)

/-- Whether expressions in a row can be written down. -/
def Exprs.Expressible : Exprs → Prop
  | .nil => True
  | .cons first rest => first.Expressible true 0 ∧ rest.Expressible

/-- Whether the members of an object can be written down. -/
def Members.Expressible : Members → Prop
  | .nil => True
  | .cons _ value rest => value.Expressible true 0 ∧ rest.Expressible

end

/-! ## Statements -/

/-- Whether tokens begin with a name and the beginning of an assignment to it, its
elements or its members. -/
def beginsAssignment : List Token → Bool
  | t :: u :: _ =>
    t.kind = .identifier && (u.kind = .equal || u.kind = .leftBracket || u.kind = .dot)
  | _ => false

/-- The tokens of a simple statement, on one line. -/
def Simple.tokens (line : Int) : Simple → List Token
  | .assign name value =>
    .ofName name line :: .ofKind .equal line :: value.tokens line 0 0 ++ [.ofBreak line]
  | .assignElement name position value =>
    .ofName name line :: .ofKind .leftBracket line :: position.tokens line 0 0
      ++ .ofKind .rightBracket line :: .ofKind .equal line :: value.tokens line 0 0
      ++ [.ofBreak line]
  | .assignMember name member value =>
    .ofName name line :: .ofKind .dot line :: .ofName member line :: .ofKind .equal line
      :: value.tokens line 0 0 ++ [.ofBreak line]
  | .discard value => value.tokens line 0 0 ++ [.ofBreak line]
  | .giveBack none => [.ofKind .return_ line, .ofBreak line]
  | .giveBack (some value) =>
    .ofKind .return_ line :: value.tokens line 0 0 ++ [.ofBreak line]

/-- Whether a simple statement can be written down. -/
def Simple.Expressible : Simple → Prop
  | .assign _ value | .assignMember _ _ value | .giveBack (some value) => value.Expressible true 0
  | .assignElement _ position value => position.Expressible true 0 ∧ value.Expressible true 0
  | .discard value =>
    value.Expressible true 0 ∧ ∀ line, beginsAssignment (value.tokens line 0 0) = false
  | .giveBack none => True

mutual

/-- How many lines a statement takes. -/
def Stmt.lines : Stmt → Nat
  | .simple _ | .when _ _ => 1
  | .choose _ body arms => body.lines + arms.lines + 2
  | .loop _ body | .function _ _ body => body.lines + 2

/-- How many lines statements in a row take. -/
def Block.lines : Block → Nat
  | .nil => 0
  | .cons first rest => first.lines + rest.lines

/-- How many lines the further arms of a conditional take. -/
def Arms.lines : Arms → Nat
  | .done => 0
  | .otherwise body => body.lines + 1
  | .elif _ body arms => body.lines + arms.lines + 1

end

/-- The tokens of parameters. -/
def parameterTokens (line : Int) : List String → List Token
  | [] => []
  | [name] => [.ofName name line]
  | name :: rest => .ofName name line :: .ofKind .comma line :: parameterTokens line rest

mutual

/-- The tokens of a statement that begins on the given line. -/
def Stmt.tokens : Stmt → Int → List Token
  | .simple x, line => x.tokens line
  | .when condition x, line =>
    .ofKind .if_ line :: condition.tokens line 0 0 ++ .ofKind .then_ line :: x.tokens line
  | .choose condition body arms, line =>
    let last := line + 1 + body.lines + arms.lines
    .ofKind .if_ line :: condition.tokens line 0 0 ++ .ofBreak line :: body.tokens (line + 1)
      ++ arms.tokens (line + 1 + body.lines) ++ [.ofKind .end_ last, .ofBreak last]
  | .loop condition body, line =>
    let last := line + 1 + body.lines
    .ofKind .while_ line :: condition.tokens line 0 0 ++ .ofBreak line :: body.tokens (line + 1)
      ++ [.ofKind .end_ last, .ofBreak last]
  | .function name params body, line =>
    let last := line + 1 + body.lines
    .ofKind .func line :: .ofName name line :: .ofKind .leftParen line :: parameterTokens line params
      ++ .ofKind .rightParen line :: .ofBreak line :: body.tokens (line + 1)
      ++ [.ofKind .end_ last, .ofBreak last]

/-- The tokens of statements in a row. -/
def Block.tokens : Block → Int → List Token
  | .nil, _ => []
  | .cons first rest, line => first.tokens line ++ rest.tokens (line + first.lines)

/-- The tokens of the further arms of a conditional, without the final `end`. -/
def Arms.tokens : Arms → Int → List Token
  | .done, _ => []
  | .otherwise body, line => .ofKind .else_ line :: .ofBreak line :: body.tokens (line + 1)
  | .elif condition body arms, line =>
    .ofKind .elif line :: condition.tokens line 0 0 ++ .ofBreak line :: body.tokens (line + 1)
      ++ arms.tokens (line + 1 + body.lines)

end

mutual

/-- Whether a statement can be written down. -/
def Stmt.Expressible : Stmt → Prop
  | .simple x => x.Expressible
  | .when condition x => condition.Expressible true 0 ∧ x.Expressible
  | .choose condition body arms =>
    condition.Expressible true 0 ∧ body.Expressible ∧ arms.Expressible
  | .loop condition body => condition.Expressible true 0 ∧ body.Expressible
  | .function _ _ body => body.Expressible

/-- Whether statements in a row can be written down. -/
def Block.Expressible : Block → Prop
  | .nil => True
  | .cons first rest => first.Expressible ∧ rest.Expressible

/-- Whether the further arms of a conditional can be written down. -/
def Arms.Expressible : Arms → Prop
  | .done => True
  | .otherwise body => body.Expressible
  | .elif condition body arms =>
    condition.Expressible true 0 ∧ body.Expressible ∧ arms.Expressible

end

end LineScript.Tree
