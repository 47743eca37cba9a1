/-
# Expressions

Expressions are compiled in one pass with a stack of pending operators: a value is emitted where it
is met, an operator once everything that binds tighter on its right has been emitted. Two operators
also leave a placeholder behind their left operand, which skips the right one when the left decides
already. The code of an expression leaves exactly one value on the stack.
-/

import LineScript.Compile.Draft

namespace LineScript.Compile

open LineScript.Code

/-- An operator: what it emits, if anything, how tightly it binds, and whether it waits for operators
of its own tightness to its right. -/
structure Operator where
  op? : Option Opcode
  priority : Nat
  right : Bool := false
  deriving DecidableEq, Repr

/-- The tightness that counts when an operator further right asks whether to wait. -/
def Operator.effective (o : Operator) : Nat :=
  if o.right then o.priority - 1 else o.priority

/-- The operators between two values. -/
def binary? : TokenKind → Option Operator
  | .or => some ⟨some .or, 0, false⟩
  | .and => some ⟨some .and, 1, false⟩
  | .less => some ⟨some .less, 3, false⟩
  | .lessEqual => some ⟨some .lessOrEqual, 3, false⟩
  | .greater => some ⟨some .greater, 3, false⟩
  | .greaterEqual => some ⟨some .greaterOrEqual, 3, false⟩
  | .equal => some ⟨some .equal, 3, false⟩
  | .notEqual => some ⟨some .notEqual, 3, false⟩
  | .plus => some ⟨some .add, 4, false⟩
  | .minus => some ⟨some .subtract, 4, false⟩
  | .star => some ⟨some .multiply, 5, false⟩
  | .slash => some ⟨some .divide, 5, false⟩
  | _ => none

/-- The operators before a value. A plus emits nothing. -/
def unary? : TokenKind → Option Operator
  | .plus => some ⟨none, 6, true⟩
  | .minus => some ⟨some .negate, 6, true⟩
  | .not => some ⟨some .not, 2, true⟩
  | _ => none

/-- The placeholder operation of the operators that may skip their right operand. -/
def skipping? : Option Opcode → Option Opcode
  | some .or => some .skipOr
  | some .and => some .skipAnd
  | _ => none

/-- An entry of the operator stack: an open parenthesis, or an operator with the address of its
placeholder. -/
inductive Pending where
  | paren
  | operator (o : Operator) (skip? : Option Nat)
  deriving DecidableEq, Repr

/-- Emits an operator and resolves its placeholder to just past it. -/
def emitOperator (d : Draft) (o : Operator) (skip? : Option Nat) : Result :=
  let d := match o.op? with
    | some op => d.emit op
    | none => d
  match skip? with
  | some address => d.patchHere address
  | none => .ok d

/-- Emits the pending operators that bind at least as tightly as the one that was met. -/
def reduce (d : Draft) (priority : Nat) : List Pending → Except CompileError (Draft × List Pending)
  | .operator o skip? :: pending =>
    if o.effective < priority then .ok (d, .operator o skip? :: pending)
    else
      match emitOperator d o skip? with
      | .ok d => reduce d priority pending
      | .error e => .error e
  | pending => .ok (d, pending)

/-- Emits the pending operators down to the innermost open parenthesis and drops it; nothing when
there is no open parenthesis. -/
def closeParen (d : Draft) : List Pending → Option (Except CompileError (Draft × List Pending))
  | [] => none
  | .paren :: pending => some (.ok (d, pending))
  | .operator o skip? :: pending =>
    if pending.contains .paren then
      match emitOperator d o skip? with
      | .ok d => closeParen d pending
      | .error e => some (.error e)
    else none

/-- Emits all pending operators at the end of an expression. -/
def emitPending (d : Draft) : List Pending → Result
  | [] => .ok d
  | .paren :: _ => .error (.at_ d.peek (.unclosedParen d.peek.shown))
  | .operator o skip? :: pending =>
    match emitOperator d o skip? with
    | .ok d => emitPending d pending
    | .error e => .error e

/-- Where an expression stands between two tokens. -/
structure Progress where
  pending : List Pending := []
  /-- Whether a value was just completed, so that an operator may follow. -/
  complete : Bool := false
  /-- Whether no token of the expression has been consumed. -/
  fresh : Bool := true

/-- After a value. -/
def Progress.valued (p : Progress) : Progress := { p with complete := true, fresh := false }

/-- After an operator or an open parenthesis. -/
def Progress.waiting (p : Progress) (pending : List Pending) : Progress :=
  { p with pending := pending, complete := false, fresh := false }

/-- Ends an expression at a token that cannot continue it. -/
def Progress.finish (p : Progress) (d : Draft) : Result :=
  if p.fresh then .error (.at_ d.peek (.missingExpression d.peek.shown))
  else if !p.complete then .error (.at_ d.peek (.missingValue d.peek.shown))
  else emitPending d p.pending

/-- Meets an operator: first emits what binds tighter to its left, then leaves the placeholder, if it
has one, and waits for its right operand. An operator before a value emits nothing yet. -/
def Progress.operator (p : Progress) (d : Draft) (o : Operator) :
    Except CompileError (Draft × Progress) :=
  let reduced := if p.complete then reduce d o.priority p.pending else .ok (d, p.pending)
  match reduced with
  | .error e => .error e
  | .ok (d, pending) =>
    match skipping? o.op? with
    | some skip => .ok (d.emitJump skip, p.waiting (.operator o (some d.address) :: pending))
    | none => .ok (d, p.waiting (.operator o none :: pending))

/-- The failure of a step that ran out of fuel. -/
def exhausted (d : Draft) : CompileError := { cause := .exhausted, line := d.line }

mutual

/-- Compiles the longest expression that the tokens begin with. -/
def expressionWith : Nat → Draft → Result
  | 0, d => .error (exhausted d)
  | fuel + 1, d => terms fuel d {}

/-- Goes on with an expression, one token at a time. -/
def terms : Nat → Draft → Progress → Result
  | 0, d, _ => .error (exhausted d)
  | fuel + 1, d, p =>
    let t := d.peek
    match t.kind with
    | .endOfInput => p.finish d
    | .number | .string | .boolean | .null =>
      if p.complete then .error (.at_ t (.valueAfterValue t.shown))
      else terms fuel (d.next.emitValue (if t.kind = .null then .null else t.value)) p.valued
    | .identifier =>
      if p.complete then .error (.at_ t (.valueAfterValue t.shown))
      else if d.peekSecond.kind = .leftParen then
        match call fuel d with
        | .ok d => terms fuel d p.valued
        | .error e => .error e
      else if d.sees? t.text then terms fuel (d.next.emitName .load t.text) p.valued
      else .error (.at_ t (.undefinedVariable t.text))
    | .leftParen =>
      if p.complete then .error (.at_ t (.valueAfterValue (Text.quote t.kind.label)))
      else terms fuel d.next (p.waiting (.paren :: p.pending))
    | .rightParen =>
      if !p.complete then .error (.at_ t (.symbolForValue t.kind))
      else
        match closeParen d.next p.pending with
        -- The parenthesis closes an enclosing call.
        | none => p.finish d
        | some (.ok (d, pending)) => terms fuel d { p with pending := pending }
        | some (.error e) => .error e
    | .leftBracket =>
      let inner := d.next.skipLineBreaks
      if p.complete then
        match subscript fuel inner with
        | .ok d => terms fuel d p
        | .error e => .error e
      else if !p.fresh then .error (.at_ t .misplacedList)
      else
        match elements fuel (inner.emit .list) with
        | .ok d =>
          match d.skipLineBreaks.expect .rightBracket with
          | .ok d => terms fuel d p.valued
          | .error e => .error e
        | .error e => .error e
    | .leftBrace =>
      if p.complete then .error (.at_ t (.valueAfterValue (Text.quote t.kind.label)))
      else
        match members fuel (d.next.skipLineBreaks.emit .object) with
        | .ok d =>
          match d.skipLineBreaks.expect .rightBrace with
          | .ok d => terms fuel d p.valued
          | .error e => .error e
        | .error e => .error e
    | .dot =>
      if !p.complete then .error (.at_ t (.symbolForValue t.kind))
      else
        match d.next.expectText .identifier with
        | .ok (member, d) => terms fuel (d.emitName .get member) p
        | .error e => .error e
    | kind =>
      match if p.complete then binary? kind else unary? kind with
      | none => p.finish d
      | some o =>
        match p.operator d.next o with
        | .ok (d, p) => terms fuel d p
        | .error e => .error e

/-- Compiles a call, beginning at the name of the function. -/
def call : Nat → Draft → Result
  | 0, d => .error (exhausted d)
  | fuel + 1, d =>
    let name := d.peek
    match d.arity? name.text with
    | none => .error (.at_ name (.undefinedFunction name.text))
    | some arity =>
      let inner := d.next.next.skipLineBreaks
      let given := if inner.sees .rightParen then .ok (inner, 0) else arguments fuel inner 0
      match given with
      | .error e => .error e
      | .ok (d, count) =>
        match d.skipLineBreaks.expect .rightParen with
        | .error e => .error e
        | .ok d =>
          if count = arity then .ok (d.emitName .call name.text)
          else .error (.at_ name (.arityMismatch name.text arity count))

/-- Compiles arguments separated by commas, counting them. -/
def arguments : Nat → Draft → Nat → Except CompileError (Draft × Nat)
  | 0, d, _ => .error (exhausted d)
  | fuel + 1, d, count =>
    match expressionWith fuel d with
    | .error e => .error e
    | .ok d =>
      if d.sees .comma then arguments fuel d.next.skipLineBreaks (count + 1) else .ok (d, count + 1)

/-- Compiles a subscript after its opening bracket. -/
def subscript : Nat → Draft → Result
  | 0, d => .error (exhausted d)
  | fuel + 1, d =>
    match expressionWith fuel d with
    | .error e => .error e
    | .ok d =>
      match d.skipLineBreaks.expect .rightBracket with
      | .ok d => .ok (d.emit .index)
      | .error e => .error e

/-- Compiles the elements of a list literal up to its closing bracket. -/
def elements : Nat → Draft → Result
  | 0, d => .error (exhausted d)
  | fuel + 1, d =>
    if d.sees .rightBracket then .ok d
    else
      match expressionWith fuel d with
      | .error e => .error e
      | .ok d =>
        let d := d.emit .append
        if d.sees .comma then elements fuel d.next.skipLineBreaks else .ok d

/-- Compiles the members of an object literal up to its closing brace. -/
def members : Nat → Draft → Result
  | 0, d => .error (exhausted d)
  | fuel + 1, d =>
    if d.sees .rightBrace then .ok d
    else
      match d.expectText .identifier with
      | .error e => .error e
      | .ok (member, d) =>
        match d.expect .equal with
        | .error e => .error e
        | .ok d =>
          match expressionWith fuel d.skipLineBreaks with
          | .error e => .error e
          | .ok d =>
            let d := d.emitName .set member
            if d.sees .comma then members fuel d.next.skipLineBreaks else .ok d

end

/-- Compiles the longest expression that the tokens begin with. At most four steps nest for each token,
so the fuel never runs out. -/
def expression (d : Draft) : Result :=
  expressionWith (4 * d.rest.length + 4) d

end LineScript.Compile
