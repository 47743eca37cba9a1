/-
# The turns of an expression

The compiler of expressions goes over operators and values, over arguments, over elements and over members
until something else stands there. Each of these loops is a turn done again: a turn either comes to where the
next one begins, or it ends the loop. The remaining parts, subscripts and calls, are written here as what
is compiled one after the other.

What has to be shown of every expression can so be shown of a turn, step for step.
-/

import LineScript.Proofs.Drafts

namespace LineScript.Compile

open LineScript.Code

/-! ## One turn -/

/-- Compiles a list literal after its opening bracket. -/
def listLiteral (fuel : Nat) (d : Draft) : Result := do
  let d ← elements fuel (d.emit .list)
  d.skipLineBreaks.expect .rightBracket

/-- Compiles an object literal after its opening brace. -/
def objectLiteral (fuel : Nat) (d : Draft) : Result := do
  let d ← members fuel (d.emit .object)
  d.skipLineBreaks.expect .rightBrace

/-- One operator or value of an expression. -/
def operatorTurn (fuel : Nat) (d : Draft) (p : Progress) :
    Except CompileError ((Draft × Progress) ⊕ Draft) :=
  let t := d.peek
  match t.kind with
  | .endOfInput => (p.finish d).map .inr
  | .number | .string | .boolean | .null =>
    if p.complete then .error (.at_ t (.valueAfterValue t.shown))
    else .ok (.inl (d.next.emitValue (if t.kind = .null then .null else t.value), p.valued))
  | .identifier =>
    if p.complete then .error (.at_ t (.valueAfterValue t.shown))
    else if d.peekSecond.kind = .leftParen then (call fuel d).map fun d => .inl (d, p.valued)
    else if d.sees? t.text then .ok (.inl (d.next.emitName .load t.text, p.valued))
    else .error (.at_ t (.undefinedVariable t.text))
  | .leftParen =>
    if p.complete then .error (.at_ t (.valueAfterValue (Text.quote t.kind.label)))
    else .ok (.inl (d.next, p.waiting (.paren :: p.pending)))
  | .rightParen =>
    if !p.complete then .error (.at_ t (.symbolForValue t.kind))
    else
      match closeParen d.next p.pending with
      | none => (p.finish d).map .inr
      | some r => r.map fun r => .inl (r.1, { p with pending := r.2 })
  | .leftBracket =>
    if p.complete then (subscript fuel d.next.skipLineBreaks).map fun d => .inl (d, p)
    else if !p.fresh then .error (.at_ t .misplacedList)
    else (listLiteral fuel d.next.skipLineBreaks).map fun d => .inl (d, p.valued)
  | .leftBrace =>
    if p.complete then .error (.at_ t (.valueAfterValue (Text.quote t.kind.label)))
    else (objectLiteral fuel d.next.skipLineBreaks).map fun d => .inl (d, p.valued)
  | .dot =>
    if !p.complete then .error (.at_ t (.symbolForValue t.kind))
    else (d.next.expectText .identifier).map fun r => .inl (r.2.emitName .get r.1, p)
  | kind =>
    match if p.complete then binary? kind else unary? kind with
    | none => (p.finish d).map .inr
    | some o => (p.operator d.next o).map .inl

/-- One argument, with the comma after it. -/
def argumentTurn (fuel : Nat) (d : Draft) (count : Nat) :
    Except CompileError ((Draft × Nat) ⊕ (Draft × Nat)) := do
  let d ← expressionWith fuel d
  if d.sees .comma then .ok (.inl (d.next.skipLineBreaks, count + 1)) else .ok (.inr (d, count + 1))

/-- One element of a list, with the comma after it. -/
def elementTurn (fuel : Nat) (d : Draft) : Except CompileError (Draft ⊕ Draft) :=
  if d.sees .rightBracket then .ok (.inr d)
  else do
    let d ← expressionWith fuel d
    let d := d.emit .append
    if d.sees .comma then .ok (.inl d.next.skipLineBreaks) else .ok (.inr d)

/-- One member of an object, with the comma after it. -/
def memberTurn (fuel : Nat) (d : Draft) : Except CompileError (Draft ⊕ Draft) :=
  if d.sees .rightBrace then .ok (.inr d)
  else do
    let (member, d) ← d.expectText .identifier
    let d ← d.expect .equal
    let d ← expressionWith fuel d.skipLineBreaks
    let d := d.emitName .set member
    if d.sees .comma then .ok (.inl d.next.skipLineBreaks) else .ok (.inr d)

/-! ## Turn after turn -/

section

variable (fuel : Nat) (d : Draft)

theorem terms_turn (p : Progress) :
    terms (fuel + 1) d p =
      operatorTurn fuel d p >>= Sum.elim (fun s => terms fuel s.1 s.2) .ok := by
  have hfinish : p.finish d =
      (p.finish d).map .inr >>= Sum.elim (fun s : Draft × Progress => terms fuel s.1 s.2) .ok := by
    cases p.finish d <;> rfl
  rw [terms, operatorTurn]
  dsimp only
  cases d.peek.kind
  case endOfInput => exact hfinish
  case number | string | boolean | null =>
    dsimp only
    split <;> rfl
  case identifier =>
    dsimp only
    split
    · rfl
    split
    · cases call fuel d <;> rfl
    · split <;> rfl
  case leftParen =>
    dsimp only
    split <;> rfl
  case rightParen =>
    dsimp only
    split
    · rfl
    cases closeParen d.next p.pending with
    | none => exact hfinish
    | some r => cases r <;> rfl
  case leftBracket =>
    dsimp only
    split
    · cases subscript fuel d.next.skipLineBreaks <;> rfl
    split
    · rfl
    rw [listLiteral]
    cases elements fuel (d.next.skipLineBreaks.emit .list) with
    | error e => rfl
    | ok d₁ =>
        dsimp only [ok_bind]
        cases d₁.skipLineBreaks.expect .rightBracket <;> rfl
  case leftBrace =>
    dsimp only
    split
    · rfl
    rw [objectLiteral]
    cases members fuel (d.next.skipLineBreaks.emit .object) with
    | error e => rfl
    | ok d₁ =>
        dsimp only [ok_bind]
        cases d₁.skipLineBreaks.expect .rightBrace <;> rfl
  case dot =>
    dsimp only
    split
    · rfl
    · cases d.next.expectText .identifier <;> rfl
  all_goals
    dsimp only
    generalize (if p.complete then binary? _ else unary? _) = o?
    cases o? with
    | none => exact hfinish
    | some o =>
        dsimp only
        cases p.operator d.next o <;> rfl

theorem arguments_turn (count : Nat) :
    arguments (fuel + 1) d count =
      argumentTurn fuel d count >>= Sum.elim (fun s => arguments fuel s.1 s.2) .ok := by
  rw [arguments, argumentTurn]
  cases expressionWith fuel d with
  | error e => rfl
  | ok d₁ =>
      dsimp only [ok_bind]
      split <;> rfl

theorem elements_turn :
    elements (fuel + 1) d = elementTurn fuel d >>= Sum.elim (elements fuel) .ok := by
  rw [elements, elementTurn]
  split
  · rfl
  · cases expressionWith fuel d with
    | error e => rfl
    | ok d₁ =>
        dsimp only [ok_bind]
        split <;> rfl

theorem members_turn :
    members (fuel + 1) d = memberTurn fuel d >>= Sum.elim (members fuel) .ok := by
  rw [members, memberTurn]
  split
  · rfl
  · cases d.expectText .identifier with
    | error e => rfl
    | ok r =>
        dsimp only [ok_bind]
        cases r.2.expect .equal with
        | error e => rfl
        | ok d₁ =>
            dsimp only [ok_bind]
            cases expressionWith fuel d₁.skipLineBreaks with
            | error e => rfl
            | ok d₂ =>
                dsimp only [ok_bind]
                split <;> rfl

theorem subscript_succ :
    subscript (fuel + 1) d = expressionWith fuel d >>= fun d =>
      d.skipLineBreaks.expect .rightBracket >>= fun d => .ok (d.emit .index) := by
  rw [subscript]
  cases expressionWith fuel d with
  | error e => rfl
  | ok d₁ =>
      dsimp only [ok_bind]
      cases d₁.skipLineBreaks.expect .rightBracket <;> rfl

theorem call_succ :
    call (fuel + 1) d =
      match d.arity? d.peek.text with
      | none => .error (.at_ d.peek (.undefinedFunction d.peek.text))
      | some arity =>
        (if d.next.next.skipLineBreaks.sees .rightParen then .ok (d.next.next.skipLineBreaks, 0)
          else arguments fuel d.next.next.skipLineBreaks 0) >>= fun r =>
        r.1.skipLineBreaks.expect .rightParen >>= fun d₁ =>
        if r.2 = arity then .ok (d₁.emitName .call d.peek.text)
        else .error (.at_ d.peek (.arityMismatch d.peek.text arity r.2)) := by
  rw [call]
  cases d.arity? d.peek.text with
  | none => rfl
  | some arity =>
      dsimp only
      generalize (if d.next.next.skipLineBreaks.sees .rightParen then
        (Except.ok (d.next.next.skipLineBreaks, 0) : Except CompileError (Draft × Nat))
        else arguments fuel d.next.next.skipLineBreaks 0) = given
      cases given with
      | error e => rfl
      | ok r =>
          dsimp only [ok_bind]
          cases r.1.skipLineBreaks.expect .rightParen <;> rfl

end

end LineScript.Compile
