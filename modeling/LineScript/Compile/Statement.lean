/-
# Statements

Statements are compiled by recursive descent, straight into instructions. Control flow leaves
placeholders that are resolved where the construct ends: a condition jumps past its arm, an arm jumps
past the whole construct, a loop jumps back to its condition.
-/

import LineScript.Compile.Expression

namespace LineScript.Compile

open LineScript.Code

/-- Compiles an expression whose value is dropped. -/
def expressionStatement (d : Draft) : Result := do
  let d ← expression d
  (d.emit .pop).expectLineEnd

/-- Compiles `name[index] = value` after the opening bracket. -/
def elementAssignment (d : Draft) (name : String) : Result := do
  let d ← expression (d.emitName .load name).skipLineBreaks
  let d ← d.skipLineBreaks.expect .rightBracket
  let d ← d.expect .equal
  let d ← expression d
  (d.emit .put).expectLineEnd

/-- Compiles `name.member = value` after the point. -/
def memberAssignment (d : Draft) (name : String) : Result := do
  let (member, d) ← (d.emitName .load name).expectText .identifier
  let d ← d.expect .equal
  let d ← expression d
  ((d.emitName .set member).emit .pop).expectLineEnd

/-- Compiles `name = value` after the equals sign. A name that is not visible yet is declared once its
value has been compiled. -/
def assignment (d : Draft) (name : String) (visible : Bool) : Result := do
  let d ← expression d
  let d := if visible then d else d.declare name
  (d.emitName .store name).expectLineEnd

/-- Compiles a statement that begins with a name: an assignment, or else an expression. -/
def declaration (d : Draft) : Result :=
  let t := d.peek
  let inner := d.next.next
  let visible := d.sees? t.text
  match d.peekSecond.kind with
  | .equal => assignment inner t.text visible
  | .leftBracket =>
    if visible then elementAssignment inner t.text
    else .error (.at_ t (.undefinedVariable t.text))
  | .dot =>
    if visible then memberAssignment inner t.text
    else .error (.at_ t (.undefinedVariable t.text))
  | _ => expressionStatement d

/-- Compiles a return with an optional value. -/
def returnStatement (d : Draft) : Result := do
  let d := d.next
  if d.atEnd then .ok ((d.emitValue .null).emit .ret)
  else if d.sees .lineBreak then .ok ((d.next.emitValue .null).emit .ret)
  else
    let d ← expression d
    let d ← d.expectLineEnd
    .ok (d.emit .ret)

/-- Compiles the statement after `then`. -/
def inlineStatement (d : Draft) : Result :=
  match d.peek.kind with
  | .identifier => declaration d
  | .return_ => returnStatement d
  | _ => expressionStatement d

/-- Reads the parameters of a function up to its closing parenthesis; `names` are those before, last
first. -/
def parameters : Nat → Draft → List String → Except CompileError (Draft × List String)
  | 0, d, _ => .error (exhausted d)
  | fuel + 1, d, names =>
    let t := d.peek
    if t.kind = .identifier then
      if names.contains t.text then .error (.at_ t (.duplicateParameter t.text))
      else if d.next.sees .comma then parameters fuel d.next.next.skipLineBreaks (t.text :: names)
      else .ok (d.next, (t.text :: names).reverse)
    else .ok (d, names.reverse)

/-- Compiles the header of a function after `func` and enters it. -/
def functionHeader (d : Draft) : Result := do
  let name := d.peek
  let d ← d.expect .identifier
  if (d.arity? name.text).isSome then .error (.at_ name (.duplicateFunction name.text))
  else
    let d ← d.expect .leftParen
    let (d, params) ← parameters (d.rest.length + 1) d []
    let d ← d.expect .rightParen
    let d ← d.expectLineEnd
    .ok (d.enter name.text params)

mutual

/-- Compiles statements until one of the given kinds comes next, or the input ends. -/
def blockWith : Nat → List TokenKind → Draft → Result
  | 0, _, d => .error (exhausted d)
  | fuel + 1, enders, d =>
    if d.atEnd || enders.contains d.peek.kind then .ok d
    else
      match statement fuel d with
      | .ok d => blockWith fuel enders d
      | .error e => .error e

/-- Compiles one statement. -/
def statement : Nat → Draft → Result
  | 0, d => .error (exhausted d)
  | fuel + 1, d =>
    let t := d.peek
    match t.kind with
    | .identifier => declaration d
    | .if_ => ifStatement fuel d.next
    | .while_ => whileStatement fuel d.next
    | .func =>
      if d.outer?.isSome then .error (.at_ t .nestedFunction) else functionDefinition fuel d.next
    | .return_ => returnStatement d
    | .lineBreak => .ok d.next
    | .end_ | .elif | .else_ => .error (.at_ t (.strayEnd t.kind))
    | _ => expressionStatement d

/-- Compiles a conditional after `if`: one statement after `then`, or arms up to `end`. -/
def ifStatement : Nat → Draft → Result
  | 0, d => .error (exhausted d)
  | fuel + 1, d => do
    let d ← expression d
    let branch := d.address
    let d := d.emitJump .branch
    if d.sees .then_ then
      let d ← inlineStatement d.next
      d.patchHere branch
    else
      let d ← d.expectLineEnd
      let (d, jumps) ← arms fuel d branch []
      let d ← if d.sees .else_ then do
          let d ← d.next.expectLineEnd
          blockWith fuel [.end_] d
        else .ok d
      let d ← d.expect .end_
      let d ← d.patchAllHere jumps
      d.expectLineEnd

/-- Compiles an arm and the `elif` arms after it. The placeholder of its condition is resolved to just
past the arm; the jumps at the ends of the arms are handed over in order. -/
def arms : Nat → Draft → Nat → List Nat → Except CompileError (Draft × List Nat)
  | 0, d, _, _ => .error (exhausted d)
  | fuel + 1, d, branch, jumps => do
    let d ← blockWith fuel [.end_, .elif, .else_] d
    let jumps := jumps ++ [d.address]
    let d ← (d.emitJump .jump).patchHere branch
    if d.sees .elif then
      let d ← expression d.next
      let branch := d.address
      let d ← (d.emitJump .branch).expectLineEnd
      arms fuel d branch jumps
    else .ok (d, jumps)

/-- Compiles a loop after `while`. -/
def whileStatement : Nat → Draft → Result
  | 0, d => .error (exhausted d)
  | fuel + 1, d => do
    let condition := d.address
    let d ← expression d
    let d ← d.expectLineEnd
    let branch := d.address
    let d ← blockWith fuel [.end_] (d.emitJump .branch)
    let d ← (d.emitJumpTo .jump condition).patchHere branch
    let d ← d.expect .end_
    d.expectLineEnd

/-- Compiles a function after `func`. -/
def functionDefinition : Nat → Draft → Result
  | 0, d => .error (exhausted d)
  | fuel + 1, d => do
    let d ← functionHeader d
    let d ← blockWith fuel [.end_] d
    let d ← ((d.emitValue .null).emit .ret).expect .end_
    let d ← d.checkResolved
    d.leave.expectLineEnd

end

/-- Compiles all statements of the input. At most four steps nest for each token, so the fuel never runs
out. -/
def block (d : Draft) : Result :=
  blockWith (4 * d.rest.length + 4) [] d

end LineScript.Compile
