/-
# The precedence grammar as a recursive compiler

A reference for the expression compiler: precedence climbing, with no stack of
pending operators. An expression of some level is an operand followed by the
binary operators of at least that level; the right operand of an operator is an
expression of the next level, so operators of one level associate to the left.
An operand is a unary operator with its operand, or a value with the subscripts
and members behind it.

Every function here leaves fewer tokens than it found, or at least not more, and
its result carries that fact: it is what makes the recursion end. The plain
functions and their equations, at the end, forget the fact again.
-/

import LineScript.Proofs.Drafts
import LineScript.Proofs.Operators

namespace LineScript.Compile.Precedence

open LineScript.Code

/-! ## Pieces -/

/-- The kinds of tokens that begin a value and can therefore not follow one. -/
def beginsValue : TokenKind → Bool
  | .number | .string | .boolean | .null | .identifier | .leftParen | .leftBrace => true
  | _ => false

/-- The failure of a value that follows a value. -/
def valueAfterValue (t : Token) : CompileError :=
  match t.kind with
  | .leftParen | .leftBrace => .at_ t (.valueAfterValue (Text.quote t.kind.label))
  | _ => .at_ t (.valueAfterValue t.shown)

/-- The failure of an expression that ends where a value should begin. -/
def missing (fresh : Bool) (t : Token) : CompileError :=
  if fresh then .at_ t (.missingExpression t.shown) else .at_ t (.missingValue t.shown)

/-- The draft with the line of an operator whose right operand is complete: that
of the token that shows it, if this token is part of the expression. Inside a
parenthesis the closing one is. -/
def concluding (enclosed : Bool) (d : Draft) : Draft :=
  if (BinaryOp.ofKind? d.peek.kind).isSome || (enclosed && d.peek.kind = .rightParen) then
    { d with consumed? := some d.peek.line }
  else d

/-- Leaves the placeholder of an operator that may skip its right operand. -/
def begin (o : BinaryOp) (d : Draft) : Draft :=
  match o.skip? with
  | some skip => d.emitJump skip
  | none => d

/-- Emits a binary operator and lets its placeholder, at the given address, lead
just past it. -/
def combine (o : BinaryOp) (address : Nat) (d : Draft) : Result :=
  match o.skip? with
  | some _ => (d.emit o.opcode).patchHere address
  | none => .ok (d.emit o.opcode)

/-- Emits a unary operator. -/
def apply (o : UnaryOp) (d : Draft) : Draft :=
  match o.opcode? with
  | some op => d.emit op
  | none => d

/-- Consumes the parenthesis that closes an expression. -/
def close (d : Draft) : Result :=
  if d.sees .rightParen then .ok d.next
  else .error (.at_ d.peek (.unclosedParen d.peek.shown))

@[simp] theorem rest_concluding (enclosed : Bool) (d : Draft) :
    (concluding enclosed d).rest = d.rest := by
  unfold concluding
  split <;> rfl

@[simp] theorem rest_begin (o : BinaryOp) (d : Draft) : (begin o d).rest = d.rest := by
  unfold begin
  split <;> rfl

@[simp] theorem rest_apply (o : UnaryOp) (d : Draft) : (apply o d).rest = d.rest := by
  unfold apply
  split <;> rfl

theorem rest_of_combine {o : BinaryOp} {address : Nat} {d d' : Draft}
    (h : combine o address d = .ok d') : d'.rest = d.rest := by
  unfold combine at h
  split at h
  · rw [Draft.rest_of_patchHere h, Draft.rest_emit]
  · cases h
    rfl

theorem length_expect_lt {d d' : Draft} {kind : TokenKind} (real : kind ≠ .endOfInput)
    (h : d.expect kind = .ok d') : d'.rest.length < d.rest.length := by
  unfold Draft.expect at h
  split at h
  · rename_i hsees
    cases h
    rw [Draft.sees_iff] at hsees
    exact Draft.length_next_lt (hsees ▸ real)
  · cases h

theorem length_expectText_lt {d : Draft} {r : String × Draft} {kind : TokenKind}
    (real : kind ≠ .endOfInput) (h : d.expectText kind = .ok r) :
    r.2.rest.length < d.rest.length := by
  unfold Draft.expectText at h
  cases hexpect : d.expect kind with
  | error e =>
      rw [hexpect] at h
      cases h
  | ok after =>
      rw [hexpect] at h
      cases h
      exact length_expect_lt real hexpect

theorem length_close_lt {d d' : Draft} (h : close d = .ok d') :
    d'.rest.length < d.rest.length := by
  unfold close at h
  split at h
  · rename_i hsees
    cases h
    rw [Draft.sees_iff] at hsees
    exact Draft.length_next_lt (hsees ▸ by decide)
  · cases h

/-! ## Reading with a bound -/

namespace Bounded

/-- A draft with fewer tokens left than the given one. -/
abbrev Shorter (d : Draft) := { after : Draft // after.rest.length < d.rest.length }

/-- A draft with no more tokens left than the given one. -/
abbrev NotLonger (d : Draft) := { after : Draft // after.rest.length ≤ d.rest.length }

/-- A result together with a fact that each of its values has. -/
def certify {α : Type} {p : α → Prop} :
    (r : Except CompileError α) → (∀ a, r = .ok a → p a) → Except CompileError { a // p a }
  | .ok a, h => .ok ⟨a, h a rfl⟩
  | .error e, _ => .error e

/-- Forgets the facts of a result. -/
def value {α : Type} {p : α → Prop} (r : Except CompileError { a // p a }) :
    Except CompileError α :=
  r.map (·.1)

mutual

/-- Compiles an operand and the operators of at least the given level after it. -/
def climb (level : Nat) (enclosed fresh : Bool) (d : Draft) :
    Except CompileError (Shorter d) := do
  let ⟨d₁, _⟩ ← operand enclosed fresh d
  let ⟨d₂, _⟩ ← operators level enclosed d₁
  return ⟨d₂, by omega⟩
termination_by 8 * d.rest.length + 6

/-- Compiles the operators of at least the given level that follow a value, with
their right operands. -/
def operators (level : Nat) (enclosed : Bool) (d : Draft) :
    Except CompileError (NotLonger d) :=
  if beginsValue d.peek.kind then .error (valueAfterValue d.peek)
  else
    match ho : BinaryOp.ofKind? d.peek.kind with
    | none => .ok ⟨d, Nat.le_refl _⟩
    | some o =>
      if o.level < level then .ok ⟨d, Nat.le_refl _⟩
      else do
        have hnext : d.next.rest.length < d.rest.length :=
          Draft.length_next_lt fun h => by rw [h] at ho; cases ho
        let ⟨d₁, h₁⟩ ← climb (o.level + 1) enclosed false (begin o d.next)
        have h₁ : d₁.rest.length < d.next.rest.length := by simpa using h₁
        let ⟨d₂, h₂⟩ ← certify (combine o d.next.address (concluding enclosed d₁))
          (fun _ => rest_of_combine)
        have h₂ : d₂.rest.length = d₁.rest.length := by simp [h₂]
        let ⟨d₃, h₃⟩ ← operators level enclosed d₂
        return ⟨d₃, by omega⟩
termination_by 8 * d.rest.length + 5

/-- Compiles a unary operator with its operand, or a value with what is behind
it. -/
def operand (enclosed fresh : Bool) (d : Draft) : Except CompileError (Shorter d) :=
  match ho : UnaryOp.ofKind? d.peek.kind with
  | some o => do
    have hnext : d.next.rest.length < d.rest.length :=
      Draft.length_next_lt fun h => by rw [h] at ho; cases ho
    let ⟨d₁, _⟩ ← climb o.level enclosed false d.next
    return ⟨apply o (concluding enclosed d₁), by simp; omega⟩
  | none => do
    let ⟨d₁, _⟩ ← primary fresh d
    let ⟨d₂, _⟩ ← suffixes d₁
    return ⟨d₂, by omega⟩
termination_by 8 * d.rest.length + 5

/-- Compiles a value. Only the first token of an expression can begin a list. -/
def primary (fresh : Bool) (d : Draft) : Except CompileError (Shorter d) :=
  match hkind : d.peek.kind with
  | .number | .string | .boolean =>
    .ok ⟨d.next.emitValue d.peek.value, Draft.length_next_lt (by simp [hkind])⟩
  | .null => .ok ⟨d.next.emitValue .null, Draft.length_next_lt (by simp [hkind])⟩
  | .identifier =>
    if d.peekSecond.kind = .leftParen then do
      have hnext : d.next.rest.length < d.rest.length := Draft.length_next_lt (by simp [hkind])
      let ⟨d₁, _⟩ ← call d.peek d.next
      return ⟨d₁, by omega⟩
    else if d.sees? d.peek.text then
      .ok ⟨d.next.emitName .load d.peek.text, Draft.length_next_lt (by simp [hkind])⟩
    else .error (.at_ d.peek (.undefinedVariable d.peek.text))
  | .leftParen => do
    have hnext : d.next.rest.length < d.rest.length := Draft.length_next_lt (by simp [hkind])
    let ⟨d₁, _⟩ ← climb 0 true false d.next
    let ⟨d₂, _⟩ ← certify (close d₁) (fun _ => length_close_lt)
    return ⟨d₂, by omega⟩
  | .leftBracket =>
    if fresh then do
      have hnext : d.next.rest.length < d.rest.length := Draft.length_next_lt (by simp [hkind])
      have hskip := d.next.length_skipLineBreaks_le
      let ⟨d₁, h₁⟩ ← elements (d.next.skipLineBreaks.emit .list)
      have h₁ : d₁.rest.length ≤ d.next.skipLineBreaks.rest.length := h₁
      have hskip₁ := d₁.length_skipLineBreaks_le
      let ⟨d₂, _⟩ ← certify (d₁.skipLineBreaks.expect .rightBracket)
        (fun _ => length_expect_lt (by decide))
      return ⟨d₂, by omega⟩
    else .error (.at_ d.peek .misplacedList)
  | .leftBrace => do
    have hnext : d.next.rest.length < d.rest.length := Draft.length_next_lt (by simp [hkind])
    have hskip := d.next.length_skipLineBreaks_le
    let ⟨d₁, h₁⟩ ← members (d.next.skipLineBreaks.emit .object)
    have h₁ : d₁.rest.length ≤ d.next.skipLineBreaks.rest.length := h₁
    have hskip₁ := d₁.length_skipLineBreaks_le
    let ⟨d₂, _⟩ ← certify (d₁.skipLineBreaks.expect .rightBrace)
      (fun _ => length_expect_lt (by decide))
    return ⟨d₂, by omega⟩
  | .rightParen | .dot => .error (.at_ d.peek (.symbolForValue d.peek.kind))
  | _ => .error (missing fresh d.peek)
termination_by 8 * d.rest.length + 4

/-- Compiles the subscripts and members behind a value. -/
def suffixes (d : Draft) : Except CompileError (NotLonger d) :=
  match hkind : d.peek.kind with
  | .leftBracket => do
    have hnext : d.next.rest.length < d.rest.length := Draft.length_next_lt (by simp [hkind])
    have hskip := d.next.length_skipLineBreaks_le
    let ⟨d₁, _⟩ ← climb 0 false true d.next.skipLineBreaks
    have hskip₁ := d₁.length_skipLineBreaks_le
    let ⟨d₂, _⟩ ← certify (d₁.skipLineBreaks.expect .rightBracket)
      (fun _ => length_expect_lt (by decide))
    let ⟨d₃, h₃⟩ ← suffixes (d₂.emit .index)
    have h₃ : d₃.rest.length ≤ d₂.rest.length := h₃
    return ⟨d₃, by omega⟩
  | .dot => do
    have hnext : d.next.rest.length < d.rest.length := Draft.length_next_lt (by simp [hkind])
    let ⟨⟨member, d₁⟩, h₁⟩ ← certify (d.next.expectText .identifier)
      (fun _ => length_expectText_lt (by decide))
    have h₁ : d₁.rest.length < d.next.rest.length := h₁
    let ⟨d₂, h₂⟩ ← suffixes (d₁.emitName .get member)
    have h₂ : d₂.rest.length ≤ d₁.rest.length := h₂
    return ⟨d₂, by omega⟩
  | _ => .ok ⟨d, Nat.le_refl _⟩
termination_by 8 * d.rest.length + 4

/-- Compiles a call once the name of the function is consumed. -/
def call (name : Token) (d : Draft) : Except CompileError (NotLonger d) :=
  match _ : d.arity? name.text with
  | none => .error (.at_ name (.undefinedFunction name.text))
  | some arity => do
    have hinner : d.next.skipLineBreaks.rest.length ≤ d.rest.length :=
      Nat.le_trans (Draft.length_skipLineBreaks_le _) (Draft.length_next_le _)
    let ⟨(d₁, count), h₁⟩ ←
      if d.next.skipLineBreaks.sees .rightParen then
        .ok ⟨(d.next.skipLineBreaks, 0), Nat.le_refl _⟩
      else arguments d.next.skipLineBreaks 0
    have h₁ : d₁.rest.length ≤ d.next.skipLineBreaks.rest.length := h₁
    have hskip₁ := d₁.length_skipLineBreaks_le
    let ⟨d₂, _⟩ ← certify (d₁.skipLineBreaks.expect .rightParen)
      (fun _ => length_expect_lt (by decide))
    if count = arity then return ⟨d₂.emitName .call name.text, by simp; omega⟩
    else .error (.at_ name (.arityMismatch name.text arity count))
termination_by 8 * d.rest.length + 8

/-- Compiles arguments separated by commas, counting them. -/
def arguments (d : Draft) (count : Nat) :
    Except CompileError { r : Draft × Nat // r.1.rest.length ≤ d.rest.length } := do
  let ⟨d₁, _⟩ ← climb 0 false true d
  if d₁.sees .comma then
    have hnext := d₁.length_next_le
    have hskip := d₁.next.length_skipLineBreaks_le
    let ⟨r, _⟩ ← arguments d₁.next.skipLineBreaks (count + 1)
    return ⟨r, by omega⟩
  else return ⟨(d₁, count + 1), Nat.le_of_lt ‹_›⟩
termination_by 8 * d.rest.length + 7

/-- Compiles the elements of a list up to its closing bracket. -/
def elements (d : Draft) : Except CompileError (NotLonger d) :=
  if d.sees .rightBracket then .ok ⟨d, Nat.le_refl _⟩
  else do
    let ⟨d₁, _⟩ ← climb 0 false true d
    if (d₁.emit .append).sees .comma then
      have hnext : (d₁.emit .append).next.rest.length ≤ d₁.rest.length :=
        Draft.length_next_le _
      have hskip := (d₁.emit .append).next.length_skipLineBreaks_le
      let ⟨d₂, _⟩ ← elements (d₁.emit .append).next.skipLineBreaks
      return ⟨d₂, by omega⟩
    else return ⟨d₁.emit .append, Nat.le_of_lt ‹_›⟩
termination_by 8 * d.rest.length + 7

/-- Compiles the members of an object up to its closing brace. -/
def members (d : Draft) : Except CompileError (NotLonger d) :=
  if d.sees .rightBrace then .ok ⟨d, Nat.le_refl _⟩
  else do
    let ⟨⟨member, d₁⟩, h₁⟩ ← certify (d.expectText .identifier)
      (fun _ => length_expectText_lt (by decide))
    have h₁ : d₁.rest.length < d.rest.length := h₁
    let ⟨d₂, _⟩ ← certify (d₁.expect .equal) (fun _ => length_expect_lt (by decide))
    have hskip := d₂.length_skipLineBreaks_le
    let ⟨d₃, _⟩ ← climb 0 false true d₂.skipLineBreaks
    if (d₃.emitName .set member).sees .comma then
      have hnext : (d₃.emitName .set member).next.rest.length ≤ d₃.rest.length :=
        Draft.length_next_le _
      have hskip := (d₃.emitName .set member).next.length_skipLineBreaks_le
      let ⟨d₄, _⟩ ← members (d₃.emitName .set member).next.skipLineBreaks
      return ⟨d₄, by omega⟩
    else return ⟨d₃.emitName .set member, by simp; omega⟩
termination_by 8 * d.rest.length + 7

end

theorem value_certify {α : Type} {p : α → Prop} (r : Except CompileError α)
    (h : ∀ a, r = .ok a → p a) : value (certify r h) = r := by
  cases r <;> rfl

/-- Facts can be forgotten one step at a time. -/
theorem value_bind {α β : Type} {p : α → Prop} {q : β → Prop}
    (r : Except CompileError { a // p a })
    {f : { a // p a } → Except CompileError { b // q b }} {g : α → Except CompileError β}
    (h : ∀ a, value (f a) = g a.1) : value (r >>= f) = (value r >>= g) := by
  cases r with
  | error e => rfl
  | ok a => exact h a

/-- A value keeps its identity when only the fact about it changes. -/
theorem value_rewrap {α : Type} {p q : α → Prop} {r : Except CompileError { a // p a }}
    {f : { a // p a } → Except CompileError { b // q b }} (h : ∀ a, value (f a) = .ok a.1) :
    value (r >>= f) = value r := by
  cases r with
  | error e => rfl
  | ok a => exact h a

theorem certify_bind {α β : Type} {p : α → Prop} {q : β → Prop} (r : Except CompileError α)
    (h : ∀ a, r = .ok a → p a) {f : { a // p a } → Except CompileError { b // q b }}
    {g : α → Except CompileError β} (hf : ∀ a, value (f a) = g a.1) :
    value (certify r h >>= f) = (r >>= g) := by
  rw [value_bind (certify r h) hf, value_certify]

theorem certify_rewrap {α : Type} {p q : α → Prop} (r : Except CompileError α)
    (h : ∀ a, r = .ok a → p a) {f : { a // p a } → Except CompileError { b // q b }}
    (hf : ∀ a, value (f a) = .ok a.1) : value (certify r h >>= f) = r := by
  rw [value_rewrap hf, value_certify]

theorem lt_of_value {d d' : Draft} {r : Except CompileError (Shorter d)}
    (h : value r = .ok d') : d'.rest.length < d.rest.length := by
  cases r with
  | error e => cases h
  | ok a =>
      cases h
      exact a.2

theorem le_of_value {d d' : Draft} {r : Except CompileError (NotLonger d)}
    (h : value r = .ok d') : d'.rest.length ≤ d.rest.length := by
  cases r with
  | error e => cases h
  | ok a =>
      cases h
      exact a.2

end Bounded

/-! ## The grammar -/

open Bounded (value value_bind value_rewrap certify_bind certify_rewrap)

/-- Compiles an operand and the operators of at least the given level after it. -/
def climb (level : Nat) (enclosed fresh : Bool) (d : Draft) : Result :=
  value (Bounded.climb level enclosed fresh d)

/-- Compiles the operators of at least the given level that follow a value. -/
def operators (level : Nat) (enclosed : Bool) (d : Draft) : Result :=
  value (Bounded.operators level enclosed d)

/-- Compiles a unary operator with its operand, or a value with what is behind
it. -/
def operand (enclosed fresh : Bool) (d : Draft) : Result :=
  value (Bounded.operand enclosed fresh d)

/-- Compiles a value. -/
def primary (fresh : Bool) (d : Draft) : Result := value (Bounded.primary fresh d)

/-- Compiles the subscripts and members behind a value. -/
def suffixes (d : Draft) : Result := value (Bounded.suffixes d)

/-- Compiles a call once the name of the function is consumed. -/
def call (name : Token) (d : Draft) : Result := value (Bounded.call name d)

/-- Compiles arguments separated by commas, counting them. -/
def arguments (d : Draft) (count : Nat) : Except CompileError (Draft × Nat) :=
  value (Bounded.arguments d count)

/-- Compiles the elements of a list. -/
def elements (d : Draft) : Result := value (Bounded.elements d)

/-- Compiles the members of an object. -/
def members (d : Draft) : Result := value (Bounded.members d)

/-- Compiles an expression: one of the lowest level, that no parenthesis encloses
and no token precedes. -/
def expression (d : Draft) : Result := climb 0 false true d

theorem climb_eq (level : Nat) (enclosed fresh : Bool) (d : Draft) :
    climb level enclosed fresh d = operand enclosed fresh d >>= operators level enclosed := by
  unfold climb
  rw [Bounded.climb]
  apply value_bind
  rintro ⟨d₁, h₁⟩
  exact value_rewrap fun a => rfl

theorem operators_eq (level : Nat) (enclosed : Bool) (d : Draft) :
    operators level enclosed d =
      if beginsValue d.peek.kind then .error (valueAfterValue d.peek)
      else
        match BinaryOp.ofKind? d.peek.kind with
        | none => .ok d
        | some o =>
          if o.level < level then .ok d
          else
            climb (o.level + 1) enclosed false (begin o d.next) >>= fun d₁ =>
              combine o d.next.address (concluding enclosed d₁) >>=
                operators level enclosed := by
  unfold operators
  rw [Bounded.operators]
  split
  · rfl
  · split
    · rename_i ho
      rw [ho]
      rfl
    · rename_i o ho
      conv => rhs; rw [ho]
      dsimp only
      split
      · rfl
      · apply value_bind
        rintro ⟨d₁, h₁⟩
        apply certify_bind
        rintro ⟨d₂, h₂⟩
        exact value_rewrap fun a => rfl

theorem operand_eq (enclosed fresh : Bool) (d : Draft) :
    operand enclosed fresh d =
      match UnaryOp.ofKind? d.peek.kind with
      | some o => do
        let d₁ ← climb o.level enclosed false d.next
        return apply o (concluding enclosed d₁)
      | none => primary fresh d >>= suffixes := by
  unfold operand
  rw [Bounded.operand]
  split
  · rename_i o ho
    conv => rhs; rw [ho]
    apply value_bind
    rintro ⟨d₁, h₁⟩
    rfl
  · rename_i ho
    conv => rhs; rw [ho]
    apply value_bind
    rintro ⟨d₁, h₁⟩
    exact value_rewrap fun a => rfl

theorem primary_eq (fresh : Bool) (d : Draft) :
    primary fresh d =
      match d.peek.kind with
      | .number | .string | .boolean => .ok (d.next.emitValue d.peek.value)
      | .null => .ok (d.next.emitValue .null)
      | .identifier =>
        if d.peekSecond.kind = .leftParen then call d.peek d.next
        else if d.sees? d.peek.text then .ok (d.next.emitName .load d.peek.text)
        else .error (.at_ d.peek (.undefinedVariable d.peek.text))
      | .leftParen => climb 0 true false d.next >>= close
      | .leftBracket =>
        if fresh then do
          let d₁ ← elements (d.next.skipLineBreaks.emit .list)
          d₁.skipLineBreaks.expect .rightBracket
        else .error (.at_ d.peek .misplacedList)
      | .leftBrace => do
        let d₁ ← members (d.next.skipLineBreaks.emit .object)
        d₁.skipLineBreaks.expect .rightBrace
      | .rightParen | .dot => .error (.at_ d.peek (.symbolForValue d.peek.kind))
      | _ => .error (missing fresh d.peek) := by
  unfold primary
  rw [Bounded.primary]
  split
  all_goals rename_i hkind
  all_goals simp only [hkind]
  all_goals try rfl
  · split
    · exact value_rewrap fun a => rfl
    · split <;> rfl
  · apply value_bind
    rintro ⟨d₁, h₁⟩
    exact certify_rewrap _ _ fun a => rfl
  · split
    · apply value_bind
      rintro ⟨d₁, h₁⟩
      exact certify_rewrap _ _ fun a => rfl
    · rfl
  · apply value_bind
    rintro ⟨d₁, h₁⟩
    exact certify_rewrap _ _ fun a => rfl

theorem suffixes_eq (d : Draft) :
    suffixes d =
      match d.peek.kind with
      | .leftBracket => do
        let d₁ ← expression d.next.skipLineBreaks
        let d₂ ← d₁.skipLineBreaks.expect .rightBracket
        suffixes (d₂.emit .index)
      | .dot => do
        let (member, d₁) ← d.next.expectText .identifier
        suffixes (d₁.emitName .get member)
      | _ => .ok d := by
  unfold suffixes
  rw [Bounded.suffixes]
  split
  all_goals rename_i hkind
  all_goals simp only [hkind]
  · apply value_bind
    rintro ⟨d₁, h₁⟩
    apply certify_bind
    rintro ⟨d₂, h₂⟩
    exact value_rewrap fun a => rfl
  · apply certify_bind
    rintro ⟨⟨member, d₁⟩, h₁⟩
    exact value_rewrap fun a => rfl
  · rfl

theorem call_eq (name : Token) (d : Draft) :
    call name d =
      match d.arity? name.text with
      | none => .error (.at_ name (.undefinedFunction name.text))
      | some arity =>
        (if d.next.skipLineBreaks.sees .rightParen then .ok (d.next.skipLineBreaks, 0)
          else arguments d.next.skipLineBreaks 0) >>= fun r =>
        r.1.skipLineBreaks.expect .rightParen >>= fun d₂ =>
        if r.2 = arity then .ok (d₂.emitName .call name.text)
        else .error (.at_ name (.arityMismatch name.text arity r.2)) := by
  unfold call
  rw [Bounded.call]
  split
  · rename_i hnone
    rw [hnone]
    rfl
  · rename_i arity harity
    rw [harity]
    dsimp only
    split
    all_goals apply value_bind
    all_goals rintro ⟨⟨d₁, count⟩, h₁⟩
    all_goals apply certify_bind
    all_goals rintro ⟨d₂, h₂⟩
    all_goals exact apply_ite value _ _ _

theorem arguments_eq (d : Draft) (count : Nat) :
    arguments d count = expression d >>= fun d₁ =>
      if d₁.sees .comma then arguments d₁.next.skipLineBreaks (count + 1)
      else .ok (d₁, count + 1) := by
  unfold arguments
  rw [Bounded.arguments]
  apply value_bind
  rintro ⟨d₁, h₁⟩
  dsimp only
  split
  · exact value_rewrap fun a => rfl
  · rfl

theorem elements_eq (d : Draft) :
    elements d =
      if d.sees .rightBracket then .ok d
      else expression d >>= fun d₁ =>
        if (d₁.emit .append).sees .comma then elements (d₁.emit .append).next.skipLineBreaks
        else .ok (d₁.emit .append) := by
  unfold elements
  rw [Bounded.elements]
  split
  · rfl
  · apply value_bind
    rintro ⟨d₁, h₁⟩
    dsimp only
    split
    · exact value_rewrap fun a => rfl
    · rfl

theorem members_eq (d : Draft) :
    members d =
      if d.sees .rightBrace then .ok d
      else d.expectText .identifier >>= fun (member, d₁) =>
        d₁.expect .equal >>= fun d₂ =>
          expression d₂.skipLineBreaks >>= fun d₃ =>
            if (d₃.emitName .set member).sees .comma then
              members (d₃.emitName .set member).next.skipLineBreaks
            else .ok (d₃.emitName .set member) := by
  unfold members
  rw [Bounded.members]
  split
  · rfl
  · apply certify_bind
    rintro ⟨⟨member, d₁⟩, h₁⟩
    apply certify_bind
    rintro ⟨d₂, h₂⟩
    apply value_bind
    rintro ⟨d₃, h₃⟩
    dsimp only
    split
    · exact value_rewrap fun a => rfl
    · rfl

/-! ## Progress -/

theorem length_climb_lt {level : Nat} {enclosed fresh : Bool} {d d' : Draft}
    (h : climb level enclosed fresh d = .ok d') : d'.rest.length < d.rest.length :=
  Bounded.lt_of_value h

theorem length_operand_lt {enclosed fresh : Bool} {d d' : Draft}
    (h : operand enclosed fresh d = .ok d') : d'.rest.length < d.rest.length :=
  Bounded.lt_of_value h

theorem length_primary_lt {fresh : Bool} {d d' : Draft} (h : primary fresh d = .ok d') :
    d'.rest.length < d.rest.length :=
  Bounded.lt_of_value h

end LineScript.Compile.Precedence
