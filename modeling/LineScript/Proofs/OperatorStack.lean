/-
# The operator stack follows the precedence grammar

The one-pass compiler reads an expression token by token and keeps the operators
that still wait for their right operand on a stack. The stack is the recursion of
the precedence grammar made explicit: each entry is an operator whose right
operand, or a parenthesis whose content, is being read. `resume` says what is left
to do for a stack, and the invariant of the loop is that what it still computes is
what the grammar computes for the next operand followed by `resume`.

The main statement is that both compilers give the same draft or the same error
for every draft: the same tokens are consumed, and the same instructions are
appended, with the same targets and lines.
-/

import LineScript.Proofs.ExpressionTurns
import LineScript.Proofs.Precedence

namespace LineScript.Compile.Precedence

open LineScript.Code

/-- What is left to do once a value with all behind it is complete: for each
operator on the stack, the operators that bind tighter, and then the operator
itself; for each parenthesis, its content, its end and what is behind it. -/
def resume : List Pending → Draft → Result
  | [], d => operators 0 false d
  | .paren :: pending, d => do
    let d₁ ← operators 0 true d
    let d₂ ← close d₁
    let d₃ ← suffixes d₂
    resume pending d₃
  | .operator o skip? :: pending, d => do
    let d₁ ← operators (o.effective + 1) (pending.contains .paren) d
    let d₂ ← emitOperator (concluding (pending.contains .paren) d₁) o skip?
    resume pending d₂

/-! ## Emitting a pending operator -/

theorem emitOperator_binary (o : BinaryOp) (address : Nat) (d : Draft) :
    emitOperator d o.operator (o.skip?.map fun _ => address) = combine o address d := by
  unfold combine
  cases o <;> rfl

theorem emitOperator_unary (o : UnaryOp) (d : Draft) :
    emitOperator d o.operator none = .ok (apply o d) := by
  cases o <;> rfl

/-- The draft in which the next token counts as consumed for the line of what is
emitted, but is still there. -/
def reaching (t : Token) (d : Draft) : Draft := { d with consumed? := some t.line }

theorem next_reaching {d : Draft} {t : Token} {rest : List Token}
    (h : d.rest = t :: rest) : (reaching t d).next = d.next := by
  rw [Draft.next_of_cons h]
  exact Draft.next_of_cons (d := reaching t d) h

theorem emit_next {d : Draft} {t : Token} {rest : List Token} (h : d.rest = t :: rest)
    (hline : d.consumed? = some t.line) (op : Opcode) : d.next.emit op = (d.emit op).next := by
  rw [Draft.next_of_cons h, Draft.next_of_cons (d := d.emit op) h]
  simp [Draft.emit, Draft.emitInstruction, Draft.line, hline]

theorem patchHere_next {d : Draft} {t : Token} {rest : List Token} (h : d.rest = t :: rest)
    (hline : d.consumed? = some t.line) (address : Nat) :
    d.next.patchHere address = (d.patchHere address).map Draft.next := by
  rw [Draft.next_of_cons h]
  unfold Draft.patchHere
  cases hbody : d.body.patchHere address with
  | ok body =>
      simp only [Except.map]
      rw [Draft.next_of_cons (d := { d with body := body }) h]
  | error e => simp [Except.map, Draft.line, hline]

/-- An operator can be emitted before the token that ends its operand is consumed,
on the line of that token, or after. -/
theorem emitOperator_next {d : Draft} {t : Token} {rest : List Token} (h : d.rest = t :: rest)
    (o : Operator) (skip? : Option Nat) :
    emitOperator d.next o skip? =
      (emitOperator (reaching t d) o skip?).map Draft.next := by
  rw [← next_reaching h]
  obtain ⟨op?, priority, right⟩ := o
  have hrest : (reaching t d).rest = t :: rest := h
  cases op? with
  | none =>
      cases skip? with
      | none => rfl
      | some address => exact patchHere_next hrest rfl address
  | some op =>
      have hemit := emit_next hrest rfl op
      cases skip? with
      | none => exact congrArg Except.ok hemit
      | some address =>
          change ((reaching t d).next.emit op).patchHere address = _
          rw [hemit]
          exact patchHere_next (d := (reaching t d).emit op) hrest rfl address

/-- Emitting an operator leaves the tokens and the last line alone. -/
theorem emitOperator_tokens {d d' : Draft} {o : Operator} {skip? : Option Nat}
    (h : emitOperator d o skip? = .ok d') :
    d'.rest = d.rest ∧ d'.consumed? = d.consumed? ∧ d'.lastLine = d.lastLine := by
  obtain ⟨op?, priority, right⟩ := o
  cases op? with
  | none =>
      cases skip? with
      | none =>
          cases h
          exact ⟨rfl, rfl, rfl⟩
      | some address =>
          obtain ⟨body, -, rfl⟩ := Draft.patchHere_eq_ok h
          exact ⟨rfl, rfl, rfl⟩
  | some op =>
      cases skip? with
      | none =>
          cases h
          exact ⟨rfl, rfl, rfl⟩
      | some address =>
          obtain ⟨body, -, rfl⟩ := Draft.patchHere_eq_ok h
          exact ⟨rfl, rfl, rfl⟩

/-! ## Stopping -/

/-- At a token that neither continues nor contradicts it, a run of operators ends. -/
theorem operators_of_stop {d : Draft} (hvalue : beginsValue d.peek.kind = false)
    (hbinary : BinaryOp.ofKind? d.peek.kind = none) (level : Nat) (enclosed : Bool) :
    operators level enclosed d = .ok d := by
  rw [operators_eq, if_neg (by simp [hvalue]), hbinary]

theorem operators_of_looser {d : Draft} {o : BinaryOp} {level : Nat}
    (hbinary : BinaryOp.ofKind? d.peek.kind = some o) (hlevel : o.level < level)
    (enclosed : Bool) : operators level enclosed d = .ok d := by
  have hkind := BinaryOp.kind_of_ofKind? hbinary
  rw [operators_eq, if_neg (by rw [← hkind]; cases o <;> decide), hbinary]
  exact if_pos hlevel

theorem operators_of_tighter {d : Draft} {o : BinaryOp} {level : Nat}
    (hbinary : BinaryOp.ofKind? d.peek.kind = some o) (hlevel : level ≤ o.level)
    (enclosed : Bool) :
    operators level enclosed d =
      climb (o.level + 1) enclosed false (begin o d.next) >>= fun d₁ =>
        combine o d.next.address (concluding enclosed d₁) >>= operators level enclosed := by
  have hkind := BinaryOp.kind_of_ofKind? hbinary
  rw [operators_eq, if_neg (by rw [← hkind]; cases o <;> decide), hbinary]
  exact if_neg (by omega)

/-- A value that follows a value is refused whatever is pending. -/
theorem resume_of_beginsValue {d : Draft} (h : beginsValue d.peek.kind = true)
    (pending : List Pending) : resume pending d = .error (valueAfterValue d.peek) := by
  cases pending with
  | nil => rw [resume, operators_eq, if_pos h]
  | cons entry pending =>
      cases entry <;> rw [resume, operators_eq, if_pos h] <;> rfl

/-- At the end of an expression, what is left to do is to emit what is pending. -/
theorem resume_of_end {d : Draft} (hvalue : beginsValue d.peek.kind = false)
    (hbinary : BinaryOp.ofKind? d.peek.kind = none) (pending : List Pending)
    (hparen : d.peek.kind = .rightParen → pending.contains .paren = false) :
    resume pending d = emitPending d pending := by
  induction pending generalizing d with
  | nil => exact operators_of_stop hvalue hbinary 0 false
  | cons entry pending ih =>
      cases entry with
      | paren =>
          have hkind : d.peek.kind ≠ .rightParen := fun h => by simpa using hparen h
          rw [resume, operators_of_stop hvalue hbinary]
          simp [close, Draft.sees, hkind, emitPending]
      | operator o skip? =>
          have hinner : d.peek.kind = .rightParen → pending.contains .paren = false :=
            fun h => by simpa using hparen h
          have hsame : concluding (pending.contains .paren) d = d := by
            unfold concluding
            rw [if_neg]
            by_cases h : d.peek.kind = .rightParen
            · rw [hinner h]
              simp [hbinary]
            · simp [hbinary, h]
          rw [resume, operators_of_stop hvalue hbinary, ok_bind, hsame, emitPending]
          cases hemit : emitOperator d o skip? with
          | error e => rfl
          | ok d₁ =>
              obtain ⟨hrest, -, hlast⟩ := emitOperator_tokens hemit
              have hpeek : d₁.peek = d.peek := by rw [Draft.peek, Draft.peek, hrest, hlast]
              exact ih (hpeek ▸ hvalue) (hpeek ▸ hbinary) (hpeek ▸ hinner)

/-! ## Going on -/

theorem closeParen_eq_none {d : Draft} {pending : List Pending}
    (h : pending.contains .paren = false) : closeParen d pending = none := by
  cases pending with
  | nil => rfl
  | cons entry pending =>
      cases entry with
      | paren => simp at h
      | operator o skip? =>
          have hinner : pending.contains .paren = false := by simpa using h
          rw [closeParen, if_neg (by rw [hinner]; decide)]

/-- A closing parenthesis finishes what is pending since the opening one. -/
theorem resume_of_rightParen {d : Draft} {pending : List Pending}
    (hkind : d.peek.kind = .rightParen) (hparen : pending.contains .paren = true) :
    ∃ r, closeParen d.next pending = some r ∧
      resume pending d = r >>= fun r => suffixes r.1 >>= resume r.2 := by
  have hvalue : beginsValue d.peek.kind = false := by rw [hkind]; rfl
  have hbinary : BinaryOp.ofKind? d.peek.kind = none := by rw [hkind]; rfl
  obtain ⟨rest, hrest⟩ := Draft.rest_eq_cons_of_peek (d := d) (by rw [hkind]; decide)
  induction pending generalizing d with
  | nil => simp at hparen
  | cons entry pending ih =>
      cases entry with
      | paren =>
          refine ⟨.ok (d.next, pending), rfl, ?_⟩
          rw [resume, operators_of_stop hvalue hbinary]
          simp [close, Draft.sees, hkind]
      | operator o skip? =>
          have hinner : pending.contains .paren = true := by simpa using hparen
          have hconcluding : concluding true d = reaching d.peek d := by
            simp [concluding, hkind, reaching]
          rw [closeParen, if_pos hinner, resume, operators_of_stop hvalue hbinary, ok_bind, hinner,
            hconcluding, emitOperator_next hrest]
          cases hemit : emitOperator (reaching d.peek d) o skip? with
          | error e => exact ⟨.error e, rfl, rfl⟩
          | ok d₁ =>
              obtain ⟨hrest₁, -, hlast⟩ := emitOperator_tokens hemit
              have hpeek : d₁.peek = d.peek := by
                rw [Draft.peek, Draft.peek, hrest₁, hlast]
                rfl
              exact ih (hpeek ▸ hkind) hinner (hpeek ▸ hvalue) (hpeek ▸ hbinary)
                (by rw [hrest₁, hpeek]; exact hrest)

theorem concluding_of_binary {d : Draft} {o : BinaryOp}
    (hbinary : BinaryOp.ofKind? d.peek.kind = some o) (enclosed : Bool) :
    concluding enclosed d = reaching d.peek d := by
  simp [concluding, hbinary, reaching]

/-- The entry that a binary operator leaves on the stack. -/
def waiting (o : BinaryOp) (d : Draft) : Pending :=
  .operator o.operator (o.skip?.map fun _ => d.address)

theorem contains_operator (o : Operator) (skip? : Option Nat) (pending : List Pending) :
    (Pending.operator o skip? :: pending).contains .paren = pending.contains .paren := by
  simp

/-- The level of the operators that join the operand being read. -/
def stackLevel : List Pending → Nat
  | .operator o _ :: _ => o.effective + 1
  | _ => 0

/-- Whatever is pending, the next thing to do is to read the operators that bind
tighter than the innermost entry. -/
theorem resume_eq_operators (pending : List Pending) :
    ∃ continuation, ∀ d, resume pending d =
      operators (stackLevel pending) (pending.contains .paren) d >>= continuation := by
  cases pending with
  | nil => exact ⟨.ok, fun d => (bind_pure _).symm⟩
  | cons entry pending =>
      cases entry with
      | paren => exact ⟨_, fun d => rfl⟩
      | operator o skip? =>
          refine ⟨fun d₁ => emitOperator (concluding (pending.contains .paren) d₁) o skip? >>=
            resume pending, fun d => ?_⟩
          rw [contains_operator]
          rfl

/-- An operator that binds tighter than what is pending waits for its right operand
on top of it. -/
theorem resume_of_tighter {d : Draft} {o : BinaryOp} {pending : List Pending}
    (hbinary : BinaryOp.ofKind? d.peek.kind = some o) (hlevel : stackLevel pending ≤ o.level) :
    resume pending d = operand (pending.contains .paren) false (begin o d.next) >>=
      resume (waiting o d.next :: pending) := by
  obtain ⟨continuation, hresume⟩ := resume_eq_operators pending
  rw [hresume, operators_of_tighter hbinary hlevel, climb_eq]
  simp only [bind_assoc]
  congr 1
  funext d₁
  simp only [waiting, resume, emitOperator_binary, BinaryOp.effective_operator, hresume]

/-- A binary operator first reduces what binds at least as tightly to its left, and
then waits for its right operand. -/
theorem resume_of_binary {d : Draft} {o : BinaryOp} (pending : List Pending)
    (hbinary : BinaryOp.ofKind? d.peek.kind = some o) :
    resume pending d = reduce d.next o.level pending >>= fun r =>
      operand (r.2.contains .paren) false (begin o r.1) >>= resume (waiting o r.1 :: r.2) := by
  have hreal : d.peek.kind ≠ .endOfInput := fun h => by rw [h] at hbinary; cases hbinary
  obtain ⟨rest, hrest⟩ := Draft.rest_eq_cons_of_peek hreal
  induction pending generalizing d with
  | nil => exact resume_of_tighter hbinary (Nat.zero_le _)
  | cons entry pending ih =>
      cases entry with
      | paren => exact resume_of_tighter hbinary (Nat.zero_le _)
      | operator top skip? =>
          rw [reduce]
          by_cases hlevel : top.effective < o.level
          · rw [if_pos hlevel]
            exact resume_of_tighter hbinary hlevel
          · rw [if_neg hlevel, resume, operators_of_looser hbinary (by omega), ok_bind,
              concluding_of_binary hbinary, emitOperator_next hrest]
            cases hemit : emitOperator (reaching d.peek d) top skip? with
            | error e => rfl
            | ok d₁ =>
                obtain ⟨hrest₁, -, hlast⟩ := emitOperator_tokens hemit
                have hpeek : d₁.peek = d.peek := by
                  rw [Draft.peek, Draft.peek, hrest₁, hlast]
                  rfl
                exact ih (hpeek ▸ hbinary) (hpeek ▸ hreal) (by rw [hrest₁, hpeek]; exact hrest)

/-! ## The loop -/

theorem rest_of_reduce {d : Draft} {priority : Nat} {pending : List Pending}
    {r : Draft × List Pending} (h : reduce d priority pending = .ok r) :
    r.1.rest = d.rest := by
  induction pending generalizing d with
  | nil =>
      cases h
      rfl
  | cons entry pending ih =>
      cases entry with
      | paren =>
          cases h
          rfl
      | operator o skip? =>
          rw [reduce] at h
          split at h
          · cases h
            rfl
          · split at h
            · rename_i d₁ hemit
              rw [ih h, (emitOperator_tokens hemit).1]
            · cases h

theorem rest_of_closeParen {d : Draft} {pending : List Pending}
    {r : Draft × List Pending} (h : closeParen d pending = some (.ok r)) :
    r.1.rest = d.rest := by
  induction pending generalizing d with
  | nil => cases h
  | cons entry pending ih =>
      cases entry with
      | paren =>
          cases h
          rfl
      | operator o skip? =>
          rw [closeParen] at h
          split at h
          · split at h
            · rename_i d₁ hemit
              rw [ih h, (emitOperator_tokens hemit).1]
            · cases h
          · cases h

/-- Meeting a binary operator after a value. -/
theorem operator_binary (o : BinaryOp) (d : Draft) (pending : List Pending) :
    Progress.operator ⟨pending, true, false⟩ d o.operator =
      reduce d o.level pending >>= fun r =>
        .ok (begin o r.1, ⟨waiting o r.1 :: r.2, false, false⟩) := by
  unfold Progress.operator
  rw [if_pos rfl]
  have hpriority : o.operator.priority = o.level := by cases o <;> rfl
  rw [hpriority]
  cases reduce d o.level pending with
  | error e => rfl
  | ok r => cases o <;> rfl

/-- Meeting a unary operator before a value. -/
theorem operator_unary (o : UnaryOp) (d : Draft) (pending : List Pending) (fresh : Bool) :
    Progress.operator ⟨pending, false, fresh⟩ d o.operator =
      .ok (d, ⟨.operator o.operator none :: pending, false, false⟩) := by
  cases o <;> rfl

theorem beginsValue_eq_false {kind : TokenKind} (number : kind ≠ .number)
    (string : kind ≠ .string) (boolean : kind ≠ .boolean) (null : kind ≠ .null)
    (identifier : kind ≠ .identifier) (leftParen : kind ≠ .leftParen)
    (leftBrace : kind ≠ .leftBrace) : beginsValue kind = false := by
  unfold beginsValue
  split <;> first | contradiction | rfl

/-- The two compilers agree on all drafts with fewer than `bound` tokens left, for
enough fuel: after a complete value and before one. -/
structure Agree (bound : Nat) : Prop where
  complete : ∀ (fuel : Nat) (d : Draft) (pending : List Pending),
    d.rest.length < bound → 4 * d.rest.length < fuel →
      terms fuel d ⟨pending, true, false⟩ = suffixes d >>= resume pending
  incomplete : ∀ (fuel : Nat) (d : Draft) (pending : List Pending) (fresh : Bool),
    d.rest.length < bound → 4 * d.rest.length < fuel →
      terms fuel d ⟨pending, false, fresh⟩ =
        operand (pending.contains .paren) fresh d >>= resume pending

namespace Agree

variable {bound : Nat} (agree : Agree bound)
include agree

theorem expressionWith_eq {fuel : Nat} {d : Draft} (hbound : d.rest.length < bound)
    (hfuel : 4 * d.rest.length + 1 < fuel) : expressionWith fuel d = expression d := by
  obtain ⟨fuel, rfl⟩ : ∃ n, fuel = n + 1 := ⟨fuel - 1, by omega⟩
  rw [expressionWith, expression, climb_eq]
  exact agree.incomplete fuel d [] true hbound (by omega)

theorem arguments_eq {fuel : Nat} {d : Draft} (count : Nat) (hbound : d.rest.length < bound)
    (hfuel : 4 * d.rest.length + 2 < fuel) :
    Compile.arguments fuel d count = arguments d count := by
  induction fuel generalizing d count with
  | zero => omega
  | succ fuel ih =>
      rw [Compile.arguments, agree.expressionWith_eq hbound (by omega), Precedence.arguments_eq]
      cases hd : expression d with
      | error e => rfl
      | ok d₁ =>
          have hlt := length_climb_lt hd
          have hnext := d₁.length_next_le
          have hskip := d₁.next.length_skipLineBreaks_le
          dsimp only [ok_bind]
          split
          · exact ih (count + 1) (by omega) (by omega)
          · rfl

theorem elements_eq {fuel : Nat} {d : Draft} (hbound : d.rest.length < bound)
    (hfuel : 4 * d.rest.length + 2 < fuel) : Compile.elements fuel d = elements d := by
  induction fuel generalizing d with
  | zero => omega
  | succ fuel ih =>
      rw [Compile.elements, agree.expressionWith_eq hbound (by omega), Precedence.elements_eq]
      split
      · rfl
      · cases hd : expression d with
        | error e => rfl
        | ok d₁ =>
            have hlt := length_climb_lt hd
            have hnext : (d₁.emit .append).next.rest.length ≤ d₁.rest.length :=
              Draft.length_next_le _
            have hskip := (d₁.emit .append).next.length_skipLineBreaks_le
            dsimp only [ok_bind]
            split
            · exact ih (by omega) (by omega)
            · rfl

theorem members_eq {fuel : Nat} {d : Draft} (hbound : d.rest.length < bound)
    (hfuel : 4 * d.rest.length + 2 < fuel) : Compile.members fuel d = members d := by
  induction fuel generalizing d with
  | zero => omega
  | succ fuel ih =>
      rw [Compile.members, Precedence.members_eq]
      split
      · rfl
      · cases hname : d.expectText .identifier with
        | error e => rfl
        | ok r =>
            obtain ⟨member, d₁⟩ := r
            have hlt₁ : d₁.rest.length < d.rest.length :=
              length_expectText_lt (by decide) hname
            dsimp only [ok_bind]
            cases hequal : d₁.expect .equal with
            | error e => rfl
            | ok d₂ =>
                have hlt₂ := length_expect_lt (by decide) hequal
                have hskip₂ := d₂.length_skipLineBreaks_le
                dsimp only [ok_bind]
                rw [agree.expressionWith_eq (by omega) (by omega)]
                cases hd : expression d₂.skipLineBreaks with
                | error e => rfl
                | ok d₃ =>
                    have hlt := length_climb_lt hd
                    have hnext : (d₃.emitName .set member).next.rest.length ≤ d₃.rest.length :=
                      Draft.length_next_le _
                    have hskip := (d₃.emitName .set member).next.length_skipLineBreaks_le
                    dsimp only [ok_bind]
                    split
                    · exact ih (by omega) (by omega)
                    · rfl

theorem subscript_eq {fuel : Nat} {d : Draft} (hbound : d.rest.length < bound)
    (hfuel : 4 * d.rest.length + 2 < fuel) :
    subscript fuel d = expression d >>= fun d₁ =>
      d₁.skipLineBreaks.expect .rightBracket >>= fun d₂ => .ok (d₂.emit .index) := by
  obtain ⟨fuel, rfl⟩ : ∃ n, fuel = n + 1 := ⟨fuel - 1, by omega⟩
  rw [subscript_succ, agree.expressionWith_eq hbound (by omega)]

theorem call_eq {fuel : Nat} {d : Draft} (hname : d.peek.kind = .identifier)
    (hbound : d.rest.length ≤ bound) (hfuel : 4 * d.rest.length ≤ fuel) :
    Compile.call fuel d = call d.peek d.next := by
  have hlt : d.next.rest.length < d.rest.length :=
    Draft.length_next_lt (by rw [hname]; decide)
  have hnext := d.next.length_next_le
  have hskip := d.next.next.length_skipLineBreaks_le
  obtain ⟨fuel, rfl⟩ : ∃ n, fuel = n + 1 := ⟨fuel - 1, by omega⟩
  have harity : d.next.arity? d.peek.text = d.arity? d.peek.text := by
    unfold Draft.next
    split <;> rfl
  rw [call_succ, Precedence.call_eq, harity]
  cases d.arity? d.peek.text with
  | none => rfl
  | some arity =>
      dsimp only
      rw [agree.arguments_eq 0 (by omega) (by omega)]

/-- After a complete value. -/
theorem complete_step (fuel : Nat) (d : Draft) (pending : List Pending)
    (hbound : d.rest.length ≤ bound) (hfuel : 4 * d.rest.length < fuel) :
    terms fuel d ⟨pending, true, false⟩ = suffixes d >>= resume pending := by
  obtain ⟨fuel, rfl⟩ : ∃ n, fuel = n + 1 := ⟨fuel - 1, by omega⟩
  have refused (h : beginsValue d.peek.kind = true) :
      (Except.ok d >>= resume pending) = .error (valueAfterValue d.peek) :=
    resume_of_beginsValue h pending
  rw [terms, suffixes_eq]
  dsimp only
  split
  all_goals rename_i hkind
  all_goals simp only [hkind]
  · rw [ok_bind, resume_of_end (by rw [hkind]; rfl) (by rw [hkind]; rfl) pending
      (by rw [hkind]; simp)]
    rfl
  · rw [if_pos trivial, refused (by rw [hkind]; rfl), valueAfterValue, hkind]
  · rw [if_pos trivial, refused (by rw [hkind]; rfl), valueAfterValue, hkind]
  · rw [if_pos trivial, refused (by rw [hkind]; rfl), valueAfterValue, hkind]
  · rw [if_pos trivial, refused (by rw [hkind]; rfl), valueAfterValue, hkind]
  · rw [if_pos trivial, refused (by rw [hkind]; rfl), valueAfterValue, hkind]
  · rw [if_pos trivial, refused (by rw [hkind]; rfl), valueAfterValue, hkind]
  · -- a closing parenthesis ends a parenthesis of this expression or the expression itself
    rw [ok_bind]
    cases hparen : pending.contains .paren with
    | false =>
        rw [closeParen_eq_none hparen, resume_of_end (by rw [hkind]; rfl) (by rw [hkind]; rfl)
          pending (fun _ => hparen)]
        rfl
    | true =>
        obtain ⟨r, hclose, hresume⟩ := resume_of_rightParen hkind hparen
        rw [hclose, hresume]
        cases r with
        | error e => rfl
        | ok r =>
            have hlt : d.next.rest.length < d.rest.length :=
              Draft.length_next_lt (by rw [hkind]; decide)
            have hrest := congrArg List.length (rest_of_closeParen hclose)
            exact agree.complete fuel r.1 r.2 (by omega) (by omega)
  · have hlt : d.next.rest.length < d.rest.length :=
      Draft.length_next_lt (by rw [hkind]; decide)
    have hskip := d.next.length_skipLineBreaks_le
    rw [if_pos trivial, agree.subscript_eq (by omega) (by omega)]
    cases hindex : expression d.next.skipLineBreaks with
    | error e => rfl
    | ok d₁ =>
        have hlt₁ := length_climb_lt hindex
        have hskip₁ := d₁.length_skipLineBreaks_le
        dsimp only [ok_bind]
        cases hclose : d₁.skipLineBreaks.expect .rightBracket with
        | error e => rfl
        | ok d₂ =>
            have hlt₂ := length_expect_lt (by decide) hclose
            exact agree.complete fuel (d₂.emit .index) pending (by simp; omega) (by simp; omega)
  · rw [if_pos trivial, refused (by rw [hkind]; rfl), valueAfterValue, hkind]
  · have hlt : d.next.rest.length < d.rest.length :=
      Draft.length_next_lt (by rw [hkind]; decide)
    cases hmember : d.next.expectText .identifier with
    | error e => rfl
    | ok r =>
        have hlt₁ := length_expectText_lt (by decide) hmember
        exact agree.complete fuel (r.2.emitName .get r.1) pending (by simp; omega)
          (by simp; omega)
  · rw [if_pos trivial, BinaryOp.binary?_eq, ok_bind]
    cases hbinary : BinaryOp.ofKind? d.peek.kind with
    | none =>
        rw [resume_of_end (beginsValue_eq_false ‹_› ‹_› ‹_› ‹_› ‹_› ‹_› ‹_›) hbinary pending
          (fun h => absurd h ‹_›)]
        rfl
    | some o =>
        have hlt : d.next.rest.length < d.rest.length := Draft.length_next_lt ‹_›
        rw [Option.map_some, resume_of_binary pending hbinary]
        dsimp only
        rw [operator_binary]
        cases hreduce : reduce d.next o.level pending with
        | error e => rfl
        | ok r =>
            have hrest := congrArg List.length (rest_of_reduce hreduce)
            exact agree.incomplete fuel (begin o r.1) (waiting o r.1 :: r.2) false
              (by simp; omega) (by simp; omega)

/-- Before a value. -/
theorem incomplete_step (fuel : Nat) (d : Draft) (pending : List Pending) (fresh : Bool)
    (hbound : d.rest.length ≤ bound) (hfuel : 4 * d.rest.length < fuel) :
    terms fuel d ⟨pending, false, fresh⟩ =
      operand (pending.contains .paren) fresh d >>= resume pending := by
  obtain ⟨fuel, rfl⟩ : ∃ n, fuel = n + 1 := ⟨fuel - 1, by omega⟩
  have hshorter (h : d.peek.kind ≠ .endOfInput) : d.next.rest.length < d.rest.length :=
    Draft.length_next_lt h
  have hskip := d.next.length_skipLineBreaks_le
  rw [terms, operand_eq, primary_eq]
  dsimp only
  split
  all_goals rename_i hkind
  all_goals try rw [show UnaryOp.ofKind? d.peek.kind = none from by rw [hkind]; rfl]
  all_goals simp only [hkind]
  · cases fresh <;> rfl
  all_goals try have hlt := hshorter (by rw [hkind]; decide)
  · exact agree.complete fuel (d.next.emitValue d.peek.value) pending (by simp; omega)
      (by simp; omega)
  · exact agree.complete fuel (d.next.emitValue d.peek.value) pending (by simp; omega)
      (by simp; omega)
  · exact agree.complete fuel (d.next.emitValue d.peek.value) pending (by simp; omega)
      (by simp; omega)
  · exact agree.complete fuel (d.next.emitValue .null) pending (by simp; omega) (by simp; omega)
  · rw [if_neg (by decide)]
    split
    · rw [agree.call_eq hkind hbound (by omega)]
      cases hcall : call d.peek d.next with
      | error e => rfl
      | ok d₁ =>
          have hle : d₁.rest.length ≤ d.next.rest.length := Bounded.le_of_value hcall
          exact agree.complete fuel d₁ pending (by omega) (by omega)
    · split
      · exact agree.complete fuel (d.next.emitName .load d.peek.text) pending (by simp; omega)
          (by simp; omega)
      · rfl
  · have hinner := agree.incomplete fuel d.next (.paren :: pending) false (by omega) (by omega)
    rw [if_neg (by decide), climb_eq]
    simp only [bind_assoc]
    exact hinner
  · rfl
  · rw [if_neg (by decide)]
    cases fresh with
    | false => rfl
    | true =>
        rw [agree.elements_eq (by simp; omega) (by simp; omega)]
        cases hitems : elements (d.next.skipLineBreaks.emit .list) with
        | error e => rfl
        | ok d₁ =>
            have hle : d₁.rest.length ≤ d.next.skipLineBreaks.rest.length :=
              Bounded.le_of_value hitems
            have hskip₁ := d₁.length_skipLineBreaks_le
            simp only [ok_bind, if_true]
            cases hclose : d₁.skipLineBreaks.expect .rightBracket with
            | error e => rfl
            | ok d₂ =>
                have hlt₂ := length_expect_lt (by decide) hclose
                exact agree.complete fuel d₂ pending (by omega) (by omega)
  · rw [if_neg (by decide), agree.members_eq (by simp; omega) (by simp; omega)]
    cases hmembers : members (d.next.skipLineBreaks.emit .object) with
    | error e => rfl
    | ok d₁ =>
        have hle : d₁.rest.length ≤ d.next.skipLineBreaks.rest.length :=
          Bounded.le_of_value hmembers
        have hskip₁ := d₁.length_skipLineBreaks_le
        simp only [ok_bind]
        cases hclose : d₁.skipLineBreaks.expect .rightBrace with
        | error e => rfl
        | ok d₂ =>
            have hlt₂ := length_expect_lt (by decide) hclose
            exact agree.complete fuel d₂ pending (by omega) (by omega)
  · rfl
  · rw [if_neg (by decide), UnaryOp.unary?_eq]
    cases hunary : UnaryOp.ofKind? d.peek.kind with
    | none =>
        cases fresh <;> rfl
    | some o =>
        have hlt := hshorter ‹_›
        have hinner := agree.incomplete fuel d.next (.operator o.operator none :: pending) false
          (by omega) (by omega)
        rw [Option.map_some]
        dsimp only
        rw [operator_unary, climb_eq]
        simp only [bind_assoc]
        rw [hinner, contains_operator]
        congr 1
        funext d₁
        rw [resume, UnaryOp.effective_operator]
        simp only [emitOperator_unary]
        rfl

end Agree

/-- Each bound follows from the one before, since the loop consumes a token before
it comes back to itself. -/
theorem agree (bound : Nat) : Agree bound := by
  induction bound with
  | zero => exact ⟨fun _ _ _ h => absurd h (Nat.not_lt_zero _),
      fun _ _ _ _ h => absurd h (Nat.not_lt_zero _)⟩
  | succ bound ih =>
      exact ⟨fun fuel d pending hbound => ih.complete_step fuel d pending (by omega),
        fun fuel d pending fresh hbound => ih.incomplete_step fuel d pending fresh (by omega)⟩

theorem expression_eq (d : Draft) : Compile.expression d = expression d :=
  (agree (d.rest.length + 1)).expressionWith_eq (by omega) (by omega)

/-- The one-pass compiler of expressions is the precedence grammar: for every draft,
whatever its tokens, its names and the code before, both fail with the same error or
both consume the same tokens and append the same instructions. -/
theorem expression_eq_precedence : Compile.expression = Precedence.expression :=
  funext expression_eq

end LineScript.Compile.Precedence
