/-
# Compilations in lockstep

Two compilations of the same tokens with different host functions do the same, step by step, as long as
the names they look up mean the same to both. They part at the first name that only one of them knows,
and there the other one fails.

What is needed on the way is left open: a condition on the drafts that every step has to keep, what may
be said of the errors that are raised under it, and the errors at which the two may part. The compiler
is gone through once, for all such conditions; with the same host functions on both sides a condition on
the drafts and the errors of a single compilation comes out of it.
-/

import LineScript.Proofs.CompilationSteps
import LineScript.Proofs.LongerInput

namespace LineScript.Compile

open LineScript.Code

/-! ## Drafts with other host functions -/

namespace Draft

/-- The same draft with other host functions. -/
def hostedBy (natives : Dict (List String)) (d : Draft) : Draft := { d with natives := natives }

variable (natives : Dict (List String)) (d : Draft)

theorem peek_hostedBy : (d.hostedBy natives).peek = d.peek := rfl

theorem peekSecond_hostedBy : (d.hostedBy natives).peekSecond = d.peekSecond := rfl

theorem atEnd_hostedBy : (d.hostedBy natives).atEnd = d.atEnd := rfl

theorem sees_hostedBy (kind : TokenKind) : (d.hostedBy natives).sees kind = d.sees kind := rfl

theorem sees?_hostedBy (name : String) : (d.hostedBy natives).sees? name = d.sees? name := rfl

theorem body_hostedBy : (d.hostedBy natives).body = d.body := rfl

theorem next_hostedBy : (d.hostedBy natives).next = d.next.hostedBy natives := by
  have hrest : (d.hostedBy natives).rest = d.rest := rfl
  unfold next
  rw [hrest]
  cases d.rest <;> rfl

theorem skipLineBreaks_hostedBy :
    (d.hostedBy natives).skipLineBreaks = d.skipLineBreaks.hostedBy natives := by
  unfold skipLineBreaks
  change (d.hostedBy natives).skipLineBreaksFrom d.rest d.consumed? = _
  generalize d.rest = tokens, d.consumed? = consumed?
  induction tokens generalizing consumed? with
  | nil => rfl
  | cons t rest ih =>
      unfold skipLineBreaksFrom
      split
      · exact ih _
      · rfl

theorem enter_hostedBy (name : String) (params : List String) :
    (d.hostedBy natives).enter name params = (d.enter name params).hostedBy natives := by
  unfold enter
  dsimp only
  split <;> rfl

theorem leave_hostedBy : (d.hostedBy natives).leave = d.leave.hostedBy natives := by
  have houter : (d.hostedBy natives).outer? = d.outer? := rfl
  unfold leave
  rw [houter]
  cases d.outer? <;> rfl

end Draft

/-! ## Lockstep -/

/-- What is kept by every step of a compilation, what is said of its errors, and the errors at which the
compilation with other host functions may part from it. -/
structure Lockstep where
  /-- The host functions of the other compilation. -/
  natives : Dict (List String)
  Inv : Draft → Prop
  Good : CompileError → Prop
  Parts : CompileError → Prop
  next : ∀ {d}, Inv d → Inv d.next
  emit : ∀ {d} {i : Instruction}, Inv d → i.line = d.line → Inv { d with body := d.body.emit i }
  patch : ∀ {d body address}, Inv d → d.body.patchHere address = .ok body →
    Inv { d with body := body }
  declare : ∀ {d} (name), Inv d → Inv (d.declare name)
  enter : ∀ {d} (name params), Inv d → Inv (d.enter name params)
  leave : ∀ {d}, Inv d → Inv d.leave
  /-- The next token counts as consumed as far as its line goes. -/
  seen : ∀ {d}, Inv d → Inv { d with consumed? := some d.peek.line }
  /-- An error at the next token. -/
  atNext : ∀ {d}, Inv d → ∀ cause, Good (.at_ d.peek cause)
  /-- An error at the token consumed last. -/
  atLast : ∀ {d}, Inv d → ∀ cause, Good { cause := cause, line := d.line }
  /-- A call finds the same in both compilations, or nothing in this one. -/
  called : ∀ {d}, Inv d → ∀ name, (d.hostedBy natives).arity? name = d.arity? name ∨
    d.arity? name = none ∧ ∀ t, Parts (.at_ t (.undefinedFunction name))
  /-- The name of a new function is as new in both compilations. -/
  defined : ∀ {d}, Inv d → d.peek.kind = .func → d.next.peek.kind = .identifier →
    ((d.next.next.hostedBy natives).arity? d.next.peek.text).isSome =
      (d.next.next.arity? d.next.peek.text).isSome

namespace Lockstep

variable (L : Lockstep)

/-- The results of a step of both compilations are alike, or this one has failed where they may part. -/
def Agree {α : Type} (same : α → α → Prop) (r r' : Except CompileError α) : Prop :=
  match r with
  | .ok a => ∃ a', r' = .ok a' ∧ same a a'
  | .error e => L.Parts e ∨ L.Good e ∧ r' = .error e

/-- The same draft with the other host functions. -/
def Same (d d' : Draft) : Prop := L.Inv d ∧ d' = d.hostedBy L.natives

/-- The same draft with the other host functions, and the same beside it. -/
def SameWith {α : Type} (x x' : Draft × α) : Prop := L.Same x.1 x'.1 ∧ x'.2 = x.2

section

variable {L} {α β : Type} {same : α → α → Prop} {same' : β → β → Prop} {r r' : Except CompileError α}

theorem Agree.bind (h : L.Agree same r r') {f f' : α → Except CompileError β}
    (hf : ∀ a a', r = .ok a → same a a' → L.Agree same' (f a) (f' a')) :
    L.Agree same' (r >>= f) (r' >>= f') := by
  cases r with
  | ok a =>
      obtain ⟨a', rfl, ha⟩ := h
      exact hf a a' rfl ha
  | error e =>
      obtain hparts | ⟨hgood, rfl⟩ := h
      · exact .inl hparts
      · exact .inr ⟨hgood, rfl⟩

theorem agree_ok {a a' : α} (h : same a a') : L.Agree same (.ok a) (.ok a') := ⟨a', rfl, h⟩

theorem agree_error {e : CompileError} (h : L.Good e) : L.Agree same (.error e) (.error e) :=
  .inr ⟨h, rfl⟩

end

/-- The results of a step are the same draft with the other host functions. -/
abbrev Tied (r r' : Result) : Prop := L.Agree L.Same r r'

section

variable {L} {α : Type} {same : α → α → Prop} {d : Draft} {r r' : Result}

theorem Tied.bind (h : L.Tied r r') {f f' : Draft → Except CompileError α}
    (hf : ∀ d, r = .ok d → L.Inv d → L.Agree same (f d) (f' (d.hostedBy L.natives))) :
    L.Agree same (r >>= f) (r' >>= f') := by
  apply Agree.bind h
  rintro d d' hd ⟨hinv, rfl⟩
  exact hf d hd hinv

theorem Agree.bindWith {β : Type} {r r' : Except CompileError (Draft × β)}
    (h : L.Agree L.SameWith r r') {f f' : Draft × β → Except CompileError α}
    (hf : ∀ d b, r = .ok (d, b) → L.Inv d →
      L.Agree same (f (d, b)) (f' (d.hostedBy L.natives, b))) :
    L.Agree same (r >>= f) (r' >>= f') := by
  apply h.bind
  rintro ⟨d, b⟩ ⟨d', b'⟩ hr ⟨⟨hinv, hd⟩, hb⟩
  dsimp only at hinv hd hb
  rw [hd, hb]
  exact hf d b hr hinv

theorem tied_ok (h : L.Inv d) : L.Tied (.ok d) (.ok (d.hostedBy L.natives)) :=
  agree_ok ⟨h, rfl⟩

theorem agree_at (h : L.Inv d) (cause : CompileCause) :
    L.Agree same (.error (.at_ d.peek cause)) (.error (.at_ d.peek cause)) :=
  agree_error (L.atNext h cause)

theorem emitInstruction (h : L.Inv d) (i : Instruction) : L.Inv (d.emitInstruction i) :=
  L.emit h rfl

theorem emitJump (h : L.Inv d) (op : Opcode) : L.Inv (d.emitJump op) := L.emit h rfl

theorem emitJumpTo (h : L.Inv d) (op : Opcode) (target : Nat) : L.Inv (d.emitJumpTo op target) :=
  L.emit h rfl

theorem skipLineBreaks (h : L.Inv d) : L.Inv d.skipLineBreaks :=
  Draft.keeps_skipLineBreaks (fun _ _ hd => L.next hd) h

theorem tied_expect (h : L.Inv d) (kind : TokenKind) :
    L.Tied (d.expect kind) ((d.hostedBy L.natives).expect kind) := by
  unfold Draft.expect
  rw [Draft.sees_hostedBy, Draft.next_hostedBy]
  split
  · exact tied_ok (L.next h)
  · exact agree_at h _

theorem agree_expectText (h : L.Inv d) (kind : TokenKind)
    {f f' : String × Draft → Except CompileError α}
    (hf : ∀ d₁, d.expect kind = .ok d₁ → L.Inv d₁ →
      L.Agree same (f (d.peek.text, d₁)) (f' (d.peek.text, d₁.hostedBy L.natives))) :
    L.Agree same (d.expectText kind >>= f) ((d.hostedBy L.natives).expectText kind >>= f') := by
  rw [Draft.expectText_bind, Draft.expectText_bind]
  exact (tied_expect h kind).bind hf

theorem tied_expectLineEnd (h : L.Inv d) :
    L.Tied d.expectLineEnd (d.hostedBy L.natives).expectLineEnd := by
  unfold Draft.expectLineEnd
  rw [Draft.atEnd_hostedBy]
  split
  · exact tied_ok h
  · exact tied_expect h _

/-- A closing bracket may stand on a line of its own. -/
theorem tied_closing (h : L.Inv d) (kind : TokenKind) :
    L.Tied (d.skipLineBreaks.expect kind) ((d.hostedBy L.natives).skipLineBreaks.expect kind) := by
  rw [Draft.skipLineBreaks_hostedBy]
  exact tied_expect (skipLineBreaks h) kind

theorem tied_patchHere (h : L.Inv d) (address : Nat) :
    L.Tied (d.patchHere address) ((d.hostedBy L.natives).patchHere address) := by
  unfold Draft.patchHere
  rw [Draft.body_hostedBy]
  cases hpatch : d.body.patchHere address with
  | ok body => exact tied_ok (L.patch h hpatch)
  | error e => exact agree_error (L.atLast h _)

theorem tied_patchAllHere (h : L.Inv d) (addresses : List Nat) :
    L.Tied (d.patchAllHere addresses) ((d.hostedBy L.natives).patchAllHere addresses) := by
  induction addresses generalizing d with
  | nil => exact tied_ok h
  | cons address addresses ih =>
      rw [Draft.patchAllHere_cons, Draft.patchAllHere_cons]
      exact (tied_patchHere h address).bind fun d₁ _ h₁ => ih h₁

theorem tied_checkResolved (h : L.Inv d) :
    L.Tied d.checkResolved (d.hostedBy L.natives).checkResolved := by
  unfold Draft.checkResolved
  rw [Draft.body_hostedBy]
  cases d.body.unresolved with
  | nil => exact tied_ok h
  | cons address addresses => exact agree_error (L.atLast h _)

/-- A comma is followed by another item, or the row ends here. -/
theorem agree_item (h : L.Inv d) (f f' g g' : Draft → Except CompileError α)
    (hf : d.next.skipLineBreaks.rest.length < d.rest.length → L.Inv d.next.skipLineBreaks →
      L.Agree same (f d.next.skipLineBreaks) (f' (d.next.skipLineBreaks.hostedBy L.natives)))
    (hg : L.Agree same (g d) (g' (d.hostedBy L.natives))) :
    L.Agree same (if d.sees .comma then f d.next.skipLineBreaks else g d)
      (if (d.hostedBy L.natives).sees .comma then f' (d.hostedBy L.natives).next.skipLineBreaks
        else g' (d.hostedBy L.natives)) := by
  rw [Draft.sees_hostedBy, Draft.next_hostedBy, Draft.skipLineBreaks_hostedBy]
  split
  · rename_i hsees
    rw [Draft.sees_iff] at hsees
    have hnext := Draft.length_next_lt (d := d) (by rw [hsees]; decide)
    have hskip := d.next.length_skipLineBreaks_le
    exact hf (by omega) (skipLineBreaks (L.next h))
  · exact hg

end

end Lockstep

/-! ## Expressions -/

namespace Precedence

open Lockstep

variable {L : Lockstep} {d : Draft}

theorem inv_concluding (h : L.Inv d) (enclosed : Bool) : L.Inv (concluding enclosed d) := by
  unfold concluding
  split
  · exact L.seen h
  · exact h

theorem concluding_hostedBy (enclosed : Bool) :
    concluding enclosed (d.hostedBy L.natives) = (concluding enclosed d).hostedBy L.natives := by
  unfold concluding
  rw [Draft.peek_hostedBy]
  split <;> rfl

theorem inv_begin (h : L.Inv d) (o : BinaryOp) : L.Inv (begin o d) := by
  unfold begin
  split
  · exact emitJump h _
  · exact h

theorem begin_hostedBy (o : BinaryOp) :
    begin o (d.hostedBy L.natives) = (begin o d).hostedBy L.natives := by
  unfold begin
  split <;> rfl

theorem tied_applied (h : L.Inv d) (o : UnaryOp) :
    L.Tied (.ok (apply o d)) (.ok (apply o (d.hostedBy L.natives))) := by
  unfold apply
  split
  · exact tied_ok (emitInstruction h _)
  · exact tied_ok h

theorem tied_combined (h : L.Inv d) (o : BinaryOp) (address : Nat) :
    L.Tied (combine o address d) (combine o address (d.hostedBy L.natives)) := by
  unfold combine
  split
  · exact tied_patchHere (emitInstruction h _) address
  · exact tied_ok (emitInstruction h _)

theorem tied_closed (h : L.Inv d) : L.Tied (close d) (close (d.hostedBy L.natives)) := by
  unfold close
  rw [Draft.sees_hostedBy, Draft.peek_hostedBy, Draft.next_hostedBy]
  split
  · exact tied_ok (L.next h)
  · exact agree_at h _

/-- Both compilations read the same, as long as fewer than `bound` tokens are left. -/
structure Together (L : Lockstep) (bound : Nat) : Prop where
  climb : ∀ (level : Nat) (enclosed fresh : Bool) {d : Draft}, d.rest.length < bound → L.Inv d →
    L.Tied (climb level enclosed fresh d) (climb level enclosed fresh (d.hostedBy L.natives))
  operators : ∀ (level : Nat) (enclosed : Bool) {d : Draft}, d.rest.length < bound → L.Inv d →
    L.Tied (operators level enclosed d) (operators level enclosed (d.hostedBy L.natives))
  suffixes : ∀ {d : Draft}, d.rest.length < bound → L.Inv d →
    L.Tied (suffixes d) (suffixes (d.hostedBy L.natives))
  arguments : ∀ {d : Draft} (count : Nat), d.rest.length < bound → L.Inv d →
    L.Agree L.SameWith (arguments d count) (arguments (d.hostedBy L.natives) count)
  elements : ∀ {d : Draft}, d.rest.length < bound → L.Inv d →
    L.Tied (elements d) (elements (d.hostedBy L.natives))
  members : ∀ {d : Draft}, d.rest.length < bound → L.Inv d →
    L.Tied (members d) (members (d.hostedBy L.natives))

namespace Together

variable {bound : Nat} (together : Together L bound)
include together

theorem operators_step (level : Nat) (enclosed : Bool) {d : Draft}
    (hbound : d.rest.length < bound + 1) (h : L.Inv d) :
    L.Tied (Precedence.operators level enclosed d)
      (Precedence.operators level enclosed (d.hostedBy L.natives)) := by
  rw [operators_eq, operators_eq, Draft.peek_hostedBy]
  split
  · unfold valueAfterValue
    split <;> exact agree_at h _
  cases ho : BinaryOp.ofKind? d.peek.kind with
  | none => exact tied_ok h
  | some o =>
      dsimp only
      split
      · exact tied_ok h
      have hnext : d.next.rest.length < d.rest.length :=
        Draft.length_next_lt fun hend => by rw [hend] at ho; cases ho
      rw [Draft.next_hostedBy, begin_hostedBy]
      apply (together.climb (o.level + 1) enclosed false (by rw [rest_begin]; omega)
        (inv_begin (L.next h) o)).bind
      intro d₁ hclimb h₁
      have hlt := length_climb_lt hclimb
      rw [rest_begin] at hlt
      rw [concluding_hostedBy]
      apply (tied_combined (inv_concluding h₁ enclosed) o d.next.address).bind
      intro d₂ hcombine h₂
      have hrest := rest_of_combine hcombine
      rw [rest_concluding] at hrest
      exact together.operators level enclosed (by rw [hrest]; omega) h₂

theorem suffixes_step {d : Draft} (hbound : d.rest.length < bound + 1) (h : L.Inv d) :
    L.Tied (Precedence.suffixes d) (Precedence.suffixes (d.hostedBy L.natives)) := by
  rw [suffixes_eq, suffixes_eq, Draft.peek_hostedBy, Draft.next_hostedBy]
  cases hkind : d.peek.kind
  case leftBracket =>
    have hnext := Draft.length_next_lt (d := d) (by rw [hkind]; decide)
    have hskip := d.next.length_skipLineBreaks_le
    rw [Draft.skipLineBreaks_hostedBy]
    apply (together.climb 0 false true (by omega) (skipLineBreaks (L.next h))).bind
    intro d₁ hexpression h₁
    have hlt := length_climb_lt hexpression
    have hskip₁ := d₁.length_skipLineBreaks_le
    apply (tied_closing h₁ .rightBracket).bind
    intro d₂ hexpect h₂
    have hlt₂ := length_expect_lt (by decide) hexpect
    exact together.suffixes (by rw [Draft.rest_emit]; omega) (emitInstruction h₂ _)
  case dot =>
    have hnext := Draft.length_next_lt (d := d) (by rw [hkind]; decide)
    apply agree_expectText (L.next h)
    intro d₁ hexpect h₁
    have hlt := length_expect_lt (by decide) hexpect
    exact together.suffixes (by rw [Draft.rest_emitName]; omega) (emitInstruction h₁ _)
  all_goals exact tied_ok h

theorem call_step {d : Draft} (hbound : d.next.rest.length < bound) (h : L.Inv d) :
    L.Tied (Precedence.call d.peek d.next) (Precedence.call d.peek (d.next.hostedBy L.natives)) := by
  have hnext := d.next.length_next_le
  have hskip := d.next.next.length_skipLineBreaks_le
  rw [call_eq, call_eq, Draft.next_hostedBy, Draft.skipLineBreaks_hostedBy]
  obtain hsame | ⟨hnone, hparts⟩ := L.called (L.next h) d.peek.text
  swap
  · rw [hnone]
    exact .inl (hparts d.peek)
  rw [hsame]
  cases d.next.arity? d.peek.text with
  | none => exact agree_at h _
  | some arity =>
      have hinner := skipLineBreaks (L.next (L.next h))
      have hgiven : L.Agree L.SameWith
          (if d.next.next.skipLineBreaks.sees .rightParen then .ok (d.next.next.skipLineBreaks, 0)
            else Precedence.arguments d.next.next.skipLineBreaks 0)
          (if (d.next.next.skipLineBreaks.hostedBy L.natives).sees .rightParen then
            .ok (d.next.next.skipLineBreaks.hostedBy L.natives, 0)
            else Precedence.arguments (d.next.next.skipLineBreaks.hostedBy L.natives) 0) := by
        rw [Draft.sees_hostedBy]
        split
        · exact agree_ok ⟨⟨hinner, rfl⟩, rfl⟩
        · exact together.arguments 0 (by omega) hinner
      apply hgiven.bindWith
      intro d₁ count _ h₁
      apply (tied_closing h₁ .rightParen).bind
      intro d₂ _ h₂
      dsimp only
      split
      · exact tied_ok (emitInstruction h₂ _)
      · exact agree_at h _

theorem primary_step (fresh : Bool) {d : Draft} (hbound : d.rest.length < bound + 1)
    (h : L.Inv d) :
    L.Tied (Precedence.primary fresh d) (Precedence.primary fresh (d.hostedBy L.natives)) := by
  rw [primary_eq, primary_eq, Draft.peek_hostedBy, Draft.next_hostedBy, Draft.peekSecond_hostedBy,
    Draft.sees?_hostedBy]
  have hskip := d.next.length_skipLineBreaks_le
  have hlt : d.peek.kind ≠ .endOfInput → d.next.rest.length < d.rest.length := Draft.length_next_lt
  cases hkind : d.peek.kind
  case number | string | boolean | null => exact tied_ok (emitInstruction (L.next h) _)
  case identifier =>
    have hnext := hlt (by rw [hkind]; decide)
    dsimp only
    split
    · exact together.call_step (by omega) h
    split
    · exact tied_ok (emitInstruction (L.next h) _)
    · exact agree_at h _
  case leftParen =>
    have hnext := hlt (by rw [hkind]; decide)
    apply (together.climb 0 true false (by omega) (L.next h)).bind
    intro d₁ _ h₁
    exact tied_closed h₁
  case leftBracket =>
    have hnext := hlt (by rw [hkind]; decide)
    dsimp only
    rw [Draft.skipLineBreaks_hostedBy]
    split
    · apply (together.elements (d := d.next.skipLineBreaks.emit .list)
        (by rw [Draft.rest_emit]; omega) (emitInstruction (skipLineBreaks (L.next h)) _)).bind
      intro d₁ _ h₁
      exact tied_closing h₁ _
    · exact agree_at h _
  case leftBrace =>
    have hnext := hlt (by rw [hkind]; decide)
    dsimp only
    rw [Draft.skipLineBreaks_hostedBy]
    apply (together.members (d := d.next.skipLineBreaks.emit .object)
      (by rw [Draft.rest_emit]; omega) (emitInstruction (skipLineBreaks (L.next h)) _)).bind
    intro d₁ _ h₁
    exact tied_closing h₁ _
  case rightParen | dot => exact agree_at h _
  all_goals
    dsimp only
    unfold missing
    split <;> exact agree_at h _

theorem operand_step (enclosed fresh : Bool) {d : Draft} (hbound : d.rest.length < bound + 1)
    (h : L.Inv d) :
    L.Tied (Precedence.operand enclosed fresh d)
      (Precedence.operand enclosed fresh (d.hostedBy L.natives)) := by
  rw [operand_eq, operand_eq, Draft.peek_hostedBy]
  cases ho : UnaryOp.ofKind? d.peek.kind with
  | some o =>
      have hnext : d.next.rest.length < d.rest.length :=
        Draft.length_next_lt fun hend => by rw [hend] at ho; cases ho
      dsimp only
      rw [Draft.next_hostedBy]
      apply (together.climb o.level enclosed false (by omega) (L.next h)).bind
      intro d₁ _ h₁
      rw [concluding_hostedBy]
      exact tied_applied (inv_concluding h₁ enclosed) o
  | none =>
      apply (together.primary_step fresh hbound h).bind
      intro d₁ hprimary h₁
      have hlt := length_primary_lt hprimary
      exact together.suffixes (by omega) h₁

theorem climb_step (level : Nat) (enclosed fresh : Bool) {d : Draft}
    (hbound : d.rest.length < bound + 1) (h : L.Inv d) :
    L.Tied (Precedence.climb level enclosed fresh d)
      (Precedence.climb level enclosed fresh (d.hostedBy L.natives)) := by
  rw [climb_eq, climb_eq]
  apply (together.operand_step enclosed fresh hbound h).bind
  intro d₁ hoperand h₁
  have hlt := length_operand_lt hoperand
  exact together.operators level enclosed (by omega) h₁

theorem arguments_step {d : Draft} (count : Nat) (hbound : d.rest.length < bound + 1)
    (h : L.Inv d) :
    L.Agree L.SameWith (Precedence.arguments d count)
      (Precedence.arguments (d.hostedBy L.natives) count) := by
  rw [arguments_eq, arguments_eq]
  apply (together.climb_step 0 false true hbound h).bind
  intro d₁ hexpression h₁
  have hlt := length_climb_lt hexpression
  exact agree_item h₁ (Precedence.arguments · (count + 1)) (Precedence.arguments · (count + 1))
    (fun d => .ok (d, count + 1)) (fun d => .ok (d, count + 1))
    (fun hless => together.arguments (count + 1) (by omega)) (agree_ok ⟨⟨h₁, rfl⟩, rfl⟩)

theorem elements_step {d : Draft} (hbound : d.rest.length < bound + 1) (h : L.Inv d) :
    L.Tied (Precedence.elements d) (Precedence.elements (d.hostedBy L.natives)) := by
  rw [elements_eq, elements_eq, Draft.sees_hostedBy]
  split
  · exact tied_ok h
  apply (together.climb_step 0 false true hbound h).bind
  intro d₁ hexpression h₁
  have hlt := length_climb_lt hexpression
  have h₂ : L.Inv (d₁.emit .append) := emitInstruction h₁ _
  refine agree_item h₂ Precedence.elements Precedence.elements .ok .ok
    (fun hless => together.elements ?_) (tied_ok h₂)
  rw [Draft.rest_emit] at hless
  omega

theorem members_step {d : Draft} (hbound : d.rest.length < bound + 1) (h : L.Inv d) :
    L.Tied (Precedence.members d) (Precedence.members (d.hostedBy L.natives)) := by
  rw [members_eq, members_eq, Draft.sees_hostedBy]
  split
  · exact tied_ok h
  apply agree_expectText h
  intro d₁ hname h₁
  have hlt₁ := length_expect_lt (by decide) hname
  apply (tied_expect h₁ .equal).bind
  intro d₂ hequal h₂
  have hlt₂ := length_expect_lt (by decide) hequal
  have hskip := d₂.length_skipLineBreaks_le
  rw [Draft.skipLineBreaks_hostedBy]
  apply (together.climb 0 false true (by omega) (skipLineBreaks h₂)).bind
  intro d₃ hexpression h₃
  have hlt₃ := length_climb_lt hexpression
  have h₄ : L.Inv (d₃.emitName .set d.peek.text) := emitInstruction h₃ _
  refine agree_item h₄ Precedence.members Precedence.members .ok .ok
    (fun hless => together.members ?_) (tied_ok h₄)
  rw [Draft.rest_emitName] at hless
  omega

end Together

theorem together (L : Lockstep) (bound : Nat) : Together L bound := by
  induction bound with
  | zero => constructor <;> intros <;> omega
  | succ bound ih =>
      exact {
        climb := fun level enclosed fresh _ h => ih.climb_step level enclosed fresh h
        operators := fun level enclosed _ h => ih.operators_step level enclosed h
        suffixes := fun h => ih.suffixes_step h
        arguments := fun count h => ih.arguments_step count h
        elements := fun h => ih.elements_step h
        members := fun h => ih.members_step h }

end Precedence

namespace Lockstep

/-- Both compilations read the same expression. -/
theorem tied_expression {L : Lockstep} {d : Draft} (h : L.Inv d) :
    L.Tied (expression d) (expression (d.hostedBy L.natives)) := by
  rw [Precedence.expression_eq, Precedence.expression_eq]
  exact (Precedence.together L (d.rest.length + 1)).climb 0 false true (Nat.lt_succ_self _) h

end Lockstep

end LineScript.Compile
