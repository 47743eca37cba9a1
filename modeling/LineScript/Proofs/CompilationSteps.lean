/-
# The steps of a compilation

A compilation is a sequence of a few kinds of steps: a token is consumed, an instruction is
appended, a placeholder is resolved, a name is declared, a function is entered or left. The
names and constants that a step writes are those of the tokens, and a jump goes back no
further than to the start of the code. A variable is read or assigned only where it is
visible, it is declared only where it is not, and a function is entered under a new name.
Every part of the compiler takes such steps and no others, so that what one step keeps is
kept by every compilation.

A part of the compiler also leaves the draft inside the function it found it in, and it
only adds to the code of that function. Both are needed on the way: leaving a function goes
back to the top level that was there before, and a loop jumps back to an address that lies
before the jump.
-/

import LineScript.Compile.Compiler
import LineScript.Proofs.ExpressionTurns
import LineScript.Proofs.StatementTrees

namespace LineScript.Code

/-- Whether an operation reads or assigns a variable. -/
def Opcode.accesses : Opcode → Bool
  | load | store => true
  | _ => false

namespace Function

/-- A resolved placeholder jumps to the end of the code, and nothing else changes. -/
theorem eq_of_patchHere {f g : Function} {address : Nat} (h : f.patchHere address = .ok g) :
    g = { f with
      code? := some (f.code.modify address (fun i => { i with target := f.length })) } := by
  unfold patchHere patch at h
  dsimp only at h
  split at h
  · cases h
  split at h
  · cases h
  split at h
  · cases h
  split at h
  · cases h
  split at h
  · cases h
  · cases h
    rfl

theorem length_of_patchHere {f g : Function} {address : Nat} (h : f.patchHere address = .ok g) :
    g.length = f.length := by
  rw [eq_of_patchHere h]
  unfold length code
  exact Array.size_modify

end Function

end LineScript.Code

namespace LineScript.Compile

open LineScript.Code

/-! ## Results -/

/-- A result that, when there is one, is as wanted. -/
def Yields {α : Type} (good : α → Prop) : Except CompileError α → Prop
  | .ok a => good a
  | .error _ => True

section

variable {α β : Type} {good : α → Prop} {fine : β → Prop} {r : Except CompileError α}

theorem yields_ok {a : α} (h : good a) : Yields good (.ok a) := h

theorem yields_error (e : CompileError) : Yields good (.error e) := trivial

theorem Yields.bind {f : α → Except CompileError β} (h : Yields good r)
    (hf : ∀ a, good a → Yields fine (f a)) : Yields fine (r >>= f) := by
  cases r with
  | error e => exact yields_error e
  | ok a => exact hf a h

theorem Yields.map {f : α → β} (h : Yields good r) (hf : ∀ a, good a → fine (f a)) :
    Yields fine (r.map f) := by
  cases r with
  | error e => exact yields_error e
  | ok a => exact hf a h

theorem Yields.cases (h : Yields good r) : (∃ e, r = .error e) ∨ ∃ a, r = .ok a ∧ good a := by
  cases r with
  | error e => exact .inl ⟨e, rfl⟩
  | ok a => exact .inr ⟨a, rfl, h⟩

theorem Yields.of_ok {a : α} (h : Yields good r) (hr : r = .ok a) : good a := by
  rw [hr] at h
  exact h

end

/-! ## Steps -/

/-- The name of an identifier among the tokens. -/
def NameOf (tokens : List Token) (name : String) : Prop :=
  ∃ t ∈ tokens, t.kind = .identifier ∧ t.text = name

/-- Null, or the constant of one of the tokens. -/
def ConstantOf (tokens : List Token) (l : Literal) : Prop :=
  l = .null ∨ ∃ t ∈ tokens, t.value = l

namespace Draft

/-- One step of a compilation of the given tokens. -/
inductive Step (tokens : List Token) : Draft → Draft → Prop
  | next (d : Draft) : Step tokens d d.next
  | emit (d : Draft) {op : Opcode} (hop : op.operand = .none) : Step tokens d (d.emit op)
  | emitValue (d : Draft) {l : Literal} (h : ConstantOf tokens l) : Step tokens d (d.emitValue l)
  | emitName (d : Draft) (op : Opcode) {name : String} (h : NameOf tokens name)
      (hvisible : op.accesses = true → d.sees? name = true) : Step tokens d (d.emitName op name)
  | emitJump (d : Draft) {op : Opcode} (hop : op.isJump = true) : Step tokens d (d.emitJump op)
  | emitJumpTo (d : Draft) {op : Opcode} {target : Nat} (hop : op.isJump = true)
      (h : target ≤ d.address) : Step tokens d (d.emitJumpTo op target)
  | patchHere {d d' : Draft} {address : Nat} (h : d.patchHere address = .ok d') : Step tokens d d'
  | declare (d : Draft) {name : String} (h : NameOf tokens name) (hnew : d.sees? name = false) :
      Step tokens d (d.declare name)
  | enter (d : Draft) {name : String} {params : List String} (houter : d.outer? = none)
      (hreserved : name ≠ topLevel) (hnew : d.functions.get? name = none)
      (hname : NameOf tokens name) (hparams : ∀ param ∈ params, NameOf tokens param) :
      Step tokens d (d.enter name params)
  | leave (d : Draft) : Step tokens d d.leave

/-- Any number of steps. -/
inductive Steps (tokens : List Token) (d : Draft) : Draft → Prop
  | refl : Steps tokens d d
  | tail {d₁ d₂ : Draft} (h : Steps tokens d d₁) (hstep : Step tokens d₁ d₂) : Steps tokens d d₂

variable {tokens : List Token} {d₀ d d' : Draft}

theorem Steps.trans (h : d₀.Steps tokens d) (h' : d.Steps tokens d') : d₀.Steps tokens d' := by
  induction h' with
  | refl => exact h
  | tail _ hstep ih => exact ih.tail hstep

/-- What every step keeps, a compilation keeps. -/
theorem Steps.keeps {inv : Draft → Prop} (hinv : ∀ d d', inv d → Step tokens d d' → inv d')
    (h : d.Steps tokens d') (hd : inv d) : inv d' := by
  induction h with
  | refl => exact hd
  | tail _ hstep ih => exact hinv _ _ ih hstep

theorem Step.rest_subset (h : Step tokens d d') : d'.rest ⊆ d.rest := by
  cases h with
  | next =>
      rw [rest_next]
      exact (List.tail_suffix _).subset
  | patchHere h =>
      rw [rest_of_patchHere h]
      exact List.Subset.refl _
  | enter =>
      unfold Draft.enter
      split <;> exact List.Subset.refl _
  | leave =>
      unfold Draft.leave
      split <;> exact List.Subset.refl _
  | emit | emitValue | emitName | emitJump | emitJumpTo | declare => exact List.Subset.refl _

/-! ## Parts of a compilation -/

/-- Steps that end inside the function they began in, with nothing taken from its code. -/
structure Reaches (tokens : List Token) (d d' : Draft) : Prop where
  steps : d.Steps tokens d'
  outer?_eq : d'.outer? = d.outer?
  address_le : d.address ≤ d'.address
  rest_subset : d'.rest ⊆ tokens

/-- The name that comes next is that of one of the tokens. -/
theorem nameOf_peek (hrest : d.rest ⊆ tokens) (hkind : d.peek.kind = .identifier) :
    NameOf tokens d.peek.text := by
  obtain ⟨rest, hcons⟩ := rest_eq_cons_of_peek (d := d) (by rw [hkind]; nofun)
  exact ⟨d.peek, hrest (by rw [hcons]; exact List.mem_cons_self), hkind, rfl⟩

/-- The constant that comes next is that of one of the tokens. -/
theorem constantOf_peek (hrest : d.rest ⊆ tokens) (hkind : d.peek.kind ≠ .endOfInput) :
    ConstantOf tokens d.peek.value := by
  obtain ⟨rest, hcons⟩ := rest_eq_cons_of_peek hkind
  exact .inr ⟨d.peek, hrest (by rw [hcons]; exact List.mem_cons_self), rfl⟩

theorem skipLineBreaksFrom_congr (d : Draft) (left : List Token) (line? : Option Int)
    (tokens : List Token) (consumed? : Option Int) :
    ({ d with rest := left, consumed? := line? } : Draft).skipLineBreaksFrom tokens consumed? =
      d.skipLineBreaksFrom tokens consumed? := by
  induction tokens generalizing consumed? with
  | nil => rfl
  | cons t rest ih =>
      unfold skipLineBreaksFrom
      split
      · exact ih _
      · rfl

/-- A line break is skipped by consuming it. -/
theorem skipLineBreaks_of_lineBreak {t : Token} {rest : List Token} (hrest : d.rest = t :: rest)
    (hkind : t.kind = .lineBreak) : d.skipLineBreaks = d.next.skipLineBreaks := by
  rw [next_of_cons hrest]
  unfold skipLineBreaks
  rw [hrest, skipLineBreaksFrom, if_pos hkind]
  exact (skipLineBreaksFrom_congr d rest _ rest _).symm

/-- What consuming a line break keeps, skipping line breaks keeps. -/
theorem keeps_skipLineBreaks {inv : Draft → Prop}
    (hnext : ∀ d : Draft, d.peek.kind = .lineBreak → inv d → inv d.next) (h : inv d) :
    inv d.skipLineBreaks := by
  induction hrest : d.rest generalizing d with
  | nil =>
      rw [skipLineBreaks_of_ne]
      · exact h
      · unfold peek
        rw [hrest]
        nofun
  | cons t rest ih =>
      have hpeek := peek_of_cons hrest
      by_cases hkind : t.kind = .lineBreak
      · rw [skipLineBreaks_of_lineBreak hrest hkind]
        exact ih (hnext d (hpeek ▸ hkind) h) (by rw [rest_next, hrest]; rfl)
      · rw [skipLineBreaks_of_ne (by rwa [hpeek])]
        exact h

namespace Reaches

theorem refl (hrest : d.rest ⊆ tokens) : d.Reaches tokens d :=
  ⟨.refl, rfl, Nat.le_refl _, hrest⟩

theorem trans (h : d₀.Reaches tokens d) (h' : d.Reaches tokens d') : d₀.Reaches tokens d' :=
  ⟨h.steps.trans h'.steps, h'.outer?_eq.trans h.outer?_eq,
    Nat.le_trans h.address_le h'.address_le, h'.rest_subset⟩

variable (h : d₀.Reaches tokens d)
include h

theorem step (hstep : Step tokens d d') (houter : d'.outer? = d.outer?)
    (haddress : d.address ≤ d'.address) : d₀.Reaches tokens d' :=
  ⟨h.steps.tail hstep, houter.trans h.outer?_eq, Nat.le_trans h.address_le haddress,
    List.Subset.trans hstep.rest_subset h.rest_subset⟩

theorem next : d₀.Reaches tokens d.next := by
  apply h.step (.next d)
  · unfold Draft.next
    split <;> rfl
  · unfold Draft.next
    split <;> exact Nat.le_refl _

/-- A step that appends one instruction to the body. -/
theorem append {i : Instruction} (hstep : Step tokens d { d with body := d.body.emit i }) :
    d₀.Reaches tokens { d with body := d.body.emit i } := by
  refine h.step hstep rfl ?_
  change d.body.code.size ≤ (d.body.code.push i).size
  rw [Array.size_push]
  exact Nat.le_succ _

theorem emit (op : Opcode) (hop : op.operand = .none) : d₀.Reaches tokens (d.emit op) :=
  h.append (.emit d hop)

theorem emitValue {l : Literal} (hl : ConstantOf tokens l) : d₀.Reaches tokens (d.emitValue l) :=
  h.append (.emitValue d hl)

theorem emitName (op : Opcode) {name : String} (hname : NameOf tokens name)
    (hvisible : op.accesses = true → d.sees? name = true) : d₀.Reaches tokens (d.emitName op name) :=
  h.append (.emitName d op hname hvisible)

theorem emitJump (op : Opcode) (hop : op.isJump = true) : d₀.Reaches tokens (d.emitJump op) :=
  h.append (.emitJump d hop)

theorem emitJumpTo (op : Opcode) {target : Nat} (hop : op.isJump = true)
    (htarget : target ≤ d.address) : d₀.Reaches tokens (d.emitJumpTo op target) :=
  h.append (.emitJumpTo d hop htarget)

theorem declare {name : String} (hname : NameOf tokens name) (hnew : d.sees? name = false) :
    d₀.Reaches tokens (d.declare name) := by
  refine h.step (.declare d hname hnew) rfl ?_
  unfold Draft.declare Function.declare
  split <;> exact Nat.le_refl _

theorem patchHere (address : Nat) : Yields (d₀.Reaches tokens) (d.patchHere address) := by
  cases hpatch : d.patchHere address with
  | error e => exact yields_error e
  | ok d' =>
      obtain ⟨body, hbody, rfl⟩ := patchHere_eq_ok hpatch
      exact h.step (.patchHere hpatch) rfl (Nat.le_of_eq (Function.length_of_patchHere hbody).symm)

theorem skipLineBreaks : d₀.Reaches tokens d.skipLineBreaks :=
  keeps_skipLineBreaks (fun _ _ h => h.next) h

theorem expect (kind : TokenKind) : Yields (d₀.Reaches tokens) (d.expect kind) := by
  unfold Draft.expect
  split
  · exact yields_ok h.next
  · exact yields_error _

theorem expectText :
    Yields (fun r => NameOf tokens r.1 ∧ d₀.Reaches tokens r.2) (d.expectText .identifier) := by
  unfold Draft.expectText Draft.expect
  split
  · rename_i hsees
    exact yields_ok ⟨nameOf_peek h.rest_subset (sees_iff.mp hsees), h.next⟩
  · exact yields_error _

theorem expectLineEnd : Yields (d₀.Reaches tokens) d.expectLineEnd := by
  unfold Draft.expectLineEnd
  split
  · exact yields_ok h
  · exact h.expect _

theorem checkResolved : Yields (d₀.Reaches tokens) d.checkResolved := by
  unfold Draft.checkResolved
  split
  · exact yields_ok h
  · exact yields_error _

theorem patchAllHere (addresses : List Nat) :
    Yields (d₀.Reaches tokens) (d.patchAllHere addresses) := by
  induction addresses generalizing d with
  | nil => exact yields_ok h
  | cons address addresses ih =>
      rw [Draft.patchAllHere_cons]
      exact (h.patchHere address).bind fun d₁ h₁ => ih h₁

end Reaches

end Draft

/-! ## Operators -/

/-- What an operator emits has no operand. -/
def Operator.Plain (o : Operator) : Prop := ∀ op, o.op? = some op → op.operand = .none

/-- The operators that wait emit nothing with an operand. -/
def AllPlain (pending : List Pending) : Prop :=
  ∀ o skip?, .operator o skip? ∈ pending → o.Plain

theorem plain_binary {kind : TokenKind} {o : Operator} (h : binary? kind = some o) : o.Plain := by
  rintro op hop
  unfold binary? at h
  split at h <;> cases h <;> cases hop <;> rfl

theorem plain_unary {kind : TokenKind} {o : Operator} (h : unary? kind = some o) : o.Plain := by
  rintro op hop
  unfold unary? at h
  split at h <;> cases h <;> cases hop <;> rfl

theorem isJump_skipping {op? : Option Opcode} {skip : Opcode} (h : skipping? op? = some skip) :
    skip.isJump = true := by
  unfold skipping? at h
  split at h <;> cases h <;> rfl

theorem AllPlain.tail {entry : Pending} {pending : List Pending} (h : AllPlain (entry :: pending)) :
    AllPlain pending :=
  fun o skip? ho => h o skip? (List.mem_cons_of_mem _ ho)

theorem AllPlain.cons {o : Operator} {skip? : Option Nat} {pending : List Pending} (ho : o.Plain)
    (h : AllPlain pending) : AllPlain (.operator o skip? :: pending) := by
  intro o' skip?' hmem
  obtain heq | hmem := List.mem_cons.mp hmem
  · cases heq
    exact ho
  · exact h o' skip?' hmem

theorem AllPlain.paren {pending : List Pending} (h : AllPlain pending) :
    AllPlain (.paren :: pending) := by
  intro o skip? hmem
  obtain heq | hmem := List.mem_cons.mp hmem
  · cases heq
  · exact h o skip? hmem

/-! ## Expressions -/

section

variable {tokens : List Token} {d₀ d : Draft} (h : d₀.Reaches tokens d)
include h

theorem reaches_emitOperator {o : Operator} (ho : o.Plain) (skip? : Option Nat) :
    Yields (d₀.Reaches tokens) (emitOperator d o skip?) := by
  have hpatched : ∀ {a : Draft}, d₀.Reaches tokens a → Yields (d₀.Reaches tokens)
      (skip?.elim (.ok a) a.patchHere) := by
    intro a ha
    cases skip? with
    | none => exact yields_ok ha
    | some address => exact ha.patchHere address
  unfold emitOperator
  cases hop : o.op? with
  | none => cases skip? <;> exact hpatched h
  | some op => cases skip? <;> exact hpatched (h.emit op (ho op hop))

theorem reaches_reduce (priority : Nat) {pending : List Pending} (hplain : AllPlain pending) :
    Yields (fun r => d₀.Reaches tokens r.1 ∧ AllPlain r.2) (reduce d priority pending) := by
  induction pending generalizing d with
  | nil => exact yields_ok ⟨h, hplain⟩
  | cons entry pending ih =>
      cases entry with
      | paren => exact yields_ok ⟨h, hplain⟩
      | operator o skip? =>
          have hemit := reaches_emitOperator h (hplain o skip? List.mem_cons_self) skip?
          rw [reduce_operator]
          split
          · exact yields_ok ⟨h, hplain⟩
          · exact hemit.bind fun d₁ h₁ => ih h₁ hplain.tail

theorem reaches_closeParen {pending : List Pending} (hplain : AllPlain pending) :
    ∀ r, closeParen d pending = some r →
      Yields (fun r => d₀.Reaches tokens r.1 ∧ AllPlain r.2) r := by
  induction pending generalizing d with
  | nil =>
      intro r hr
      rw [closeParen] at hr
      cases hr
  | cons entry pending ih =>
      cases entry with
      | paren =>
          rintro _ ⟨⟩
          exact yields_ok ⟨h, hplain.tail⟩
      | operator o skip? =>
          intro r hr
          unfold closeParen at hr
          split at hr
          · obtain ⟨e, he⟩ | ⟨d₁, hd₁, h₁⟩ :=
              (reaches_emitOperator h (hplain o skip? List.mem_cons_self) skip?).cases
            · rw [he] at hr
              cases hr
              exact yields_error e
            · rw [hd₁] at hr
              exact ih h₁ hplain.tail r hr
          · cases hr

theorem reaches_emitPending {pending : List Pending} (hplain : AllPlain pending) :
    Yields (d₀.Reaches tokens) (emitPending d pending) := by
  induction pending generalizing d with
  | nil => exact yields_ok h
  | cons entry pending ih =>
      cases entry with
      | paren => exact yields_error _
      | operator o skip? =>
          have hemit := reaches_emitOperator h (hplain o skip? List.mem_cons_self) skip?
          rw [emitPending_operator]
          exact hemit.bind fun d₁ h₁ => ih h₁ hplain.tail

theorem reaches_finish {p : Progress} (hplain : AllPlain p.pending) :
    Yields (d₀.Reaches tokens) (p.finish d) := by
  unfold Progress.finish
  split
  · exact yields_error _
  · split
    · exact yields_error _
    · exact reaches_emitPending h hplain

theorem reaches_operator {p : Progress} (hplain : AllPlain p.pending) {o : Operator}
    (ho : o.Plain) :
    Yields (fun r => d₀.Reaches tokens r.1 ∧ AllPlain r.2.pending) (p.operator d o) := by
  have hreduced : Yields (fun r : Draft × List Pending => d₀.Reaches tokens r.1 ∧ AllPlain r.2)
      (if p.complete then reduce d o.priority p.pending else .ok (d, p.pending)) := by
    split
    · exact reaches_reduce h o.priority hplain
    · exact yields_ok ⟨h, hplain⟩
  unfold Progress.operator
  dsimp only
  obtain ⟨e, he⟩ | ⟨⟨d₁, pending⟩, hd₁, h₁, hplain₁⟩ := hreduced.cases
  · rw [he]
    exact yields_error e
  · rw [hd₁]
    dsimp only
    split
    · rename_i hskip
      exact yields_ok ⟨h₁.emitJump _ (isJump_skipping hskip), hplain₁.cons ho⟩
    · exact yields_ok ⟨h₁, hplain₁.cons ho⟩

end

/-- With the given bound on the depth, every part of an expression takes steps. -/
structure Reaching (tokens : List Token) (fuel : Nat) : Prop where
  expression : ∀ {d₀ d : Draft}, d₀.Reaches tokens d →
    Yields (d₀.Reaches tokens) (expressionWith fuel d)
  terms : ∀ {d₀ d : Draft} {p : Progress}, AllPlain p.pending → d₀.Reaches tokens d →
    Yields (d₀.Reaches tokens) (terms fuel d p)
  call : ∀ {d₀ d : Draft}, d.peek.kind = .identifier → d₀.Reaches tokens d →
    Yields (d₀.Reaches tokens) (call fuel d)
  arguments : ∀ {d₀ d : Draft} (count : Nat), d₀.Reaches tokens d →
    Yields (fun r => d₀.Reaches tokens r.1) (arguments fuel d count)
  subscript : ∀ {d₀ d : Draft}, d₀.Reaches tokens d →
    Yields (d₀.Reaches tokens) (subscript fuel d)
  elements : ∀ {d₀ d : Draft}, d₀.Reaches tokens d →
    Yields (d₀.Reaches tokens) (elements fuel d)
  members : ∀ {d₀ d : Draft}, d₀.Reaches tokens d →
    Yields (d₀.Reaches tokens) (members fuel d)

namespace Reaching

variable {tokens : List Token} {fuel : Nat} (reaching : Reaching tokens fuel) {d₀ d : Draft}
  (h : d₀.Reaches tokens d)
include reaching h

theorem listLiteral : Yields (d₀.Reaches tokens) (listLiteral fuel d) := by
  unfold Compile.listLiteral
  apply (reaching.elements (h.emit .list rfl)).bind
  intro d₁ h₁
  exact h₁.skipLineBreaks.expect .rightBracket

theorem objectLiteral : Yields (d₀.Reaches tokens) (objectLiteral fuel d) := by
  unfold Compile.objectLiteral
  apply (reaching.members (h.emit .object rfl)).bind
  intro d₁ h₁
  exact h₁.skipLineBreaks.expect .rightBrace

theorem operatorTurn {p : Progress} (hplain : AllPlain p.pending) :
    Yields (Sum.elim (fun s => d₀.Reaches tokens s.1 ∧ AllPlain s.2.pending) (d₀.Reaches tokens))
      (operatorTurn fuel d p) := by
  have hfinish : Yields
      (Sum.elim (fun s : Draft × Progress => d₀.Reaches tokens s.1 ∧ AllPlain s.2.pending)
        (d₀.Reaches tokens)) ((p.finish d).map .inr) :=
    (reaches_finish h hplain).map fun _ h₁ => h₁
  -- A constant other than null is that of the token.
  have hconstant : d.peek.kind ≠ .endOfInput →
      ConstantOf tokens (if d.peek.kind = .null then .null else d.peek.value) := by
    intro hkind
    split
    · exact .inl rfl
    · exact Draft.constantOf_peek h.rest_subset hkind
  unfold Compile.operatorTurn
  dsimp only
  cases hkind : d.peek.kind
  case endOfInput => exact hfinish
  case number | string | boolean | null =>
    rw [hkind] at hconstant
    dsimp only
    split
    · exact yields_error _
    · exact yields_ok ⟨h.next.emitValue (hconstant (by decide)), hplain⟩
  case identifier =>
    dsimp only
    split
    · exact yields_error _
    split
    · exact (reaching.call hkind h).map fun _ h₁ => ⟨h₁, hplain⟩
    split
    · rename_i hsees
      refine yields_ok ⟨h.next.emitName _ (Draft.nameOf_peek h.rest_subset hkind) ?_, hplain⟩
      exact fun _ => (Draft.sees?_eq_of_frame d.frame_next _).trans hsees
    · exact yields_error _
  case leftParen =>
    dsimp only
    split
    · exact yields_error _
    · exact yields_ok ⟨h.next, hplain.paren⟩
  case rightParen =>
    dsimp only
    split
    · exact yields_error _
    cases hclose : closeParen d.next p.pending with
    | none => exact hfinish
    | some r => exact (reaches_closeParen h.next hplain r hclose).map fun _ h₁ => h₁
  case leftBracket =>
    dsimp only
    split
    · exact (reaching.subscript h.next.skipLineBreaks).map fun _ h₁ => ⟨h₁, hplain⟩
    split
    · exact yields_error _
    · exact (reaching.listLiteral h.next.skipLineBreaks).map fun _ h₁ => ⟨h₁, hplain⟩
  case leftBrace =>
    dsimp only
    split
    · exact yields_error _
    · exact (reaching.objectLiteral h.next.skipLineBreaks).map fun _ h₁ => ⟨h₁, hplain⟩
  case dot =>
    dsimp only
    split
    · exact yields_error _
    · refine h.next.expectText.map fun r h₁ => ⟨h₁.2.emitName .get h₁.1 ?_, hplain⟩
      exact fun haccess => absurd haccess (by decide)
  all_goals
    dsimp only
    split
    · exact hfinish
    · rename_i o hfound
      have ho : o.Plain := by
        split at hfound
        · exact plain_binary hfound
        · exact plain_unary hfound
      exact (reaches_operator h.next hplain ho).map fun _ h₁ => h₁

theorem terms_step {p : Progress} (hplain : AllPlain p.pending) :
    Yields (d₀.Reaches tokens) (Compile.terms (fuel + 1) d p) := by
  rw [terms_turn]
  apply (reaching.operatorTurn h hplain).bind
  rintro (⟨d₁, q⟩ | d₁) hturn
  · exact reaching.terms hturn.2 hturn.1
  · exact yields_ok hturn

theorem call_step (hkind : d.peek.kind = .identifier) :
    Yields (d₀.Reaches tokens) (Compile.call (fuel + 1) d) := by
  rw [call_succ]
  split
  · exact yields_error _
  have hinner := h.next.next.skipLineBreaks
  have hgiven : Yields (fun r : Draft × Nat => d₀.Reaches tokens r.1)
      (if d.next.next.skipLineBreaks.sees .rightParen then .ok (d.next.next.skipLineBreaks, 0)
        else Compile.arguments fuel d.next.next.skipLineBreaks 0) := by
    split
    · exact yields_ok hinner
    · exact reaching.arguments 0 hinner
  apply hgiven.bind
  intro r h₁
  apply (h₁.skipLineBreaks.expect .rightParen).bind
  intro d₂ h₂
  split
  · exact yields_ok (h₂.emitName _ (Draft.nameOf_peek h.rest_subset hkind) nofun)
  · exact yields_error _

theorem arguments_step (count : Nat) :
    Yields (fun r => d₀.Reaches tokens r.1) (Compile.arguments (fuel + 1) d count) := by
  rw [arguments_turn, argumentTurn, bind_assoc]
  apply (reaching.expression h).bind
  intro d₁ h₁
  split
  · exact reaching.arguments _ h₁.next.skipLineBreaks
  · exact yields_ok h₁

theorem subscript_step : Yields (d₀.Reaches tokens) (Compile.subscript (fuel + 1) d) := by
  rw [subscript_succ]
  apply (reaching.expression h).bind
  intro d₁ h₁
  apply (h₁.skipLineBreaks.expect .rightBracket).bind
  intro d₂ h₂
  exact yields_ok (h₂.emit .index rfl)

theorem elements_step : Yields (d₀.Reaches tokens) (Compile.elements (fuel + 1) d) := by
  rw [elements_turn, elementTurn]
  split
  · exact yields_ok h
  rw [bind_assoc]
  apply (reaching.expression h).bind
  intro d₁ h₁
  dsimp only
  split
  · exact reaching.elements (h₁.emit .append rfl).next.skipLineBreaks
  · exact yields_ok (h₁.emit .append rfl)

theorem members_step : Yields (d₀.Reaches tokens) (Compile.members (fuel + 1) d) := by
  rw [members_turn, memberTurn]
  split
  · exact yields_ok h
  rw [bind_assoc]
  apply h.expectText.bind
  rintro ⟨member, d₁⟩ ⟨hname, h₁⟩
  rw [bind_assoc]
  apply (h₁.expect .equal).bind
  intro d₂ h₂
  rw [bind_assoc]
  apply (reaching.expression h₂.skipLineBreaks).bind
  intro d₃ h₃
  dsimp only
  split
  · exact reaching.members (h₃.emitName .set hname (absurd · (by decide))).next.skipLineBreaks
  · exact yields_ok (h₃.emitName _ hname (absurd · (by decide)))

end Reaching

theorem reaching (tokens : List Token) (fuel : Nat) : Reaching tokens fuel := by
  induction fuel with
  | zero => constructor <;> intros <;> exact yields_error _
  | succ fuel ih =>
      exact {
        expression := fun h => ih.terms nofun h
        terms := fun hplain h => ih.terms_step h hplain
        call := fun hkind h => ih.call_step h hkind
        arguments := fun count h => ih.arguments_step h count
        subscript := fun h => ih.subscript_step h
        elements := fun h => ih.elements_step h
        members := fun h => ih.members_step h }

/-! ## Simple statements -/

/-- An expression declares nothing. -/
theorem frame_of_expression {d d' : Draft} (h : expression d = .ok d') : d'.frame = d.frame := by
  rw [Precedence.expression_eq] at h
  obtain ⟨e, he⟩ := (Precedence.readable_expression d).of_ok h
  exact he.moves.frame_eq

/-- A declared variable is visible. -/
theorem Draft.sees?_declare (d : Draft) (name : String) : (d.declare name).sees? name = true := by
  have hdeclares : (d.body.declare name).declares name = true := by
    rw [Function.declares_declare]
    simp
  unfold sees? declare
  dsimp only
  rw [hdeclares, Bool.true_or]

/-- A name that cannot be called is that of no function. -/
theorem Draft.get?_of_arity?_eq_none {d : Draft} {name : String} (h : d.arity? name = none) :
    d.functions.get? name = none := by
  unfold arity? at h
  split at h
  · cases h
  · assumption

section

variable {tokens : List Token} {d₀ d : Draft} (h : d₀.Reaches tokens d)
include h

theorem reaches_expression : Yields (d₀.Reaches tokens) (expression d) :=
  (reaching tokens _).expression h

theorem reaches_expressionStatement : Yields (d₀.Reaches tokens) (expressionStatement d) := by
  unfold expressionStatement
  apply (reaches_expression h).bind
  intro d₁ h₁
  exact (h₁.emit .pop rfl).expectLineEnd

theorem reaches_elementAssignment {name : String} (hname : NameOf tokens name)
    (hsees : d.sees? name = true) : Yields (d₀.Reaches tokens) (elementAssignment d name) := by
  unfold elementAssignment
  apply (reaches_expression (h.emitName .load hname fun _ => hsees).skipLineBreaks).bind
  intro d₁ h₁
  apply (h₁.skipLineBreaks.expect _).bind
  intro d₂ h₂
  apply (h₂.expect _).bind
  intro d₃ h₃
  apply (reaches_expression h₃).bind
  intro d₄ h₄
  exact (h₄.emit .put rfl).expectLineEnd

theorem reaches_memberAssignment {name : String} (hname : NameOf tokens name)
    (hsees : d.sees? name = true) : Yields (d₀.Reaches tokens) (memberAssignment d name) := by
  unfold memberAssignment
  apply (h.emitName .load hname fun _ => hsees).expectText.bind
  rintro ⟨member, d₁⟩ ⟨hmember, h₁⟩
  apply (h₁.expect _).bind
  intro d₂ h₂
  apply (reaches_expression h₂).bind
  intro d₃ h₃
  exact ((h₃.emitName .set hmember nofun).emit .pop rfl).expectLineEnd

/-- A variable is declared by the assignment that does not see it. -/
theorem reaches_assignment {name : String} (hname : NameOf tokens name) :
    Yields (d₀.Reaches tokens) (assignment d name (d.sees? name)) := by
  unfold assignment
  obtain ⟨e, he⟩ | ⟨d₁, hd₁, h₁⟩ := (reaches_expression h).cases
  · rw [he]
    exact yields_error e
  rw [hd₁, ok_bind, ← Draft.sees?_eq_of_frame (frame_of_expression hd₁) name]
  cases hsees : d₁.sees? name with
  | true => exact (h₁.emitName .store hname fun _ => hsees).expectLineEnd
  | false =>
      have hdeclared := (h₁.declare hname hsees).emitName .store hname fun _ => d₁.sees?_declare name
      exact hdeclared.expectLineEnd

theorem reaches_declaration (hkind : d.peek.kind = .identifier) :
    Yields (d₀.Reaches tokens) (declaration d) := by
  have hname := Draft.nameOf_peek h.rest_subset hkind
  have hsame : d.next.next.sees? d.peek.text = d.sees? d.peek.text :=
    Draft.sees?_eq_of_frame (by rw [Draft.frame_next, Draft.frame_next]) _
  unfold declaration
  dsimp only
  split
  · rw [← hsame]
    exact reaches_assignment h.next.next hname
  · split
    · rename_i hsees
      exact reaches_elementAssignment h.next.next hname (hsame.trans hsees)
    · exact yields_error _
  · split
    · rename_i hsees
      exact reaches_memberAssignment h.next.next hname (hsame.trans hsees)
    · exact yields_error _
  · exact reaches_expressionStatement h

theorem reaches_returnStatement : Yields (d₀.Reaches tokens) (returnStatement d) := by
  unfold returnStatement
  dsimp only
  split
  · exact yields_ok ((h.next.emitValue (.inl rfl)).emit .ret rfl)
  split
  · exact yields_ok ((h.next.next.emitValue (.inl rfl)).emit .ret rfl)
  · apply (reaches_expression h.next).bind
    intro d₁ h₁
    apply h₁.expectLineEnd.bind
    intro d₂ h₂
    exact yields_ok (h₂.emit _ rfl)

theorem reaches_inlineStatement : Yields (d₀.Reaches tokens) (inlineStatement d) := by
  unfold inlineStatement
  split
  · exact reaches_declaration h ‹_›
  · exact reaches_returnStatement h
  · exact reaches_expressionStatement h

theorem reaches_parameters (fuel : Nat) {names : List String}
    (hnames : ∀ name ∈ names, NameOf tokens name) :
    Yields (fun r => d₀.Reaches tokens r.1 ∧ ∀ name ∈ r.2, NameOf tokens name)
      (parameters fuel d names) := by
  induction fuel generalizing d names with
  | zero => exact yields_error _
  | succ fuel ih =>
      unfold parameters
      dsimp only
      split
      · rename_i hkind
        have hcons : ∀ name ∈ d.peek.text :: names, NameOf tokens name :=
          List.forall_mem_cons.mpr ⟨Draft.nameOf_peek h.rest_subset hkind, hnames⟩
        split
        · exact yields_error _
        split
        · exact ih h.next.next.skipLineBreaks hcons
        · exact yields_ok ⟨h.next, fun name hname => hcons name (List.mem_reverse.mp hname)⟩
      · exact yields_ok ⟨h, fun name hname => hnames name (List.mem_reverse.mp hname)⟩

/-- The header of a function ends in the draft that enters the function. -/
theorem reaches_functionHeader (hnames : ∀ t ∈ tokens, t.kind = .identifier → t.text ≠ topLevel) :
    Yields (fun d' => ∃ name params d₁, name ≠ topLevel ∧ d₁.functions.get? name = none ∧
        NameOf tokens name ∧ (∀ param ∈ params, NameOf tokens param) ∧ d₀.Reaches tokens d₁ ∧
        d' = d₁.enter name params)
      (functionHeader d) := by
  unfold functionHeader
  obtain ⟨e, he⟩ | ⟨d₀', hd, -⟩ := (h.expect .identifier).cases
  · rw [he]
    exact yields_error e
  obtain ⟨hkind, rfl⟩ := (d.sound_expect .identifier).of_ok hd
  have hname := Draft.nameOf_peek h.rest_subset hkind
  have hreserved : d.peek.text ≠ topLevel := by
    obtain ⟨t, ht, hkind, htext⟩ := hname
    rw [← htext]
    exact hnames t ht hkind
  rw [hd, ok_bind]
  split
  · exact yields_error _
  rename_i hnew
  obtain ⟨e, he⟩ | ⟨d₁, hd₁, h₁⟩ := (h.next.expect .leftParen).cases
  · rw [he]
    exact yields_error e
  have hopen := ((d.next.sound_expectSilent .leftParen rfl).of_ok hd₁).frame_eq
  rw [hd₁, ok_bind]
  obtain ⟨e, he⟩ | ⟨⟨d₂, params⟩, hd₂, h₂, hparams⟩ :=
    (reaches_parameters h₁ (d₁.rest.length + 1) (List.forall_mem_nil _)).cases
  · rw [he]
    exact yields_error e
  obtain ⟨more, -, -, hmoves⟩ :=
    (sound_parameters (Nat.lt_succ_self d₁.rest.length) List.nodup_nil).of_ok hd₂
  rw [hd₂, ok_bind]
  dsimp only at h₂ hparams hmoves ⊢
  obtain ⟨e, he⟩ | ⟨d₃, hd₃, h₃⟩ := (h₂.expect .rightParen).cases
  · rw [he]
    exact yields_error e
  have hclose := ((d₂.sound_expectSilent .rightParen rfl).of_ok hd₃).frame_eq
  rw [hd₃, ok_bind]
  obtain ⟨e, he⟩ | ⟨d₄, hd₄, h₄⟩ := h₃.expectLineEnd.cases
  · rw [he]
    exact yields_error e
  have hline := (d₃.sound_expectLineEnd.of_ok hd₄).frame_eq
  rw [hd₄]
  refine yields_ok ⟨d.peek.text, params, d₄, hreserved, ?_, hname, hparams, h₄, rfl⟩
  -- The header declares nothing, so the name is as new as it was.
  have hscope : d₄.scope = d.next.scope :=
    Draft.scope_eq_of_frame (hline.trans (hclose.trans (hmoves.frame_eq.trans hopen)))
  have harity : d₄.arity? d.peek.text = d.next.arity? d.peek.text :=
    congrFun (congrArg Tree.Scope.arity hscope) _
  exact Draft.get?_of_arity?_eq_none (harity.trans (Option.not_isSome_iff_eq_none.mp hnew))

end

/-! ## Statements -/

/-- Going into a function and back leads to the function that was there before. -/
theorem Draft.Reaches.function {tokens : List Token} {d₀ d₁ d₂ : Draft} {name : String}
    {params : List String} (h : d₀.Reaches tokens d₁) (houter : d₀.outer? = none)
    (hreserved : name ≠ topLevel) (hnew : d₁.functions.get? name = none) (hname : NameOf tokens name)
    (hparams : ∀ param ∈ params, NameOf tokens param)
    (hinside : (d₁.enter name params).Reaches tokens d₂) : d₀.Reaches tokens d₂.leave := by
  have henter : Draft.Step tokens d₁ (d₁.enter name params) :=
    .enter d₁ (h.outer?_eq.trans houter) hreserved hnew hname hparams
  have houter₂ : d₂.outer? = some d₁.body := by
    rw [hinside.outer?_eq, Draft.enter, if_neg hreserved]
  have hleave : d₂.leave = { d₂ with
      body := d₁.body, outer? := none, functions := d₂.functions.insert d₂.body.name d₂.body } := by
    unfold Draft.leave
    rw [houter₂]
  refine ⟨((h.steps.tail henter).trans hinside.steps).tail (.leave d₂), ?_, ?_, ?_⟩
  · rw [hleave, houter]
  · rw [hleave]
    exact h.address_le
  · rw [hleave]
    exact hinside.rest_subset

/-- With the given bound on the depth, every statement takes steps. -/
structure ReachingStatements (tokens : List Token) (fuel : Nat) : Prop where
  block : ∀ {d₀ d : Draft} (enders : List TokenKind), d₀.Reaches tokens d →
    Yields (d₀.Reaches tokens) (blockWith fuel enders d)
  statement : ∀ {d₀ d : Draft}, d₀.Reaches tokens d → Yields (d₀.Reaches tokens) (statement fuel d)
  conditional : ∀ {d₀ d : Draft}, d₀.Reaches tokens d →
    Yields (d₀.Reaches tokens) (ifStatement fuel d)
  arms : ∀ {d₀ d : Draft} (branch : Nat) (jumps : List Nat), d₀.Reaches tokens d →
    Yields (fun r => d₀.Reaches tokens r.1) (arms fuel d branch jumps)
  loop : ∀ {d₀ d : Draft}, d₀.Reaches tokens d → Yields (d₀.Reaches tokens) (whileStatement fuel d)
  function : ∀ {d₀ d : Draft}, d₀.outer? = none → d₀.Reaches tokens d →
    Yields (d₀.Reaches tokens) (functionDefinition fuel d)

namespace ReachingStatements

variable {tokens : List Token} {fuel : Nat} (reaching : ReachingStatements tokens fuel)
  {d₀ d : Draft} (h : d₀.Reaches tokens d)
include reaching h

theorem block_step (enders : List TokenKind) :
    Yields (d₀.Reaches tokens) (blockWith (fuel + 1) enders d) := by
  rw [blockWith_succ]
  split
  · exact yields_ok h
  · exact (reaching.statement h).bind fun d₁ h₁ => reaching.block enders h₁

theorem statement_step : Yields (d₀.Reaches tokens) (Compile.statement (fuel + 1) d) := by
  unfold Compile.statement
  dsimp only
  split
  · exact reaches_declaration h ‹_›
  · exact reaching.conditional h.next
  · exact reaching.loop h.next
  · split
    · exact yields_error _
    · rename_i houter
      refine reaching.function ?_ h.next
      rw [← h.outer?_eq]
      simpa using houter
  · exact reaches_returnStatement h
  · exact yields_ok h.next
  · exact yields_error _
  · exact yields_error _
  · exact yields_error _
  · exact reaches_expressionStatement h

theorem conditional_step : Yields (d₀.Reaches tokens) (ifStatement (fuel + 1) d) := by
  unfold ifStatement
  apply (reaches_expression h).bind
  intro d₁ h₁
  dsimp only
  have hbranch := h₁.emitJump .branch rfl
  split
  · apply (reaches_inlineStatement hbranch.next).bind
    intro d₂ h₂
    exact h₂.patchHere _
  apply hbranch.expectLineEnd.bind
  intro d₂ h₂
  apply (reaching.arms _ _ h₂).bind
  rintro ⟨d₃, jumps⟩ h₃
  have hend : ∀ d₄, d₀.Reaches tokens d₄ → Yields (d₀.Reaches tokens)
      (d₄.expect .end_ >>= fun d => d.patchAllHere jumps >>= fun d => d.expectLineEnd) := by
    intro d₄ h₄
    apply (h₄.expect _).bind
    intro d₅ h₅
    apply (h₅.patchAllHere _).bind
    intro d₆ h₆
    exact h₆.expectLineEnd
  dsimp only
  split
  · apply h₃.next.expectLineEnd.bind
    intro d₄ h₄
    exact (reaching.block _ h₄).bind hend
  · exact hend d₃ h₃

theorem arms_step (branch : Nat) (jumps : List Nat) :
    Yields (fun r => d₀.Reaches tokens r.1) (Compile.arms (fuel + 1) d branch jumps) := by
  unfold Compile.arms
  apply (reaching.block _ h).bind
  intro d₁ h₁
  apply ((h₁.emitJump .jump rfl).patchHere _).bind
  intro d₂ h₂
  dsimp only
  split
  · apply (reaches_expression h₂.next).bind
    intro d₃ h₃
    apply (h₃.emitJump .branch rfl).expectLineEnd.bind
    intro d₄ h₄
    exact reaching.arms _ _ h₄
  · exact yields_ok h₂

theorem loop_step : Yields (d₀.Reaches tokens) (whileStatement (fuel + 1) d) := by
  unfold whileStatement
  -- From the condition on, nothing lies before the condition.
  have hcondition : d.Reaches tokens d := .refl h.rest_subset
  apply (reaches_expression hcondition).bind
  intro d₁ h₁
  apply h₁.expectLineEnd.bind
  intro d₂ h₂
  apply (reaching.block _ (h₂.emitJump .branch rfl)).bind
  intro d₃ h₃
  apply ((h₃.emitJumpTo .jump rfl h₃.address_le).patchHere _).bind
  intro d₄ h₄
  apply ((h.trans h₄).expect _).bind
  intro d₅ h₅
  exact h₅.expectLineEnd

theorem function_step (hnames : ∀ t ∈ tokens, t.kind = .identifier → t.text ≠ topLevel)
    (houter : d₀.outer? = none) :
    Yields (d₀.Reaches tokens) (functionDefinition (fuel + 1) d) := by
  unfold functionDefinition
  apply (reaches_functionHeader h hnames).bind
  rintro _ ⟨name, params, d₁, hreserved, hnew, hname, hparams, h₁, rfl⟩
  have hinside : (d₁.enter name params).Reaches tokens (d₁.enter name params) := by
    refine .refl ?_
    rw [Draft.enter, if_neg hreserved]
    exact h₁.rest_subset
  apply (reaching.block _ hinside).bind
  intro d₂ h₂
  apply (((h₂.emitValue (.inl rfl)).emit .ret rfl).expect _).bind
  intro d₃ h₃
  apply h₃.checkResolved.bind
  intro d₄ h₄
  exact (h₁.function houter hreserved hnew hname hparams h₄).expectLineEnd

end ReachingStatements

theorem reachingStatements {tokens : List Token}
    (hnames : ∀ t ∈ tokens, t.kind = .identifier → t.text ≠ topLevel) (fuel : Nat) :
    ReachingStatements tokens fuel := by
  induction fuel with
  | zero => constructor <;> intros <;> exact yields_error _
  | succ fuel ih =>
      exact {
        block := fun enders h => ih.block_step h enders
        statement := fun h => ih.statement_step h
        conditional := fun h => ih.conditional_step h
        arms := fun branch jumps h => ih.arms_step h branch jumps
        loop := fun h => ih.loop_step h
        function := fun houter h => ih.function_step h hnames houter }

/-- A compilation takes steps from the draft it begins with. -/
theorem steps_of_block {tokens : List Token}
    (hnames : ∀ t ∈ tokens, t.kind = .identifier → t.text ≠ topLevel) {d d' : Draft}
    (hrest : d.rest ⊆ tokens) (h : block d = .ok d') :
    d.Steps tokens d' ∧ d'.outer? = d.outer? := by
  have hreaches := ((reachingStatements hnames _).block [] (.refl hrest)).of_ok h
  exact ⟨hreaches.steps, hreaches.outer?_eq⟩

end LineScript.Compile
