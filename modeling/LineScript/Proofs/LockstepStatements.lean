/-
# Scripts in lockstep

Two compilations that go in lockstep through expressions do so through statements and whole scripts. The
one place besides a call where host functions are looked up is the header of a function: its name must
be new.
-/

import LineScript.Proofs.Lockstep

namespace LineScript.Compile

open LineScript.Code

namespace Lockstep

/-! ## Simple statements -/

section

variable {L : Lockstep} {d : Draft} (h : L.Inv d)
include h

theorem tied_expressionStatement :
    L.Tied (expressionStatement d) (expressionStatement (d.hostedBy L.natives)) := by
  unfold expressionStatement
  apply (tied_expression h).bind
  intro d₁ _ h₁
  exact tied_expectLineEnd (emitInstruction h₁ _)

theorem tied_elementAssignment (name : String) :
    L.Tied (elementAssignment d name) (elementAssignment (d.hostedBy L.natives) name) := by
  have hloaded : L.Inv (d.emitName .load name).skipLineBreaks := skipLineBreaks (emitInstruction h _)
  have hsame : ((d.hostedBy L.natives).emitName .load name).skipLineBreaks =
      (d.emitName .load name).skipLineBreaks.hostedBy L.natives :=
    Draft.skipLineBreaks_hostedBy L.natives (d.emitName .load name)
  unfold elementAssignment
  rw [hsame]
  apply (tied_expression hloaded).bind
  intro d₁ _ h₁
  apply (tied_closing h₁ _).bind
  intro d₂ _ h₂
  apply (tied_expect h₂ _).bind
  intro d₃ _ h₃
  apply (tied_expression h₃).bind
  intro d₄ _ h₄
  exact tied_expectLineEnd (emitInstruction h₄ _)

theorem tied_memberAssignment (name : String) :
    L.Tied (memberAssignment d name) (memberAssignment (d.hostedBy L.natives) name) := by
  unfold memberAssignment
  apply agree_expectText (emitInstruction h { op := .load, name := name })
  intro d₁ _ h₁
  apply (tied_expect h₁ _).bind
  intro d₂ _ h₂
  apply (tied_expression h₂).bind
  intro d₃ _ h₃
  exact tied_expectLineEnd (emitInstruction (emitInstruction h₃ _) _)

theorem tied_assignment (name : String) (visible : Bool) :
    L.Tied (assignment d name visible) (assignment (d.hostedBy L.natives) name visible) := by
  unfold assignment
  apply (tied_expression h).bind
  intro d₁ _ h₁
  cases visible with
  | true => exact tied_expectLineEnd (emitInstruction h₁ _)
  | false => exact tied_expectLineEnd (emitInstruction (L.declare name h₁) _)

theorem tied_declaration : L.Tied (declaration d) (declaration (d.hostedBy L.natives)) := by
  have hinner : L.Inv d.next.next := L.next (L.next h)
  unfold declaration
  dsimp only
  rw [Draft.peek_hostedBy, Draft.peekSecond_hostedBy, Draft.sees?_hostedBy, Draft.next_hostedBy,
    Draft.next_hostedBy]
  split
  · exact tied_assignment hinner _ _
  · split
    · exact tied_elementAssignment hinner _
    · exact agree_at h _
  · split
    · exact tied_memberAssignment hinner _
    · exact agree_at h _
  · exact tied_expressionStatement h

theorem tied_returnStatement :
    L.Tied (returnStatement d) (returnStatement (d.hostedBy L.natives)) := by
  unfold returnStatement
  dsimp only
  rw [Draft.next_hostedBy, Draft.atEnd_hostedBy, Draft.sees_hostedBy, Draft.next_hostedBy]
  split
  · exact tied_ok (emitInstruction (emitInstruction (L.next h) _) _)
  split
  · exact tied_ok (emitInstruction (emitInstruction (L.next (L.next h)) _) _)
  apply (tied_expression (L.next h)).bind
  intro d₁ _ h₁
  apply (tied_expectLineEnd h₁).bind
  intro d₂ _ h₂
  exact tied_ok (emitInstruction h₂ _)

theorem tied_inlineStatement :
    L.Tied (inlineStatement d) (inlineStatement (d.hostedBy L.natives)) := by
  unfold inlineStatement
  rw [Draft.peek_hostedBy]
  split
  · exact tied_declaration h
  · exact tied_returnStatement h
  · exact tied_expressionStatement h

theorem agree_parameters (fuel : Nat) (names : List String) :
    L.Agree L.SameWith (parameters fuel d names) (parameters fuel (d.hostedBy L.natives) names) := by
  induction fuel generalizing d names with
  | zero => exact agree_error (L.atLast h _)
  | succ fuel ih =>
      unfold parameters
      rw [Draft.peek_hostedBy, Draft.next_hostedBy, Draft.sees_hostedBy, Draft.next_hostedBy,
        Draft.skipLineBreaks_hostedBy]
      dsimp only
      split
      · split
        · exact agree_at h _
        split
        · exact ih (skipLineBreaks (L.next (L.next h))) _
        · exact agree_ok ⟨⟨L.next h, rfl⟩, rfl⟩
      · exact agree_ok ⟨⟨h, rfl⟩, rfl⟩

/-- The header of a function whose name is as new in both compilations. -/
theorem tied_functionHeader
    (hdefined : d.peek.kind = .identifier →
      ((d.next.hostedBy L.natives).arity? d.peek.text).isSome = (d.next.arity? d.peek.text).isSome) :
    L.Tied (functionHeader d) (functionHeader (d.hostedBy L.natives)) := by
  unfold functionHeader
  rw [Draft.peek_hostedBy]
  apply (tied_expect h .identifier).bind
  intro d₁ hd₁ h₁
  obtain ⟨hkind, rfl⟩ := (d.sound_expect .identifier).of_ok hd₁
  rw [hdefined hkind]
  split
  · exact agree_at h _
  apply (tied_expect h₁ .leftParen).bind
  intro d₂ _ h₂
  apply (agree_parameters h₂ (d₂.rest.length + 1) []).bindWith
  intro d₃ params _ h₃
  apply (tied_expect h₃ .rightParen).bind
  intro d₄ _ h₄
  apply (tied_expectLineEnd h₄).bind
  intro d₅ _ h₅
  rw [Draft.enter_hostedBy]
  exact tied_ok (L.enter _ _ h₅)

end

/-! ## Statements -/

/-- With the given bound on the depth, both compilations do the same in every statement. -/
structure Together (L : Lockstep) (fuel : Nat) : Prop where
  block : ∀ (enders : List TokenKind) {d : Draft}, L.Inv d →
    L.Tied (blockWith fuel enders d) (blockWith fuel enders (d.hostedBy L.natives))
  statement : ∀ {d : Draft}, L.Inv d →
    L.Tied (statement fuel d) (statement fuel (d.hostedBy L.natives))
  conditional : ∀ {d : Draft}, L.Inv d →
    L.Tied (ifStatement fuel d) (ifStatement fuel (d.hostedBy L.natives))
  arms : ∀ (branch : Nat) (jumps : List Nat) {d : Draft}, L.Inv d →
    L.Agree L.SameWith (arms fuel d branch jumps) (arms fuel (d.hostedBy L.natives) branch jumps)
  loop : ∀ {d : Draft}, L.Inv d →
    L.Tied (whileStatement fuel d) (whileStatement fuel (d.hostedBy L.natives))
  function : ∀ {d : Draft}, L.Inv d → d.peek.kind = .func →
    L.Tied (functionDefinition fuel d.next) (functionDefinition fuel (d.next.hostedBy L.natives))

namespace Together

variable {L : Lockstep} {fuel : Nat} (together : Together L fuel) {d : Draft} (h : L.Inv d)
include together h

theorem block_step (enders : List TokenKind) :
    L.Tied (blockWith (fuel + 1) enders d) (blockWith (fuel + 1) enders (d.hostedBy L.natives)) := by
  rw [blockWith_succ, blockWith_succ, Draft.atEnd_hostedBy, Draft.peek_hostedBy]
  split
  · exact tied_ok h
  · exact (together.statement h).bind fun d₁ _ h₁ => together.block enders h₁

theorem statement_step :
    L.Tied (Compile.statement (fuel + 1) d)
      (Compile.statement (fuel + 1) (d.hostedBy L.natives)) := by
  unfold Compile.statement
  rw [Draft.peek_hostedBy, Draft.next_hostedBy]
  dsimp only
  cases hkind : d.peek.kind
  case identifier => exact tied_declaration h
  case if_ => exact together.conditional (L.next h)
  case while_ => exact together.loop (L.next h)
  case func =>
    dsimp only
    change L.Tied _ (if d.outer?.isSome then _ else _)
    split
    · exact agree_at h _
    · exact together.function h hkind
  case return_ => exact tied_returnStatement h
  case lineBreak => exact tied_ok (L.next h)
  case end_ | elif | else_ => exact agree_at h _
  all_goals exact tied_expressionStatement h

theorem conditional_step :
    L.Tied (ifStatement (fuel + 1) d) (ifStatement (fuel + 1) (d.hostedBy L.natives)) := by
  unfold ifStatement
  apply (tied_expression h).bind
  intro d₁ _ h₁
  have hbranch : L.Inv (d₁.emitJump .branch) := emitJump h₁ _
  have hsame : (d₁.hostedBy L.natives).emitJump .branch = (d₁.emitJump .branch).hostedBy L.natives := rfl
  dsimp only
  rw [hsame, Draft.sees_hostedBy, Draft.next_hostedBy]
  split
  · apply (tied_inlineStatement (L.next hbranch)).bind
    intro d₂ _ h₂
    exact tied_patchHere h₂ _
  apply (tied_expectLineEnd hbranch).bind
  intro d₂ _ h₂
  apply (together.arms d₁.address [] h₂).bindWith
  intro d₃ jumps _ h₃
  have hend : ∀ d₄, L.Inv d₄ → L.Tied
      (d₄.expect .end_ >>= fun d => d.patchAllHere jumps >>= fun d => d.expectLineEnd)
      ((d₄.hostedBy L.natives).expect .end_ >>=
        fun d => d.patchAllHere jumps >>= fun d => d.expectLineEnd) := by
    intro d₄ h₄
    apply (tied_expect h₄ _).bind
    intro d₅ _ h₅
    apply (tied_patchAllHere h₅ _).bind
    intro d₆ _ h₆
    exact tied_expectLineEnd h₆
  dsimp only
  rw [Draft.sees_hostedBy, Draft.next_hostedBy]
  split
  · apply (tied_expectLineEnd (L.next h₃)).bind
    intro d₄ _ h₄
    exact (together.block _ h₄).bind fun d₅ _ h₅ => hend d₅ h₅
  · exact hend d₃ h₃

theorem arms_step (branch : Nat) (jumps : List Nat) :
    L.Agree L.SameWith (Compile.arms (fuel + 1) d branch jumps)
      (Compile.arms (fuel + 1) (d.hostedBy L.natives) branch jumps) := by
  unfold Compile.arms
  apply (together.block _ h).bind
  intro d₁ _ h₁
  apply (tied_patchHere (emitJump h₁ .jump) branch).bind
  intro d₂ _ h₂
  dsimp only
  rw [Draft.sees_hostedBy, Draft.next_hostedBy]
  split
  · apply (tied_expression (L.next h₂)).bind
    intro d₃ _ h₃
    apply (tied_expectLineEnd (emitJump h₃ .branch)).bind
    intro d₄ _ h₄
    exact together.arms _ _ h₄
  · exact agree_ok ⟨⟨h₂, rfl⟩, rfl⟩

theorem loop_step :
    L.Tied (whileStatement (fuel + 1) d) (whileStatement (fuel + 1) (d.hostedBy L.natives)) := by
  unfold whileStatement
  apply (tied_expression h).bind
  intro d₁ _ h₁
  apply (tied_expectLineEnd h₁).bind
  intro d₂ _ h₂
  apply (together.block _ (emitJump h₂ .branch)).bind
  intro d₃ _ h₃
  apply (tied_patchHere (emitJumpTo h₃ .jump d.address) d₂.address).bind
  intro d₄ _ h₄
  apply (tied_expect h₄ _).bind
  intro d₅ _ h₅
  exact tied_expectLineEnd h₅

theorem function_step (hkind : d.peek.kind = .func) :
    L.Tied (functionDefinition (fuel + 1) d.next)
      (functionDefinition (fuel + 1) (d.next.hostedBy L.natives)) := by
  unfold functionDefinition
  apply (tied_functionHeader (L.next h) (L.defined h hkind)).bind
  intro d₁ _ h₁
  apply (together.block _ h₁).bind
  intro d₂ _ h₂
  apply (tied_expect (emitInstruction (emitInstruction h₂ { op := .value, literal := .null })
    { op := .ret }) .end_).bind
  intro d₃ _ h₃
  apply (tied_checkResolved h₃).bind
  intro d₄ _ h₄
  rw [Draft.leave_hostedBy]
  exact tied_expectLineEnd (L.leave h₄)

end Together

theorem together (L : Lockstep) (fuel : Nat) : Together L fuel := by
  induction fuel with
  | zero =>
      constructor
      case function => exact fun h _ => agree_error (L.atLast (L.next h) _)
      all_goals
        intros
        exact agree_error (L.atLast ‹_› _)
  | succ fuel ih =>
      exact {
        block := fun enders _ h => ih.block_step h enders
        statement := fun h => ih.statement_step h
        conditional := fun h => ih.conditional_step h
        arms := fun branch jumps _ h => ih.arms_step h branch jumps
        loop := fun h => ih.loop_step h
        function := fun h hkind => ih.function_step h hkind }

/-- Both compilations do the same with all statements of the input. -/
theorem tied_block {L : Lockstep} {d : Draft} (h : L.Inv d) :
    L.Tied (block d) (block (d.hostedBy L.natives)) :=
  (together L _).block [] h

end Lockstep

end LineScript.Compile

namespace LineScript.Compiler

open LineScript.Code LineScript.Compile

/-- Two compilers that differ in their host functions do the same with the tokens of a script, or the
first one fails where they may part. -/
theorem agree_compile {L : Lockstep} {c : Compiler} {tokens : List Token}
    (h : L.Inv (c.draft tokens)) :
    L.Agree (fun p p' => p' = p ∧ ∃ d, L.Inv d ∧ p = d.program) (c.compile tokens)
      (({ c with natives := L.natives } : Compiler).compile tokens) := by
  unfold compile
  apply (Lockstep.tied_block h).bind
  intro d _ hd
  apply (Lockstep.tied_checkResolved hd).bind
  intro d₁ _ h₁
  exact Lockstep.agree_ok ⟨rfl, d₁, h₁, rfl⟩

end LineScript.Compiler
