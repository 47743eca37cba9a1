/-
# Entries of several lines

A script is entered line by line. When what is there so far does not compile, either
the error was raised at the end of the input, and another line is asked for, or no
further line can help: the longer script fails too, and with the same error. So a
valid script is never rejected before its last line is there.

The statements of both scripts are compared as the expressions were. The fuel of the
shorter one never runs out first: it counts tokens, and a run out of fuel would be an
internal error, which a script does not cause.
-/

import LineScript.Proofs.LongerInput
import LineScript.Proofs.ProgramTrees
import LineScript.Proofs.Scanning

namespace LineScript.Compile

open LineScript.Code

open Draft (Beside)

variable {more : List Token} {last : Int} {d : Draft}

/-! ## Simple statements -/

/-- The input has ended. -/
abbrev Gone (d : Draft) : Prop := d.rest = []

/-- The results of a step that may succeed at the end of the input. -/
abbrev Keeps (more : List Token) (last : Int) (r r' : Result) : Prop :=
  Parallel Gone (Beside more last) r r'

theorem keeps_ok {d' : Draft} (h : Beside more last d d') : Keeps more last (.ok d) (.ok d') :=
  .inr ⟨d', rfl, h⟩

theorem Alike.keeps {r r' : Result} (h : Alike more last r r') : Keeps more last r r' := by
  cases r with
  | ok d => exact .inr (h.resolve_left id)
  | error e => exact h

theorem Keeps.bind {α : Type} {gone : α → Prop} {same : α → α → Prop} {r r' : Result}
    (h : Keeps more last r r') {f f' : Draft → Except CompileError α}
    (hgone : ∀ d, Gone d → Stops gone (f d))
    (hsame : ∀ d, d.Live → Parallel gone same (f d) (f' (d.followed more last))) :
    Parallel gone same (r >>= f) (r' >>= f') := by
  apply Parallel.bind h
  · exact fun d _ hd => hgone d hd
  · rintro d d' - ⟨hlive, rfl⟩
    exact hsame d hlive

theorem Draft.stops_expectLineEnd (h : Gone d) : Stops Gone d.expectLineEnd := by
  have hend : d.atEnd = true := decide_eq_true (peek_of_rest_eq_nil h)
  unfold expectLineEnd
  rw [if_pos hend]
  exact h

/-- What has to be closed is not closed at the end of the input. -/
theorem Draft.stops_expect_bind {α : Type} {gone : α → Prop} (h : Gone d) {kind : TokenKind}
    (hkind : kind ≠ .endOfInput) (f : Draft → Except CompileError α) :
    Stops gone (d.expect kind >>= f) := by
  have hexpect : Stops (fun _ => False) (d.expect kind) := stops_expect h hkind
  exact hexpect.bind nofun

theorem Draft.stops_patchHere (h : Gone d) (address : Nat) : Stops Gone (d.patchHere address) := by
  unfold patchHere
  split
  · exact h
  · exact .inr rfl

namespace Draft.Live

theorem keeps_expectLineEnd (h : d.Live) :
    Keeps more last d.expectLineEnd (d.followed more last).expectLineEnd := by
  have hend : (d.followed more last).atEnd = false := by
    unfold atEnd
    rw [h.peek_followed]
    exact h.atEnd_eq
  unfold expectLineEnd expect
  rw [h.atEnd_eq, hend, h.sees_followed, h.peek_followed]
  rw [if_neg Bool.false_ne_true, if_neg Bool.false_ne_true]
  split
  · obtain hgone | hbeside := h.next_cases more last
    · exact .inl hgone
    · exact keeps_ok hbeside
  · exact parallel_error _

theorem keeps_patchAllHere (h : d.Live) (addresses : List Nat) :
    Keeps more last (d.patchAllHere addresses) ((d.followed more last).patchAllHere addresses) := by
  induction addresses generalizing d with
  | nil => exact keeps_ok ⟨h, rfl⟩
  | cons address rest ih =>
      rw [patchAllHere_cons, patchAllHere_cons]
      exact (h.alike_patchHere address).bind fun d₁ _ hlive => ih hlive

theorem alike_checkResolved (h : d.Live) :
    Alike more last d.checkResolved (d.followed more last).checkResolved := by
  unfold checkResolved
  rw [show (d.followed more last).body = d.body from rfl]
  cases d.body.unresolved with
  | nil => exact alike_ok ⟨h, rfl⟩
  | cons address rest => exact .inl (.inr rfl)

theorem leave (h : d.Live) : Beside more last d.leave (d.followed more last).leave := by
  unfold Draft.leave
  rw [show (d.followed more last).outer? = d.outer? from rfl]
  cases d.outer? with
  | none => exact ⟨h, rfl⟩
  | some top => exact ⟨⟨h.rest_ne, h.real, h.ending⟩, rfl⟩

end Draft.Live

/-- An expression whose value is dropped. -/
theorem keeps_expressionStatement (h : d.Live) :
    Keeps more last (expressionStatement d) (expressionStatement (d.followed more last)) := by
  unfold expressionStatement
  apply (alike_expression h).bind
  intro d₁ _ hlive₁
  rw [hlive₁.emit_followed]
  exact (hlive₁.emitInstruction _).keeps_expectLineEnd

theorem keeps_elementAssignment (h : d.Live) (name : String) :
    Keeps more last (elementAssignment d name)
      (elementAssignment (d.followed more last) name) := by
  unfold elementAssignment
  have hload : (d.emitName .load name).Live := h.emitInstruction _
  rw [h.emitName_followed]
  have hposition : Alike more last (expression (d.emitName .load name).skipLineBreaks)
      (expression ((d.emitName .load name).followed more last).skipLineBreaks) :=
    hload.parallel_skipLineBreaks expression expression (fun _ h => stops_expression h)
      alike_expression
  apply hposition.bind
  intro d₁ _ hlive₁
  apply (hlive₁.alike_closing (by decide) (by decide)).bind
  intro d₂ _ hlive₂
  apply (hlive₂.alike_expect (by decide)).bind
  intro d₃ _ hlive₃
  apply (alike_expression hlive₃).bind
  intro d₄ _ hlive₄
  rw [hlive₄.emit_followed]
  exact (hlive₄.emitInstruction _).keeps_expectLineEnd

theorem keeps_memberAssignment (h : d.Live) (name : String) :
    Keeps more last (memberAssignment d name) (memberAssignment (d.followed more last) name) := by
  unfold memberAssignment
  have hload : (d.emitName .load name).Live := h.emitInstruction _
  rw [h.emitName_followed]
  apply hload.parallel_expectText (by decide)
  intro d₁ _ hlive₁
  apply (hlive₁.alike_expect (by decide)).bind
  intro d₂ _ hlive₂
  apply (alike_expression hlive₂).bind
  intro d₃ _ hlive₃
  have hset : (d₃.emitName .set (d.emitName .load name).peek.text).Live := hlive₃.emitInstruction _
  rw [hlive₃.emitName_followed, hset.emit_followed]
  exact (hset.emitInstruction _).keeps_expectLineEnd

theorem keeps_assignment (h : d.Live) (name : String) (visible : Bool) :
    Keeps more last (assignment d name visible)
      (assignment (d.followed more last) name visible) := by
  unfold assignment
  apply (alike_expression h).bind
  intro d₁ _ hlive₁
  have hdeclare : Beside more last (if visible then d₁ else d₁.declare name)
      (if visible then d₁.followed more last else (d₁.followed more last).declare name) := by
    split
    · exact ⟨hlive₁, rfl⟩
    · exact ⟨hlive₁.written _, rfl⟩
  dsimp only
  rw [hdeclare.2, hdeclare.1.emitName_followed]
  exact (hdeclare.1.emitInstruction _).keeps_expectLineEnd

theorem keeps_declaration (h : d.Live) (hkind : d.peek.kind = .identifier) :
    Keeps more last (declaration d) (declaration (d.followed more last)) := by
  have hbreak : d.peek.kind ≠ .lineBreak := by rw [hkind]; decide
  have hlive : d.next.Live := h.next hbreak
  have hsees : (d.followed more last).sees? d.peek.text = d.sees? d.peek.text := rfl
  unfold declaration
  dsimp only
  rw [h.peek_followed, h.next_followed, hlive.next_followed, h.peekSecond_followed hbreak, hsees,
    ← Draft.peek_next]
  have hinner : d.next.peek.kind ≠ .lineBreak → d.next.next.Live := hlive.next
  cases hsecond : d.next.peek.kind
  case equal => exact keeps_assignment (hinner (by rw [hsecond]; decide)) _ _
  case leftBracket =>
    dsimp only
    split
    · exact keeps_elementAssignment (hinner (by rw [hsecond]; decide)) _
    · exact parallel_error _
  case dot =>
    dsimp only
    split
    · exact keeps_memberAssignment (hinner (by rw [hsecond]; decide)) _
    · exact parallel_error _
  all_goals exact keeps_expressionStatement h

theorem keeps_returnStatement (h : d.Live) (hkind : d.peek.kind = .return_) :
    Keeps more last (returnStatement d) (returnStatement (d.followed more last)) := by
  have hlive : d.next.Live := h.next (by rw [hkind]; decide)
  have hend : (d.next.followed more last).atEnd = false := by
    unfold Draft.atEnd
    rw [hlive.peek_followed]
    exact hlive.atEnd_eq
  unfold returnStatement
  dsimp only
  rw [h.next_followed, hlive.atEnd_eq, hend, hlive.sees_followed]
  rw [if_neg Bool.false_ne_true, if_neg Bool.false_ne_true]
  split
  · obtain hgone | ⟨hlive', heq⟩ := hlive.next_cases more last
    · exact .inl hgone
    · have hnull : (d.next.next.emitValue .null).Live := hlive'.emitInstruction _
      rw [heq, hlive'.emitValue_followed, hnull.emit_followed]
      exact keeps_ok ⟨hnull.emitInstruction _, rfl⟩
  · apply (alike_expression hlive).bind
    intro d₁ _ hlive₁
    apply hlive₁.keeps_expectLineEnd.bind
    · exact fun d h => h
    · exact fun d₂ hlive₂ => keeps_ok ⟨hlive₂.emitInstruction _, hlive₂.emit_followed _⟩

theorem keeps_inlineStatement (h : d.Live) :
    Keeps more last (inlineStatement d) (inlineStatement (d.followed more last)) := by
  unfold inlineStatement
  rw [h.peek_followed]
  cases hkind : d.peek.kind
  case identifier => exact keeps_declaration h hkind
  case return_ => exact keeps_returnStatement h hkind
  all_goals exact keeps_expressionStatement h

/-! ## Function headers -/

/-- A pair of a draft and something that both compilations have found. -/
abbrev BesideWith {β : Type} (more : List Token) (last : Int) (r r' : Draft × β) : Prop :=
  Beside more last r.1 r'.1 ∧ r'.2 = r.2

theorem stops_parameters (h : Gone d) (fuel : Nat) (names : List String) :
    Stops (fun r => Gone r.1) (parameters fuel d names) := by
  cases fuel with
  | zero => exact .inr rfl
  | succ fuel =>
      unfold parameters
      dsimp only
      rw [if_neg (by rw [Draft.peek_of_rest_eq_nil h]; decide)]
      exact h

theorem parallel_parameters (h : d.Live) {fuel fuel' : Nat} (hfuel : fuel ≤ fuel')
    (names : List String) :
    Parallel (fun r => Gone r.1) (BesideWith more last) (parameters fuel d names)
      (parameters fuel' (d.followed more last) names) := by
  induction fuel generalizing fuel' d names with
  | zero => exact .inl (.inr rfl)
  | succ fuel ih =>
      obtain ⟨fuel', rfl⟩ := Nat.exists_eq_add_of_le' (Nat.le_trans (Nat.le_add_left 1 fuel) hfuel)
      unfold parameters
      dsimp only
      rw [h.peek_followed, h.next_followed]
      split
      · rename_i hkind
        have hlive : d.next.Live := h.next (by rw [hkind]; decide)
        split
        · exact parallel_error _
        · exact hlive.parallel_item (parameters fuel · (d.peek.text :: names))
            (parameters fuel' · (d.peek.text :: names))
            (fun d₁ => .ok (d₁, (d.peek.text :: names).reverse))
            (fun _ h => stops_parameters h _ _) (fun _ hlive' => ih hlive' (by omega) _)
            (.inr ⟨_, rfl, ⟨hlive, rfl⟩, rfl⟩)
      · exact .inr ⟨_, rfl, ⟨h, rfl⟩, rfl⟩

theorem rest_enter (d : Draft) (name : String) (params : List String) :
    (d.enter name params).rest = d.rest := by
  unfold Draft.enter
  dsimp only
  split <;> rfl

theorem Draft.Live.enter (h : d.Live) (name : String) (params : List String) :
    Beside more last (d.enter name params) ((d.followed more last).enter name params) := by
  refine ⟨⟨?_, ?_, ?_⟩, ?_⟩
  · rw [rest_enter]
    exact h.rest_ne
  · rw [rest_enter]
    exact h.real
  · rw [rest_enter]
    exact h.ending
  · unfold Draft.enter
    dsimp only
    split <;> rfl

theorem keeps_functionHeader (h : d.Live) :
    Keeps more last (functionHeader d) (functionHeader (d.followed more last)) := by
  unfold functionHeader
  dsimp only
  rw [h.peek_followed]
  apply (h.alike_expect (by decide)).bind
  intro d₁ _ hlive₁
  change Parallel _ _ _ (if (d₁.arity? d.peek.text).isSome then _ else _)
  split
  · exact parallel_error _
  · apply (hlive₁.alike_expect (by decide)).bind
    intro d₂ _ hlive₂
    have hfuel : d₂.rest.length + 1 ≤ (d₂.followed more last).rest.length + 1 := by
      simp [Draft.followed]
    apply (parallel_parameters hlive₂ hfuel []).bind
    · exact fun r _ hgone => Draft.stops_expect_bind hgone (by decide) _
    · rintro ⟨d₃, params⟩ ⟨d₃', params'⟩ - ⟨⟨hlive₃, heq⟩, hparams⟩
      dsimp only at hlive₃ heq hparams ⊢
      subst heq hparams
      apply (hlive₃.alike_expect (by decide)).bind
      intro d₄ _ hlive₄
      apply hlive₄.keeps_expectLineEnd.bind
      · intro d₅ hgone
        exact (rest_enter _ _ _).trans hgone
      · intro d₅ hlive₅
        exact keeps_ok (hlive₅.enter _ _)

/-! ## Nested statements -/

/-- At the end of the input a block is over. -/
theorem stops_blockWith (h : Gone d) (fuel : Nat) (enders : List TokenKind) :
    Stops Gone (blockWith fuel enders d) := by
  cases fuel with
  | zero => exact .inr rfl
  | succ fuel =>
      have hend : d.atEnd = true := decide_eq_true (Draft.peek_of_rest_eq_nil h)
      unfold blockWith
      rw [hend]
      exact h

theorem stops_arms (h : Gone d) (fuel branch : Nat) (jumps : List Nat) :
    Stops (fun r => Gone r.1) (arms fuel d branch jumps) := by
  cases fuel with
  | zero => exact .inr rfl
  | succ fuel =>
      unfold arms
      apply (stops_blockWith h fuel _).bind
      intro d₁ h₁
      apply (Draft.stops_patchHere (d := d₁.emitJump .jump) h₁ branch).bind
      intro d₂ h₂
      rw [Draft.sees_eq_false h₂ (by decide)]
      exact h₂

theorem stops_elseBlock (h : Gone d) (fuel : Nat) : Stops Gone (elseBlock fuel d) := by
  unfold elseBlock
  rw [Draft.sees_eq_false h (by decide)]
  exact h

/-- The end of a loop cannot be read where there is nothing left. -/
theorem stops_loopEnd {gone : Draft → Prop} (target branch : Nat) (d : Draft) (h : Gone d) :
    Stops gone (do
      let d ← (d.emitJumpTo .jump target).patchHere branch
      let d ← d.expect .end_
      d.expectLineEnd) := by
  have hjump : Gone (d.emitJumpTo .jump target) := h
  exact (Draft.stops_patchHere hjump branch).bind fun d₁ h₁ =>
    Draft.stops_expect_bind h₁ (by decide) _

/-- The end of a conditional cannot be read where there is nothing left. -/
theorem stops_conditionalEnd {gone : Draft → Prop} (jumps : List Nat) (d : Draft) (h : Gone d) :
    Stops gone (d.expect .end_ >>= fun d => d.patchAllHere jumps >>= Draft.expectLineEnd) :=
  Draft.stops_expect_bind h (by decide) _

/-- The end of a function cannot be read where there is nothing left. -/
theorem stops_functionEnd {gone : Draft → Prop} (d : Draft) (h : Gone d) :
    Stops gone (do
      let d ← ((d.emitValue .null).emit .ret).expect .end_
      let d ← d.checkResolved
      d.leave.expectLineEnd) := by
  have hret : Gone ((d.emitValue .null).emit .ret) := h
  exact Draft.stops_expect_bind hret (by decide) _

/-- All statements agree, as far as the fuel of the shorter compilation goes. -/
structure Keeping (more : List Token) (last : Int) (fuel : Nat) : Prop where
  block : ∀ (enders : List TokenKind) {d : Draft} {fuel' : Nat}, fuel ≤ fuel' → d.Live →
    Keeps more last (blockWith fuel enders d) (blockWith fuel' enders (d.followed more last))
  statement : ∀ {d : Draft} {fuel' : Nat}, fuel ≤ fuel' → d.Live →
    Keeps more last (statement fuel d) (statement fuel' (d.followed more last))
  conditional : ∀ {d : Draft} {fuel' : Nat}, fuel ≤ fuel' → d.Live →
    Keeps more last (ifStatement fuel d) (ifStatement fuel' (d.followed more last))
  arms : ∀ {d : Draft} (branch : Nat) (jumps : List Nat) {fuel' : Nat}, fuel ≤ fuel' → d.Live →
    Parallel (fun r => Gone r.1) (BesideWith more last) (arms fuel d branch jumps)
      (arms fuel' (d.followed more last) branch jumps)
  loop : ∀ {d : Draft} {fuel' : Nat}, fuel ≤ fuel' → d.Live →
    Keeps more last (whileStatement fuel d) (whileStatement fuel' (d.followed more last))
  function : ∀ {d : Draft} {fuel' : Nat}, fuel ≤ fuel' → d.Live →
    Keeps more last (functionDefinition fuel d) (functionDefinition fuel' (d.followed more last))

namespace Keeping

variable {fuel fuel' : Nat} (keeping : Keeping more last fuel)
include keeping

theorem block_step (enders : List TokenKind) (hfuel : fuel ≤ fuel') (h : d.Live) :
    Keeps more last (blockWith (fuel + 1) enders d)
      (blockWith (fuel' + 1) enders (d.followed more last)) := by
  have hend : (d.followed more last).atEnd = d.atEnd := by
    unfold Draft.atEnd
    rw [h.peek_followed]
  rw [blockWith_succ, blockWith_succ, hend, h.peek_followed]
  split
  · exact keeps_ok ⟨h, rfl⟩
  · apply (keeping.statement hfuel h).bind
    · exact fun d₁ h₁ => stops_blockWith h₁ fuel enders
    · exact fun d₁ hlive₁ => keeping.block enders hfuel hlive₁

theorem statement_step (hfuel : fuel ≤ fuel') (h : d.Live) :
    Keeps more last (Compile.statement (fuel + 1) d)
      (Compile.statement (fuel' + 1) (d.followed more last)) := by
  unfold Compile.statement
  dsimp only
  rw [h.peek_followed, h.next_followed]
  have hnext : d.peek.kind ≠ .lineBreak → d.next.Live := h.next
  cases hkind : d.peek.kind
  case identifier => exact keeps_declaration h hkind
  case if_ => exact keeping.conditional hfuel (hnext (by rw [hkind]; decide))
  case while_ => exact keeping.loop hfuel (hnext (by rw [hkind]; decide))
  case func =>
    change Parallel _ _ _ (if d.outer?.isSome then _ else _)
    dsimp only
    split
    · exact parallel_error _
    · exact keeping.function hfuel (hnext (by rw [hkind]; decide))
  case return_ => exact keeps_returnStatement h hkind
  case lineBreak =>
    obtain hgone | hbeside := h.next_cases more last
    · exact .inl hgone
    · exact keeps_ok ⟨hbeside.1, rfl⟩
  case end_ | elif | else_ => exact parallel_error _
  all_goals exact keeps_expressionStatement h

theorem loop_step (hfuel : fuel ≤ fuel') (h : d.Live) :
    Keeps more last (whileStatement (fuel + 1) d)
      (whileStatement (fuel' + 1) (d.followed more last)) := by
  unfold whileStatement
  apply (alike_expression h).bind
  intro d₁ _ hlive₁
  apply hlive₁.keeps_expectLineEnd.bind
  · intro d₂ hgone
    have hbranch : Gone (d₂.emitJump .branch) := hgone
    exact (stops_blockWith hbranch fuel _).bind (stops_loopEnd _ _)
  · intro d₂ hlive₂
    dsimp only
    rw [hlive₂.emitJump_followed]
    apply (keeping.block [.end_] hfuel (hlive₂.written _)).bind
    · exact stops_loopEnd _ _
    · intro d₃ hlive₃
      rw [hlive₃.emitJumpTo_followed]
      apply (Draft.Live.alike_patchHere (hlive₃.written _) _).bind
      intro d₄ _ hlive₄
      apply (hlive₄.alike_expect (by decide)).bind
      exact fun d₅ _ hlive₅ => hlive₅.keeps_expectLineEnd

theorem function_step (hfuel : fuel ≤ fuel') (h : d.Live) :
    Keeps more last (functionDefinition (fuel + 1) d)
      (functionDefinition (fuel' + 1) (d.followed more last)) := by
  unfold functionDefinition
  apply (keeps_functionHeader h).bind
  · exact fun d₁ hgone => (stops_blockWith hgone fuel _).bind stops_functionEnd
  · intro d₁ hlive₁
    apply (keeping.block [.end_] hfuel hlive₁).bind
    · exact stops_functionEnd
    · intro d₂ hlive₂
      have hnull : (d₂.emitValue .null).Live := hlive₂.emitInstruction _
      rw [hlive₂.emitValue_followed, hnull.emit_followed]
      apply (Draft.Live.alike_expect (hnull.emitInstruction _) (by decide)).bind
      intro d₃ _ hlive₃
      apply hlive₃.alike_checkResolved.bind
      intro d₄ _ hlive₄
      have hleave : Beside more last d₄.leave (d₄.followed more last).leave := hlive₄.leave
      rw [hleave.2]
      exact hleave.1.keeps_expectLineEnd

theorem arms_step (branch : Nat) (jumps : List Nat) (hfuel : fuel ≤ fuel') (h : d.Live) :
    Parallel (fun r => Gone r.1) (BesideWith more last)
      (Compile.arms (fuel + 1) d branch jumps)
      (Compile.arms (fuel' + 1) (d.followed more last) branch jumps) := by
  unfold Compile.arms
  apply (keeping.block [.end_, .elif, .else_] hfuel h).bind
  · intro d₁ hgone
    have hjump : Gone (d₁.emitJump .jump) := hgone
    apply (Draft.stops_patchHere hjump branch).bind
    intro d₂ h₂
    rw [Draft.sees_eq_false h₂ (by decide)]
    exact h₂
  · intro d₁ hlive₁
    dsimp only
    rw [hlive₁.emitJump_followed]
    apply (Draft.Live.alike_patchHere (hlive₁.written _) branch).bind
    intro d₂ _ hlive₂
    rw [hlive₂.sees_followed]
    split
    · rename_i hsees
      have hlive₃ : d₂.next.Live := hlive₂.next (by rw [Draft.sees_iff.mp hsees]; decide)
      rw [hlive₂.next_followed]
      apply (alike_expression hlive₃).bind
      intro d₄ _ hlive₄
      rw [hlive₄.emitJump_followed]
      apply (Draft.Live.keeps_expectLineEnd (hlive₄.written _)).bind
      · exact fun d₅ hgone => stops_arms hgone fuel _ _
      · exact fun d₅ hlive₅ => keeping.arms _ _ hfuel hlive₅
    · exact .inr ⟨_, rfl, ⟨hlive₂, rfl⟩, rfl⟩

theorem elseBlock_step (hfuel : fuel ≤ fuel') (h : d.Live) :
    Keeps more last (elseBlock fuel d) (elseBlock fuel' (d.followed more last)) := by
  unfold elseBlock
  rw [h.sees_followed, h.next_followed]
  split
  · rename_i hsees
    have hlive : d.next.Live := h.next (by rw [Draft.sees_iff.mp hsees]; decide)
    apply hlive.keeps_expectLineEnd.bind
    · exact fun d₁ hgone => stops_blockWith hgone fuel _
    · exact fun d₁ hlive₁ => keeping.block [.end_] hfuel hlive₁
  · exact keeps_ok ⟨h, rfl⟩

theorem conditional_step (hfuel : fuel ≤ fuel') (h : d.Live) :
    Keeps more last (ifStatement (fuel + 1) d)
      (ifStatement (fuel' + 1) (d.followed more last)) := by
  rw [ifStatement_succ, ifStatement_succ]
  apply (alike_expression h).bind
  intro d₁ _ hlive₁
  have hbranch : (d₁.emitJump .branch).Live := hlive₁.written _
  rw [hlive₁.emitJump_followed, hbranch.sees_followed, hbranch.next_followed]
  split
  · rename_i hsees
    have hlive₂ : (d₁.emitJump .branch).next.Live :=
      hbranch.next (by rw [Draft.sees_iff.mp hsees]; decide)
    apply (keeps_inlineStatement hlive₂).bind
    · exact fun d₃ hgone => Draft.stops_patchHere hgone _
    · exact fun d₃ hlive₃ => (hlive₃.alike_patchHere _).keeps
  · apply hbranch.keeps_expectLineEnd.bind
    · intro d₂ hgone
      apply (stops_arms hgone fuel _ _).bind
      intro r hgone
      exact (stops_elseBlock hgone fuel).bind (stops_conditionalEnd r.2)
    · intro d₂ hlive₂
      apply (keeping.arms d₁.address [] hfuel hlive₂).bind
      · intro r _ hgone
        exact (stops_elseBlock hgone fuel).bind (stops_conditionalEnd r.2)
      · rintro ⟨d₃, jumps⟩ ⟨d₃', jumps'⟩ - ⟨⟨hlive₃, heq⟩, hjumps⟩
        dsimp only at hlive₃ heq hjumps ⊢
        subst heq hjumps
        apply (keeping.elseBlock_step hfuel hlive₃).bind
        · exact stops_conditionalEnd jumps'
        · intro d₄ hlive₄
          apply (hlive₄.alike_expect (by decide)).bind
          intro d₅ _ hlive₅
          apply (hlive₅.keeps_patchAllHere jumps').bind
          · exact fun d₆ hgone => Draft.stops_expectLineEnd hgone
          · exact fun d₆ hlive₆ => hlive₆.keeps_expectLineEnd

end Keeping

theorem keeping (more : List Token) (last : Int) (fuel : Nat) : Keeping more last fuel := by
  induction fuel with
  | zero => constructor <;> intros <;> exact .inl (.inr rfl)
  | succ fuel ih =>
      have hsucc : ∀ {fuel' : Nat}, fuel + 1 ≤ fuel' → ∃ n, fuel' = n + 1 ∧ fuel ≤ n := by
        intro fuel' hle
        exact ⟨fuel' - 1, by omega, by omega⟩
      refine ⟨?_, ?_, ?_, ?_, ?_, ?_⟩
      · intro enders d fuel' hle h
        obtain ⟨n, rfl, hn⟩ := hsucc hle
        exact ih.block_step enders hn h
      · intro d fuel' hle h
        obtain ⟨n, rfl, hn⟩ := hsucc hle
        exact ih.statement_step hn h
      · intro d fuel' hle h
        obtain ⟨n, rfl, hn⟩ := hsucc hle
        exact ih.conditional_step hn h
      · intro d branch jumps fuel' hle h
        obtain ⟨n, rfl, hn⟩ := hsucc hle
        exact ih.arms_step branch jumps hn h
      · intro d fuel' hle h
        obtain ⟨n, rfl, hn⟩ := hsucc hle
        exact ih.loop_step hn h
      · intro d fuel' hle h
        obtain ⟨n, rfl, hn⟩ := hsucc hle
        exact ih.function_step hn h

end LineScript.Compile

namespace LineScript.Compiler

open LineScript.Code LineScript.Tree LineScript.Compile

/-! ## Scripts -/

/-- With more tokens behind, a compilation begins with the same draft, followed by them. -/
theorem draft_append (c : Compiler) (tokens more : List Token) :
    ∃ last, c.draft (tokens ++ more) = (c.draft tokens).followed more last :=
  ⟨_, rfl⟩

/-- Tokens that do not compile, though the error is not at their end, do not compile with
more tokens behind them, and the error is the same. -/
theorem compile_append (c : Compiler) {tokens : List Token} (more : List Token) {e : CompileError}
    (hlive : (c.draft tokens).Live) (h : c.compile tokens = .error e) (hend : e.atEnd = false)
    (hkind : e.kind ≠ .internalError) : c.compile (tokens ++ more) = .error e := by
  have hparallel : Parallel (fun _ => True) (fun _ _ => True) (c.compile tokens)
      (c.compile (tokens ++ more)) := by
    obtain ⟨last, hdraft⟩ := c.draft_append tokens more
    have hfuel : 4 * (c.draft tokens).rest.length + 4 ≤
        4 * ((c.draft tokens).followed more last).rest.length + 4 := by
      simp only [Draft.followed, List.length_append]
      omega
    unfold compile block
    rw [hdraft]
    apply ((keeping more last _).block [] hfuel hlive).bind
    · intro d _
      unfold Draft.checkResolved
      split
      · trivial
      · exact .inr rfl
    · intro d hd
      apply hd.alike_checkResolved.bind
      exact fun d₁ _ _ => .inr ⟨_, rfl, trivial⟩
  rw [h] at hparallel
  obtain (hatEnd | hinternal) | hsame := hparallel
  · rw [hatEnd] at hend
    cases hend
  · exact absurd hinternal hkind
  · exact hsame

/-- What the tokens of a script are like where a compilation begins. -/
theorem live_draft (c : Compiler) {source : String} {tokens : List Token}
    (h : Token.scan source = .ok tokens) : (c.draft tokens).Live := by
  obtain ⟨hproper, hne, hlast⟩ := Token.proper_of_scan h
  exact ⟨hne, fun t ht => (hproper t ht).1, hlast⟩

/-- No script causes an internal error. -/
theorem kind_of_compile (c : Compiler) {source : String} {tokens : List Token} {e : CompileError}
    (hscan : Token.scan source = .ok tokens) (h : c.compile tokens = .error e) :
    e.kind ≠ .internalError := by
  obtain ⟨hproper, -, -⟩ := Token.proper_of_scan hscan
  have hsound := c.sound_compile (fun t ht h => ((hproper t ht).2 h).2)
    (fun t ht => (hproper t ht).1)
  rw [h] at hsound
  exact hsound

/-- A script with a mistake before its end has it however it goes on. -/
theorem compileSource_append (c : Compiler) {source : String} (more : String) {e : CompileError}
    (h : c.compileSource source = .error e) (hcomplete : e.isIncomplete = false) :
    ∃ e', c.compileSource (source ++ "\n" ++ more) = .error e' ∧
      ((Token.scan source).isOk = true → (Token.scan (source ++ "\n" ++ more)).isOk = true →
        e' = e) := by
  have hscan := Token.continued_scan source more
  unfold compileSource at h ⊢
  cases htokens : Token.scan source with
  | error cause =>
      rw [htokens] at hscan
      obtain ⟨cause', hcause⟩ := hscan
      rw [hcause]
      exact ⟨cause', rfl, fun hok => nomatch hok⟩
  | ok tokens =>
      rw [htokens] at hscan h
      have h : c.compile tokens = .error e := h
      obtain ⟨cause, hcause⟩ | ⟨rest, hrest⟩ := hscan
      · rw [hcause]
        exact ⟨cause, rfl, fun _ hok => nomatch hok⟩
      · rw [hrest]
        exact ⟨e, c.compile_append rest (c.live_draft htokens) h hcomplete
          (c.kind_of_compile htokens h), fun _ _ => rfl⟩

/-- A valid script of several lines is never cut off with an error. An error of its first
lines that asks for no further line stays whatever follows; and the first lines of a
script that compiles do compile, or ask for a further line. -/
theorem never_cut_off (c : Compiler) (source more : String) :
    (∀ e, c.compileSource source = .error e → e.isIncomplete = false →
      ∃ e', c.compileSource (source ++ "\n" ++ more) = .error e' ∧
        ((Token.scan source).isOk = true → (Token.scan (source ++ "\n" ++ more)).isOk = true →
          e'.kind = e.kind ∧ e'.line = e.line ∧ e'.message = e.message)) ∧
    ∀ p, c.compileSource (source ++ "\n" ++ more) = .ok p →
      (∃ q, c.compileSource source = .ok q) ∨
        ∃ e, c.compileSource source = .error e ∧ e.isIncomplete = true := by
  constructor
  · intro e he hcomplete
    obtain ⟨e', he', hsame⟩ := c.compileSource_append more he hcomplete
    refine ⟨e', he', fun hok hok' => ?_⟩
    cases hsame hok hok'
    exact ⟨rfl, rfl, rfl⟩
  · intro p hp
    cases hsource : c.compileSource source with
    | ok q => exact .inl ⟨q, rfl⟩
    | error e =>
        refine .inr ⟨e, rfl, ?_⟩
        cases hincomplete : e.isIncomplete with
        | true => rfl
        | false =>
            obtain ⟨e', he', -⟩ := c.compileSource_append more hsource hincomplete
            rw [hp] at he'
            cases he'

/-- A variable that does not exist in the first line is missed in every script that begins
with that line. -/
theorem never_cut_off_undefined :
    ∃ e, compileSource {} "x = y" = .error e ∧ e.isIncomplete = false ∧
      ∃ e', compileSource {} ("x = y" ++ "\n" ++ "y = x") = .error e' := by
  have hfails : ((compileSource {} "x = y").map fun _ => ()).mapError CompileError.isIncomplete =
      .error false := by
    decide +kernel
  cases hsource : compileSource {} "x = y" with
  | ok p =>
      rw [hsource] at hfails
      cases hfails
  | error e =>
      rw [hsource] at hfails
      have hcomplete : e.isIncomplete = false := Except.error.inj hfails
      obtain ⟨e', he', -⟩ := (never_cut_off {} "x = y" "y = x").1 e hsource hcomplete
      exact ⟨e, rfl, hcomplete, e', he'⟩

end LineScript.Compiler
