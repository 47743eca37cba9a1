/-
# Statements move on

Some statements consume nothing on some of their ways: the end of the input ends a line, a bare return has no
value, a block may have no statements. What moves them on is the token that told which statement it is, or the
expression they begin with. So every statement that succeeds has consumed a token, and like the parts of an
expression it does not look behind the end of the input and has fuel enough.
-/

import LineScript.Proofs.ExpressionProgress

namespace LineScript.Compile

open LineScript.Code Draft

/-! ## Turns -/

/-- One statement of a block. -/
def blockTurn (fuel : Nat) (enders : List TokenKind) (d : Draft) : Except CompileError (Draft ⊕ Draft) :=
  if d.atEnd || enders.contains d.peek.kind then .ok (.inr d) else (statement fuel d).map .inl

/-- One parameter of a function, with the comma after it. -/
def parameterTurn (d : Draft) (names : List String) :
    Except CompileError ((Draft × List String) ⊕ (Draft × List String)) :=
  let t := d.peek
  if t.kind = .identifier then
    if names.contains t.text then .error (.at_ t (.duplicateParameter t.text))
    else if d.next.sees .comma then .ok (.inl (d.next.next.skipLineBreaks, t.text :: names))
    else .ok (.inr (d.next, (t.text :: names).reverse))
  else .ok (.inr (d, names.reverse))

/-- One arm of a conditional, with the `elif` and the condition of the next one. -/
def armTurn (fuel : Nat) (d : Draft) (branch : Nat) (jumps : List Nat) :
    Except CompileError ((Draft × Nat × List Nat) ⊕ (Draft × List Nat)) := do
  let d ← blockWith fuel [.end_, .elif, .else_] d
  let jumps := jumps ++ [d.address]
  let d ← (d.emitJump .jump).patchHere branch
  if d.sees .elif then
    let d ← expression d.next
    let branch := d.address
    let d ← (d.emitJump .branch).expectLineEnd
    .ok (.inl (d, branch, jumps))
  else .ok (.inr (d, jumps))

section

variable (fuel : Nat) (d : Draft)

theorem blockWith_turn (enders : List TokenKind) :
    blockWith (fuel + 1) enders d =
      blockTurn fuel enders d >>= Sum.elim (blockWith fuel enders) .ok := by
  rw [blockWith, blockTurn]
  split
  · rfl
  · cases statement fuel d <;> rfl

theorem parameters_turn (names : List String) :
    parameters (fuel + 1) d names =
      parameterTurn d names >>= Sum.elim (fun s => parameters fuel s.1 s.2) .ok := by
  rw [parameters, parameterTurn]
  split
  · split
    · rfl
    · split <;> rfl
  · rfl

theorem arms_turn (branch : Nat) (jumps : List Nat) :
    arms (fuel + 1) d branch jumps =
      armTurn fuel d branch jumps >>= Sum.elim (fun s => arms fuel s.1 s.2.1 s.2.2) .ok := by
  rw [arms, armTurn, bind_assoc]
  congr 1
  funext d₁
  dsimp only
  rw [bind_assoc]
  congr 1
  funext d₂
  split
  · simp only [bind_assoc, ok_bind, Sum.elim_inl]
  · rfl

end

/-! ## Simple statements -/

section

variable {lasts : Prop} (d : Draft)

theorem paired_expressionStatement :
    Paired lasts cut (Further d) (expressionStatement d) (expressionStatement d.cut) := by
  unfold expressionStatement
  apply (paired_expression d).bind
  intro d₁ h₁
  rw [emit_cut]
  exact (paired_expectLineEnd (d₁.emit .pop)).imp fun _ h => h₁.trans h

theorem paired_elementAssignment (name : String) :
    Paired lasts cut (Further d) (elementAssignment d name) (elementAssignment d.cut name) := by
  unfold elementAssignment
  rw [emitName_cut, skipLineBreaks_cut]
  apply (paired_expression _).bind
  intro d₁ h₁
  have hindex : d.Further d₁ := (within_skipLineBreaks (d.emitName .load name)).further h₁
  apply (paired_closing d₁ (by decide)).bind
  intro d₂ h₂
  apply (paired_expect d₂ (by decide)).bind
  intro d₃ h₃
  apply (paired_expression d₃).bind
  intro d₄ h₄
  have hvalue : d.Further d₄ := hindex.trans (h₂.within.trans (h₃.within.trans h₄.within))
  rw [emit_cut]
  exact (paired_expectLineEnd (d₄.emit .put)).imp fun _ h => hvalue.trans h

theorem paired_memberAssignment (name : String) :
    Paired lasts cut (Further d) (memberAssignment d name) (memberAssignment d.cut name) := by
  unfold memberAssignment
  rw [emitName_cut]
  apply (paired_expectText (d.emitName .load name) (by decide)).bind
  rintro ⟨member, d₁⟩ h₁
  apply (paired_expect d₁ (by decide)).bind
  intro d₂ h₂
  apply (paired_expression d₂).bind
  intro d₃ h₃
  have hvalue : d.Further d₃ := Further.trans h₁ (h₂.within.trans h₃.within)
  dsimp only [Prod.map, id]
  rw [emitName_cut, emit_cut]
  exact (paired_expectLineEnd ((d₃.emitName .set member).emit .pop)).imp fun _ h => hvalue.trans h

theorem paired_assignment (name : String) (visible : Bool) :
    Paired lasts cut (Further d) (assignment d name visible) (assignment d.cut name visible) := by
  unfold assignment
  apply (paired_expression d).bind
  intro d₁ h₁
  dsimp only
  cases visible with
  | true =>
      rw [if_pos rfl, if_pos rfl, emitName_cut]
      exact (paired_expectLineEnd (d₁.emitName .store name)).imp fun _ h => h₁.trans h
  | false =>
      rw [if_neg Bool.false_ne_true, if_neg Bool.false_ne_true, declare_cut, emitName_cut]
      exact (paired_expectLineEnd ((d₁.declare name).emitName .store name)).imp fun _ h => h₁.trans h

/-- A statement that begins with a name has consumed two tokens, or it is an expression. -/
theorem paired_declaration (hend : d.atEnd = false) :
    Paired lasts cut (Further d) (declaration d) (declaration d.cut) := by
  unfold declaration
  simp only [peek_cut, peekSecond_cut hend, sees?_cut, next_cut hend]
  have hinner : d.peekSecond.kind ≠ .endOfInput →
      d.next.cut.next = d.next.next.cut ∧ d.Within d.next.next := by
    intro hkind
    have hend' : d.next.atEnd = false := atEnd_eq_false_iff.mpr (by rwa [peek_next])
    exact ⟨next_cut hend', (further_next hend).within.trans (further_next hend').within⟩
  split
  case h_4 => exact paired_expressionStatement d
  all_goals
    rename_i hkind
    obtain ⟨hcut, hwithin⟩ := hinner (by rw [hkind]; decide)
    rw [hcut]
  · exact (paired_assignment _ _ _).imp fun _ h => hwithin.further h
  · split
    · exact (paired_elementAssignment _ _).imp fun _ h => hwithin.further h
    · exact paired_error rfl
  · split
    · exact (paired_memberAssignment _ _).imp fun _ h => hwithin.further h
    · exact paired_error rfl

/-- A return without a value may be the last token, or have a line break behind it. -/
theorem paired_returnStatement (hend : d.atEnd = false) :
    Paired lasts cut (Further d) (returnStatement d) (returnStatement d.cut) := by
  have hnext := further_next hend
  unfold returnStatement
  dsimp only
  rw [next_cut hend, atEnd_cut, sees_cut]
  split
  · rw [emitValue_cut, emit_cut]
    exact paired_ok hnext
  split
  · rename_i hbreak
    have hend' := atEnd_of_sees hbreak (by decide)
    rw [next_cut hend', emitValue_cut, emit_cut]
    exact paired_ok (hnext.trans (further_next hend').within)
  apply (paired_expression d.next).bind
  intro d₁ h₁
  apply (paired_expectLineEnd d₁).bind
  intro d₂ h₂
  rw [emit_cut]
  exact paired_ok (hnext.trans (h₁.within.trans h₂))

theorem paired_inlineStatement :
    Paired lasts cut (Further d) (inlineStatement d) (inlineStatement d.cut) := by
  unfold inlineStatement
  rw [peek_cut]
  split
  · exact paired_declaration d (atEnd_eq_false_iff.mpr (by rw [‹d.peek.kind = _›]; decide))
  · exact paired_returnStatement d (atEnd_eq_false_iff.mpr (by rw [‹d.peek.kind = _›]; decide))
  · exact paired_expressionStatement d

/-! ## Headers of functions -/

theorem paired_parameterTurn (names : List String) :
    Paired lasts (Sum.map (Prod.map cut id) (Prod.map cut id))
      (Sum.elim (fun s => d.Further s.1) fun r => d.Within r.1) (parameterTurn d names)
      (parameterTurn d.cut names) := by
  unfold parameterTurn
  dsimp only
  rw [peek_cut]
  split
  · rename_i hkind
    have hend : d.atEnd = false := atEnd_eq_false_iff.mpr (by rw [hkind]; decide)
    have hnext := further_next hend
    rw [next_cut hend, sees_cut]
    split
    · exact paired_error rfl
    split
    · rw [item_cut ‹_›]
      exact paired_ok (hnext.trans (further_item ‹_›).within)
    · exact paired_ok hnext.within
  · exact paired_ok (within_of_rest_eq rfl)

/-- A unit of fuel for each token ahead is enough for the parameters. -/
theorem paired_parameters (fuel fuel' : Nat) (names : List String) :
    Paired (d.ahead.length < fuel ∧ d.ahead.length < fuel') (Prod.map cut id) (fun r => d.Within r.1)
      (parameters fuel d names) (parameters fuel' d.cut names) := by
  induction fuel generalizing fuel' d names with
  | zero => exact paired_exhausted fun h => absurd h.1 (Nat.not_lt_zero _)
  | succ fuel ih =>
      have hsucc : ∀ fuel', Paired (d.ahead.length < fuel + 1 ∧ d.ahead.length < fuel' + 1)
          (Prod.map cut id) (fun r => d.Within r.1) (parameters (fuel + 1) d names)
          (parameters (fuel' + 1) d.cut names) := by
        intro fuel'
        rw [parameters_turn, parameters_turn]
        apply (paired_parameterTurn d names).bind
        rintro (⟨d₁, names₁⟩ | r) h₁
        · have hfurther : d.Further d₁ := h₁
          have hlength := hfurther.length_lt
          exact ((ih d₁ fuel' names₁).mono fun ⟨h, h'⟩ => ⟨by omega, by omega⟩).imp
            fun _ h => hfurther.within.trans h
        · exact paired_ok h₁
      cases fuel' with
      | zero => exact (hsucc 0).of_not fun h => absurd h.2 (Nat.not_lt_zero _)
      | succ fuel' => exact hsucc fuel'

theorem paired_functionHeader :
    Paired lasts cut (Further d) (functionHeader d) (functionHeader d.cut) := by
  unfold functionHeader
  rw [peek_cut]
  apply (paired_expect d (by decide)).bind
  intro d₁ h₁
  rw [arity?_cut]
  split
  · exact paired_error rfl
  apply (paired_expect d₁ (by decide)).bind
  intro d₂ h₂
  have hlength := d₂.length_ahead_le
  have hcut := d₂.length_rest_cut
  have hparameters := (paired_parameters d₂ (d₂.rest.length + 1) (d₂.cut.rest.length + 1) []).mono
    fun _ : lasts => ⟨by omega, by omega⟩
  apply hparameters.bind
  rintro ⟨d₃, params⟩ h₃
  apply (paired_expect d₃ (by decide)).bind
  intro d₄ h₄
  apply (paired_expectLineEnd d₄).bind
  intro d₅ h₅
  have hentered := d₅.within_enter d.peek.text params
  rw [enter_cut]
  exact paired_ok (h₁.trans (h₂.within.trans (Within.trans h₃ (h₄.within.trans (h₅.trans hentered)))))

end

/-! ## Statements -/

/-- With these fuels for a draft and for the cut draft, all statements go side by side. -/
structure StatementsPaired (fuel fuel' : Nat) : Prop where
  block : ∀ (enders : List TokenKind) (d : Draft), Paired (Lasting 1 d fuel fuel') cut (Within d)
    (blockWith fuel enders d) (blockWith fuel' enders d.cut)
  statement : ∀ (d : Draft), Paired (Lasting 0 d fuel fuel') cut (Further d) (statement fuel d)
    (statement fuel' d.cut)
  conditional : ∀ (d : Draft), Paired (Lasting 3 d fuel fuel') cut (Further d) (ifStatement fuel d)
    (ifStatement fuel' d.cut)
  arms : ∀ (d : Draft) (branch : Nat) (jumps : List Nat), Paired (Lasting 2 d fuel fuel')
    (Prod.map cut id) (fun r => d.Within r.1) (arms fuel d branch jumps) (arms fuel' d.cut branch jumps)
  loop : ∀ (d : Draft), Paired (Lasting 3 d fuel fuel') cut (Further d) (whileStatement fuel d)
    (whileStatement fuel' d.cut)
  function : ∀ (d : Draft), Paired (Lasting 3 d fuel fuel') cut (Further d) (functionDefinition fuel d)
    (functionDefinition fuel' d.cut)

namespace StatementsPaired

variable {fuel fuel' : Nat} (h : StatementsPaired fuel fuel') (d : Draft)
include h

/-! ### One turn -/

theorem blockTurn (enders : List TokenKind) :
    Paired (Lasting 1 d (fuel + 1) (fuel' + 1)) (Sum.map cut cut) (Sum.elim (Further d) (Within d))
      (blockTurn fuel enders d) (blockTurn fuel' enders d.cut) := by
  unfold Compile.blockTurn
  rw [atEnd_cut, peek_cut]
  split
  · exact paired_ok (within_of_rest_eq rfl)
  · exact ((h.statement d).mono (lasting_same (by omega))).map
      (fun _ h => h) fun _ => rfl

theorem armTurn (branch : Nat) (jumps : List Nat) :
    Paired (Lasting 2 d (fuel + 1) (fuel' + 1)) (Sum.map (Prod.map cut id) (Prod.map cut id))
      (Sum.elim (fun s => d.Further s.1) fun r => d.Within r.1) (armTurn fuel d branch jumps)
      (armTurn fuel' d.cut branch jumps) := by
  unfold Compile.armTurn
  apply ((h.block _ d).mono (lasting_same (by omega))).bind
  intro d₁ h₁
  dsimp only
  rw [emitJump_cut]
  apply (paired_patchHere (d₁.emitJump .jump) branch).bind
  intro d₂ h₂
  have hwithin : d.Within d₂ := h₁.trans h₂
  rw [sees_cut]
  split
  · have hend := atEnd_of_sees ‹_› (by decide)
    rw [next_cut hend]
    apply (paired_expression d₂.next).bind
    intro d₃ h₃
    rw [emitJump_cut]
    apply (paired_expectLineEnd (d₃.emitJump .branch)).bind
    intro d₄ h₄
    have hcondition : d₂.Further d₄ := (further_next hend).trans (h₃.within.trans h₄)
    exact paired_ok (hwithin.further hcondition)
  · exact paired_ok hwithin

/-! ### One unit of fuel more -/

theorem block_step (enders : List TokenKind) :
    Paired (Lasting 1 d (fuel + 1) (fuel' + 1)) cut (Within d) (blockWith (fuel + 1) enders d)
      (blockWith (fuel' + 1) enders d.cut) := by
  rw [blockWith_turn, blockWith_turn]
  apply (h.blockTurn d enders).bind
  rintro (d₁ | d₁) h₁
  · have hfurther : d.Further d₁ := h₁
    exact (h.block enders d₁).after hfurther (by omega) fun _ h => hfurther.within.trans h
  · exact paired_ok h₁

theorem statement_step :
    Paired (Lasting 0 d (fuel + 1) (fuel' + 1)) cut (Further d) (Compile.statement (fuel + 1) d)
      (Compile.statement (fuel' + 1) d.cut) := by
  have hnext : d.peek.kind ≠ .endOfInput → d.cut.next = d.next.cut ∧ d.Further d.next := by
    intro hkind
    have hend : d.atEnd = false := atEnd_eq_false_iff.mpr hkind
    exact ⟨next_cut hend, further_next hend⟩
  unfold Compile.statement
  dsimp only
  rw [peek_cut]
  cases hkind : d.peek.kind
  case identifier => exact paired_declaration d (atEnd_eq_false_iff.mpr (by rw [hkind]; decide))
  case return_ => exact paired_returnStatement d (atEnd_eq_false_iff.mpr (by rw [hkind]; decide))
  case if_ =>
    obtain ⟨hcut, hfurther⟩ := hnext (by rw [hkind]; decide)
    dsimp only
    rw [hcut]
    exact (h.conditional d.next).after hfurther (by omega) fun _ h => hfurther.trans h.within
  case while_ =>
    obtain ⟨hcut, hfurther⟩ := hnext (by rw [hkind]; decide)
    dsimp only
    rw [hcut]
    exact (h.loop d.next).after hfurther (by omega) fun _ h => hfurther.trans h.within
  case func =>
    obtain ⟨hcut, hfurther⟩ := hnext (by rw [hkind]; decide)
    have houter : d.cut.outer? = d.outer? := rfl
    dsimp only
    rw [hcut, houter]
    split
    · exact paired_error rfl
    · exact (h.function d.next).after hfurther (by omega) fun _ h => hfurther.trans h.within
  case lineBreak =>
    obtain ⟨hcut, hfurther⟩ := hnext (by rw [hkind]; decide)
    dsimp only
    rw [hcut]
    exact paired_ok hfurther
  case end_ | elif | else_ => exact paired_error rfl
  all_goals exact paired_expressionStatement d

theorem conditional_step :
    Paired (Lasting 3 d (fuel + 1) (fuel' + 1)) cut (Further d) (ifStatement (fuel + 1) d)
      (ifStatement (fuel' + 1) d.cut) := by
  unfold ifStatement
  apply (paired_expression d).bind
  intro d₁ h₁
  dsimp only
  rw [emitJump_cut, sees_cut]
  have hbranch : d.Further (d₁.emitJump .branch) := h₁
  split
  · have hend := atEnd_of_sees ‹_› (by decide)
    rw [next_cut hend]
    apply (paired_inlineStatement _).bind
    intro d₂ h₂
    have hinline : d.Further d₂ := hbranch.trans ((further_next hend).within.trans h₂.within)
    exact (paired_patchHere d₂ d₁.address).imp fun _ h => hinline.trans h
  apply (paired_expectLineEnd _).bind
  intro d₂ h₂
  have hline : d.Further d₂ := hbranch.trans h₂
  apply ((h.arms d₂ d₁.address []).mono (lasting_of_further hline (by omega))).bind
  rintro ⟨d₃, jumps⟩ h₃
  have harms : d.Further d₃ := hline.trans h₃
  -- What is left after the last arm.
  have hrest : ∀ d₄ : Draft, d.Further d₄ → Paired (Lasting 3 d (fuel + 1) (fuel' + 1)) cut (Further d)
      (d₄.expect .end_ >>= fun d => d.patchAllHere jumps >>= fun d => d.expectLineEnd)
      (d₄.cut.expect .end_ >>= fun d => d.patchAllHere jumps >>= fun d => d.expectLineEnd) := by
    intro d₄ h₄
    apply (paired_expect d₄ (by decide)).bind
    intro d₅ h₅
    apply (paired_patchAllHere d₅ jumps).bind
    intro d₆ h₆
    exact (paired_expectLineEnd d₆).imp fun _ h => h₄.trans (h₅.within.trans (h₆.trans h))
  simp only [Prod.map_apply, id_eq, sees_cut]
  split
  · have hend := atEnd_of_sees ‹_› (by decide)
    rw [next_cut hend]
    apply (paired_expectLineEnd d₃.next).bind
    intro d₄ h₄
    have helse : d.Further d₄ := harms.trans ((further_next hend).within.trans h₄)
    apply ((h.block _ d₄).mono (lasting_of_further helse (by omega))).bind
    intro d₅ h₅
    exact hrest d₅ (helse.trans h₅)
  · exact hrest d₃ harms

theorem arms_step (branch : Nat) (jumps : List Nat) :
    Paired (Lasting 2 d (fuel + 1) (fuel' + 1)) (Prod.map cut id) (fun r => d.Within r.1)
      (Compile.arms (fuel + 1) d branch jumps) (Compile.arms (fuel' + 1) d.cut branch jumps) := by
  rw [arms_turn, arms_turn]
  apply (h.armTurn d branch jumps).bind
  rintro (⟨d₁, branch₁, jumps₁⟩ | r) h₁
  · have hfurther : d.Further d₁ := h₁
    exact (h.arms d₁ branch₁ jumps₁).after hfurther (by omega) fun _ h => hfurther.within.trans h
  · exact paired_ok h₁

theorem loop_step :
    Paired (Lasting 3 d (fuel + 1) (fuel' + 1)) cut (Further d) (whileStatement (fuel + 1) d)
      (whileStatement (fuel' + 1) d.cut) := by
  unfold whileStatement
  apply (paired_expression d).bind
  intro d₁ h₁
  apply (paired_expectLineEnd d₁).bind
  intro d₂ h₂
  have hcondition : d.Further (d₂.emitJump .branch) := h₁.trans h₂
  dsimp only
  rw [emitJump_cut]
  apply ((h.block _ _).mono (lasting_of_further hcondition (by omega))).bind
  intro d₃ h₃
  rw [address_cut, address_cut, emitJumpTo_cut]
  apply (paired_patchHere (d₃.emitJumpTo .jump d.address) d₂.address).bind
  intro d₄ h₄
  have hbody : d.Further d₄ := hcondition.trans (Within.trans h₃ h₄)
  apply (paired_expect d₄ (by decide)).bind
  intro d₅ h₅
  exact (paired_expectLineEnd d₅).imp fun _ h => hbody.trans (h₅.within.trans h)

theorem function_step :
    Paired (Lasting 3 d (fuel + 1) (fuel' + 1)) cut (Further d) (functionDefinition (fuel + 1) d)
      (functionDefinition (fuel' + 1) d.cut) := by
  unfold functionDefinition
  apply (paired_functionHeader d).bind
  intro d₁ h₁
  apply ((h.block _ d₁).mono (lasting_of_further h₁ (by omega))).bind
  intro d₂ h₂
  rw [emitValue_cut, emit_cut]
  apply (paired_expect ((d₂.emitValue .null).emit .ret) (by decide)).bind
  intro d₃ h₃
  have hbody : d.Further d₃ := h₁.trans (h₂.trans (Further.within h₃))
  apply (paired_checkResolved d₃).bind
  intro d₄ h₄
  rw [leave_cut]
  exact (paired_expectLineEnd d₄.leave).imp fun _ h => hbody.trans (h₄.trans (d₄.within_leave.trans h))

/-- Both fuels follow from the ones before. -/
theorem succ : StatementsPaired (fuel + 1) (fuel' + 1) where
  block enders d := h.block_step d enders
  statement := h.statement_step
  conditional := h.conditional_step
  arms := h.arms_step
  loop := h.loop_step
  function := h.function_step

/-- No fuel on the other side is as good as any, since it does not last. -/
theorem without : StatementsPaired fuel 0 where
  block enders d := (h.block enders d).of_not not_lasting_zero
  statement d := (h.statement d).of_not not_lasting_zero
  conditional d := (h.conditional d).of_not not_lasting_zero
  arms d branch jumps := (h.arms d branch jumps).of_not not_lasting_zero
  loop d := (h.loop d).of_not not_lasting_zero
  function d := (h.function d).of_not not_lasting_zero

end StatementsPaired

theorem statementsPaired (fuel fuel' : Nat) : StatementsPaired fuel fuel' := by
  induction fuel generalizing fuel' with
  | zero => constructor <;> intros <;> exact paired_exhausted fun h => absurd h.1 (Nat.not_lt_zero _)
  | succ fuel ih =>
      cases fuel' with
      | zero => exact (ih 0).succ.without
      | succ fuel' => exact (ih fuel').succ

end LineScript.Compile
