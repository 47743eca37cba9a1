/-
# Expressions move on

Every part of the compiler of expressions that succeeds has consumed a token, apart from the rows of elements
and members, which may be empty. No part consumes the end of the input, none can tell what stands behind it,
and with four units of fuel for each token ahead none runs out of it.

A turn of one of the loops among them either comes to the next one, and then it has consumed a token, or it
ends the loop.
-/

import LineScript.Proofs.InputEnd

namespace LineScript.Compile

open LineScript.Code Draft

/-! ## Pending operators -/

section

variable {lasts : Prop} (d : Draft)

theorem paired_emitOperator (o : Operator) (skip? : Option Nat) :
    Paired lasts cut (Within d) (emitOperator d o skip?) (emitOperator d.cut o skip?) := by
  unfold emitOperator
  cases o.op? with
  | none =>
      cases skip? with
      | none => exact paired_ok (within_of_rest_eq rfl)
      | some address => exact paired_patchHere d address
  | some op =>
      dsimp only
      rw [emit_cut]
      cases skip? with
      | none => exact paired_ok (within_of_rest_eq rfl)
      | some address => exact paired_patchHere (d.emit op) address

theorem paired_reduce (priority : Nat) (pending : List Pending) :
    Paired lasts (Prod.map cut id) (fun r => d.Within r.1) (reduce d priority pending)
      (reduce d.cut priority pending) := by
  induction pending generalizing d with
  | nil => exact paired_ok (within_of_rest_eq rfl)
  | cons entry pending ih =>
      cases entry with
      | paren => exact paired_ok (within_of_rest_eq rfl)
      | operator o skip? =>
          rw [reduce_operator, reduce_operator]
          split
          · exact paired_ok (within_of_rest_eq rfl)
          · apply (paired_emitOperator d o skip?).bind
            intro d₁ h₁
            exact (ih d₁).imp fun _ h => h₁.trans h

/-- Both find an open parenthesis or neither does. -/
theorem paired_closeParen (pending : List Pending) :
    (closeParen d pending = none ∧ closeParen d.cut pending = none) ∨
      ∃ r r', closeParen d pending = some r ∧ closeParen d.cut pending = some r' ∧
        Paired True (Prod.map cut id) (fun r => d.Within r.1) r r' := by
  induction pending generalizing d with
  | nil => exact .inl ⟨rfl, rfl⟩
  | cons entry pending ih =>
      cases entry with
      | paren => exact .inr ⟨_, _, rfl, rfl, paired_ok (within_of_rest_eq rfl)⟩
      | operator o skip? =>
          rw [closeParen, closeParen]
          split
          · have hemit : Paired True cut (Within d) _ _ := paired_emitOperator d o skip?
            cases hr : emitOperator d o skip? with
            | error e =>
                rw [hr] at hemit
                rw [(hemit trivial).2]
                exact .inr ⟨_, _, rfl, rfl, paired_error (decide_eq_false (hemit trivial).1)⟩
            | ok d₁ =>
                rw [hr] at hemit
                obtain ⟨h₁, hcut⟩ := hemit
                rw [hcut trivial]
                obtain hnone | ⟨r, r', hclose, hclose', hpaired⟩ := ih d₁
                · exact .inl hnone
                · exact .inr ⟨r, r', hclose, hclose', hpaired.imp fun _ h => h₁.trans h⟩
          · exact .inl ⟨rfl, rfl⟩

theorem paired_emitPending (pending : List Pending) :
    Paired lasts cut (Within d) (emitPending d pending) (emitPending d.cut pending) := by
  induction pending generalizing d with
  | nil => exact paired_ok (within_of_rest_eq rfl)
  | cons entry pending ih =>
      cases entry with
      | paren =>
          rw [emitPending, emitPending, peek_cut]
          exact paired_error rfl
      | operator o skip? =>
          rw [emitPending_operator, emitPending_operator]
          apply (paired_emitOperator d o skip?).bind
          intro d₁ h₁
          exact (ih d₁).imp fun _ h => h₁.trans h

/-- An expression does not end before it has begun. -/
theorem paired_finish (p : Progress) :
    Paired lasts cut (fun d' => d.Within d' ∧ p.fresh = false) (p.finish d) (p.finish d.cut) := by
  unfold Progress.finish
  rw [peek_cut]
  split
  · exact paired_error rfl
  · rename_i hfresh
    split
    · exact paired_error rfl
    · exact (paired_emitPending d p.pending).imp fun _ h => ⟨h, by simpa using hfresh⟩

theorem paired_operator (p : Progress) (o : Operator) :
    Paired lasts (Prod.map cut id) (fun r => d.Within r.1) (p.operator d o) (p.operator d.cut o) := by
  have hreduced : Paired True (Prod.map cut id) (fun r => d.Within r.1)
      (if p.complete then reduce d o.priority p.pending else .ok (d, p.pending))
      (if p.complete then reduce d.cut o.priority p.pending else .ok (d.cut, p.pending)) := by
    split
    · exact paired_reduce d _ _
    · exact paired_ok (within_of_rest_eq rfl)
  unfold Progress.operator
  dsimp only
  generalize (if p.complete then reduce d o.priority p.pending else .ok (d, p.pending)) = r,
    (if p.complete then reduce d.cut o.priority p.pending else .ok (d.cut, p.pending)) = r' at hreduced
  cases r with
  | error e =>
      obtain ⟨hcause, rfl⟩ := hreduced trivial
      exact paired_error (decide_eq_false hcause)
  | ok a =>
      obtain ⟨h₁, hcut⟩ := hreduced
      rw [hcut trivial]
      dsimp only [Prod.map, id]
      cases skipping? o.op? with
      | none => exact paired_ok h₁
      | some skip =>
          dsimp only
          rw [emitJump_cut]
          exact paired_ok h₁

end

/-! ## Expressions -/

/-- With these fuels for a draft and for the cut draft, the parts of an expression go side by side. -/
structure ExpressionsPaired (fuel fuel' : Nat) : Prop where
  expression : ∀ (d : Draft), Paired (Lasting 2 d fuel fuel') cut (Further d)
    (expressionWith fuel d) (expressionWith fuel' d.cut)
  terms : ∀ (d : Draft) (p : Progress), Paired (Lasting 1 d fuel fuel') cut
    (fun d' => d.Within d' ∧ (p.fresh = true → d.Further d')) (terms fuel d p) (terms fuel' d.cut p)
  call : ∀ (d : Draft), d.atEnd = false → d.peekSecond.kind ≠ .endOfInput →
    Paired (Lasting 0 d fuel fuel') cut (Further d) (call fuel d) (call fuel' d.cut)
  arguments : ∀ (d : Draft) (count : Nat), Paired (Lasting 3 d fuel fuel')
    (Prod.map cut id) (fun r => d.Further r.1) (arguments fuel d count) (arguments fuel' d.cut count)
  subscript : ∀ (d : Draft), Paired (Lasting 3 d fuel fuel') cut (Further d)
    (subscript fuel d) (subscript fuel' d.cut)
  elements : ∀ (d : Draft), Paired (Lasting 3 d fuel fuel') cut (Within d)
    (elements fuel d) (elements fuel' d.cut)
  members : ∀ (d : Draft), Paired (Lasting 3 d fuel fuel') cut (Within d)
    (members fuel d) (members fuel' d.cut)

namespace ExpressionsPaired

variable {fuel fuel' : Nat} (h : ExpressionsPaired fuel fuel') (d : Draft)
include h

theorem listLiteral : Paired (Lasting 3 d fuel fuel') cut (Further d) (listLiteral fuel d)
    (listLiteral fuel' d.cut) := by
  unfold Compile.listLiteral
  rw [emit_cut]
  apply (h.elements (d.emit .list)).bind
  intro d₁ h₁
  exact (paired_closing d₁ (by decide)).imp fun _ h => Within.further h₁ h

theorem objectLiteral : Paired (Lasting 3 d fuel fuel') cut (Further d) (objectLiteral fuel d)
    (objectLiteral fuel' d.cut) := by
  unfold Compile.objectLiteral
  rw [emit_cut]
  apply (h.members (d.emit .object)).bind
  intro d₁ h₁
  exact (paired_closing d₁ (by decide)).imp fun _ h => Within.further h₁ h

/-! ### One turn -/

/-- The next turn begins at a later token, and the last one ends nothing that has not begun. -/
theorem operatorTurn (p : Progress) :
    Paired (Lasting 1 d (fuel + 1) (fuel' + 1)) (Sum.map (Prod.map cut id) cut)
      (Sum.elim (fun s => d.Further s.1) fun d' => d.Within d' ∧ p.fresh = false)
      (operatorTurn fuel d p) (operatorTurn fuel' d.cut p) := by
  have hfinish : Paired (Lasting 1 d (fuel + 1) (fuel' + 1)) (Sum.map (Prod.map cut id) cut)
      (Sum.elim (fun s : Draft × Progress => d.Further s.1) fun d' => d.Within d' ∧ p.fresh = false)
      ((p.finish d).map .inr) ((p.finish d.cut).map .inr) :=
    (paired_finish d p).map (fun _ h => h) fun _ => rfl
  unfold Compile.operatorTurn
  simp only [peek_cut]
  split
  case h_1 => exact hfinish
  case h_12 =>
    rw [next_cut (atEnd_eq_false_iff.mpr ‹_›)]
    split
    · exact hfinish
    · exact (paired_operator d.next p _).map
        (fun _ h => (further_next (atEnd_eq_false_iff.mpr ‹_›)).trans h) fun _ => rfl
  all_goals
    rename_i hkind
    have hend : d.atEnd = false := atEnd_eq_false_iff.mpr (by rw [hkind]; decide)
    have hnext := further_next hend
    have hskip := hnext.trans d.next.within_skipLineBreaks
    rw [next_cut hend]
  case h_2 | h_3 | h_4 | h_5 =>
    split
    · exact paired_error rfl
    · rw [emitValue_cut]
      exact paired_ok hnext
  case h_6 =>
    rw [peekSecond_cut hend]
    split
    · exact paired_error rfl
    split
    · rename_i hopen
      have hsecond : d.peekSecond.kind ≠ .endOfInput := by rw [hopen]; decide
      exact ((h.call d hend hsecond).mono (lasting_same (by omega))).map
        (fun _ h => h) fun _ => rfl
    · rw [sees?_cut, emitName_cut]
      split
      · exact paired_ok hnext
      · exact paired_error rfl
  case h_7 =>
    split
    · exact paired_error rfl
    · exact paired_ok hnext
  case h_8 =>
    split
    · exact paired_error rfl
    · obtain ⟨hnone, hnone'⟩ | ⟨r, r', hclose, hclose', hpaired⟩ := paired_closeParen d.next p.pending
      · rw [hnone, hnone']
        exact hfinish
      · rw [hclose, hclose']
        exact (hpaired.mono fun _ => trivial).map (fun _ h => hnext.trans h) fun _ => rfl
  case h_9 =>
    rw [skipLineBreaks_cut]
    split
    · exact ((h.subscript _).mono (lasting_of_further hskip (by omega))).map
        (fun _ h => hskip.trans h.within) fun _ => rfl
    split
    · exact paired_error rfl
    · exact ((h.listLiteral _).mono (lasting_of_further hskip (by omega))).map
        (fun _ h => hskip.trans h.within) fun _ => rfl
  case h_10 =>
    rw [skipLineBreaks_cut]
    split
    · exact paired_error rfl
    · exact ((h.objectLiteral _).mono (lasting_of_further hskip (by omega))).map
        (fun _ h => hskip.trans h.within) fun _ => rfl
  case h_11 =>
    split
    · exact paired_error rfl
    · exact (paired_expectText d.next (by decide)).map (fun _ h => hnext.trans h.within)
        fun r => congrArg (fun d => Sum.inl (d, p)) (emitName_cut r.2 .get r.1)

theorem argumentTurn (count : Nat) :
    Paired (Lasting 3 d (fuel + 1) (fuel' + 1)) (Sum.map (Prod.map cut id) (Prod.map cut id))
      (Sum.elim (fun s => d.Further s.1) fun r => d.Further r.1)
      (argumentTurn fuel d count) (argumentTurn fuel' d.cut count) := by
  unfold Compile.argumentTurn
  apply ((h.expression d).mono (lasting_same (by omega))).bind
  intro d₁ h₁
  rw [sees_cut]
  split
  · rw [item_cut ‹_›]
    exact paired_ok (h₁.trans (further_item ‹_›).within)
  · exact paired_ok h₁

theorem elementTurn :
    Paired (Lasting 3 d (fuel + 1) (fuel' + 1)) (Sum.map cut cut) (Sum.elim (Further d) (Within d))
      (elementTurn fuel d) (elementTurn fuel' d.cut) := by
  unfold Compile.elementTurn
  rw [sees_cut]
  split
  · exact paired_ok (within_of_rest_eq rfl)
  apply ((h.expression d).mono (lasting_same (by omega))).bind
  intro d₁ h₁
  dsimp only
  rw [emit_cut, sees_cut]
  split
  · rw [item_cut ‹_›]
    exact paired_ok (h₁.trans (further_item ‹_›).within)
  · exact paired_ok h₁.within

theorem memberTurn :
    Paired (Lasting 3 d (fuel + 1) (fuel' + 1)) (Sum.map cut cut) (Sum.elim (Further d) (Within d))
      (memberTurn fuel d) (memberTurn fuel' d.cut) := by
  unfold Compile.memberTurn
  rw [sees_cut]
  split
  · exact paired_ok (within_of_rest_eq rfl)
  apply (paired_expectText d (by decide)).bind
  rintro ⟨member, d₁⟩ h₁
  apply (paired_expect d₁ (by decide)).bind
  intro d₂ h₂
  have hvalue : d.Further d₂.skipLineBreaks := h₁.trans (h₂.within.trans d₂.within_skipLineBreaks)
  rw [skipLineBreaks_cut]
  apply ((h.expression _).mono (lasting_of_further hvalue (by omega))).bind
  intro d₃ h₃
  have hset : d.Further d₃ := hvalue.trans h₃.within
  dsimp only [Prod.map, id]
  rw [emitName_cut, sees_cut]
  split
  · rw [item_cut ‹_›]
    exact paired_ok (hset.trans (further_item ‹_›).within)
  · exact paired_ok hset.within

/-! ### One unit of fuel more -/

theorem terms_step (p : Progress) :
    Paired (Lasting 1 d (fuel + 1) (fuel' + 1)) cut
      (fun d' => d.Within d' ∧ (p.fresh = true → d.Further d'))
      (Compile.terms (fuel + 1) d p) (Compile.terms (fuel' + 1) d.cut p) := by
  rw [terms_turn, terms_turn]
  apply (h.operatorTurn d p).bind
  rintro (⟨d₁, p₁⟩ | d₁) h₁
  · have hfurther : d.Further d₁ := h₁
    exact (h.terms d₁ p₁).after hfurther (by omega) fun _ h =>
      ⟨hfurther.within.trans h.1, fun _ => hfurther.trans h.1⟩
  · obtain ⟨hwithin, hfresh⟩ := h₁
    exact paired_ok ⟨hwithin, fun hp => absurd (hfresh.symm.trans hp) Bool.false_ne_true⟩

theorem expression_step :
    Paired (Lasting 2 d (fuel + 1) (fuel' + 1)) cut (Further d) (expressionWith (fuel + 1) d)
      (expressionWith (fuel' + 1) d.cut) := by
  rw [expressionWith, expressionWith]
  exact ((h.terms d {}).mono (lasting_same (by omega))).imp
    fun _ h => h.2 rfl

theorem arguments_step (count : Nat) :
    Paired (Lasting 3 d (fuel + 1) (fuel' + 1)) (Prod.map cut id) (fun r => d.Further r.1)
      (Compile.arguments (fuel + 1) d count) (Compile.arguments (fuel' + 1) d.cut count) := by
  rw [arguments_turn, arguments_turn]
  apply (h.argumentTurn d count).bind
  rintro (⟨d₁, count₁⟩ | r) h₁
  · have hfurther : d.Further d₁ := h₁
    exact (h.arguments d₁ count₁).after hfurther (by omega) fun _ h => hfurther.trans h.within
  · exact paired_ok h₁

theorem elements_step :
    Paired (Lasting 3 d (fuel + 1) (fuel' + 1)) cut (Within d) (Compile.elements (fuel + 1) d)
      (Compile.elements (fuel' + 1) d.cut) := by
  rw [elements_turn, elements_turn]
  apply (h.elementTurn d).bind
  rintro (d₁ | d₁) h₁
  · have hfurther : d.Further d₁ := h₁
    exact (h.elements d₁).after hfurther (by omega) fun _ h => hfurther.within.trans h
  · exact paired_ok h₁

theorem members_step :
    Paired (Lasting 3 d (fuel + 1) (fuel' + 1)) cut (Within d) (Compile.members (fuel + 1) d)
      (Compile.members (fuel' + 1) d.cut) := by
  rw [members_turn, members_turn]
  apply (h.memberTurn d).bind
  rintro (d₁ | d₁) h₁
  · have hfurther : d.Further d₁ := h₁
    exact (h.members d₁).after hfurther (by omega) fun _ h => hfurther.within.trans h
  · exact paired_ok h₁

theorem subscript_step :
    Paired (Lasting 3 d (fuel + 1) (fuel' + 1)) cut (Further d) (Compile.subscript (fuel + 1) d)
      (Compile.subscript (fuel' + 1) d.cut) := by
  rw [subscript_succ, subscript_succ]
  apply ((h.expression d).mono (lasting_same (by omega))).bind
  intro d₁ h₁
  apply (paired_closing d₁ (by decide)).bind
  intro d₂ h₂
  rw [emit_cut]
  exact paired_ok (h₁.trans h₂.within)

/-- The name and the parenthesis of a call are there before it is compiled. -/
theorem call_step (hend : d.atEnd = false) (hsecond : d.peekSecond.kind ≠ .endOfInput) :
    Paired (Lasting 0 d (fuel + 1) (fuel' + 1)) cut (Further d) (Compile.call (fuel + 1) d)
      (Compile.call (fuel' + 1) d.cut) := by
  have hend' : d.next.atEnd = false := atEnd_eq_false_iff.mpr (by rwa [peek_next])
  have hinner : d.Further d.next.next.skipLineBreaks :=
    (further_next hend).trans ((further_next hend').within.trans (within_skipLineBreaks _))
  rw [call_succ, call_succ, arity?_cut, peek_cut, next_cut hend, next_cut hend', skipLineBreaks_cut, sees_cut]
  cases d.arity? d.peek.text with
  | none => exact paired_error rfl
  | some arity =>
      have hgiven : Paired (Lasting 0 d (fuel + 1) (fuel' + 1)) (Prod.map cut id) (fun r => d.Further r.1)
          (if d.next.next.skipLineBreaks.sees .rightParen then .ok (d.next.next.skipLineBreaks, 0)
            else Compile.arguments fuel d.next.next.skipLineBreaks 0)
          (if d.next.next.skipLineBreaks.sees .rightParen then .ok (d.next.next.skipLineBreaks.cut, 0)
            else Compile.arguments fuel' d.next.next.skipLineBreaks.cut 0) := by
        split
        · exact paired_ok hinner
        · exact (h.arguments _ 0).after hinner (by omega) fun _ h => hinner.trans h.within
      apply hgiven.bind
      rintro ⟨d₁, count⟩ h₁
      apply (paired_closing d₁ (by decide)).bind
      intro d₂ h₂
      dsimp only [Prod.map, id]
      split
      · rw [emitName_cut]
        exact paired_ok (h₁.trans h₂.within)
      · exact paired_error rfl

end ExpressionsPaired

/-- Both fuels follow from the ones before. -/
theorem ExpressionsPaired.succ {fuel fuel' : Nat} (h : ExpressionsPaired fuel fuel') :
    ExpressionsPaired (fuel + 1) (fuel' + 1) where
  expression := h.expression_step
  terms := h.terms_step
  call := h.call_step
  arguments := h.arguments_step
  subscript := h.subscript_step
  elements := h.elements_step
  members := h.members_step

/-- No fuel on the other side is as good as any, since it does not last. -/
theorem ExpressionsPaired.without {fuel fuel' : Nat} (h : ExpressionsPaired fuel fuel') :
    ExpressionsPaired fuel 0 where
  expression d := (h.expression d).of_not not_lasting_zero
  terms d p := (h.terms d p).of_not not_lasting_zero
  call d hend hsecond := (h.call d hend hsecond).of_not not_lasting_zero
  arguments d count := (h.arguments d count).of_not not_lasting_zero
  subscript d := (h.subscript d).of_not not_lasting_zero
  elements d := (h.elements d).of_not not_lasting_zero
  members d := (h.members d).of_not not_lasting_zero

theorem expressionsPaired (fuel fuel' : Nat) : ExpressionsPaired fuel fuel' := by
  induction fuel generalizing fuel' with
  | zero => constructor <;> intros <;> exact paired_exhausted fun h => absurd h.1 (Nat.not_lt_zero _)
  | succ fuel ih =>
      cases fuel' with
      | zero => exact (ih 0).succ.without
      | succ fuel' => exact (ih fuel').succ

/-- The fuel that an expression is given lasts, on the cut draft as well. -/
theorem paired_expression {lasts : Prop} (d : Draft) :
    Paired lasts cut (Further d) (expression d) (expression d.cut) := by
  have hlength := d.length_ahead_le
  have hcut := d.length_rest_cut
  unfold expression
  exact ((expressionsPaired _ _).expression d).mono fun _ => ⟨by omega, by omega⟩

end LineScript.Compile
