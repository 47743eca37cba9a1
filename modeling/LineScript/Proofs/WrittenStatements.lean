/-
# Written scripts are compiled again

The tokens of a tree that can be written down and is well scoped are compiled, and what
is compiled is that tree. The statements of a script are compiled by functions that call
each other with a bound on the depth, so every statement here says how large the bound
has to be; four steps for each token are enough, as they are for every script.
-/

import LineScript.Proofs.ProgramTrees
import LineScript.Proofs.WrittenExpressions

namespace LineScript.Compile

open LineScript.Code LineScript.Tree LineScript.Compile.Draft
open LineScript.Compile.Precedence (Reads written expression_eq isEnder not_sees_of_expression
  skipLineBreaks_of_expression)

/-! ## Simple statements -/

/-- The tokens of an expression by itself are compiled as this expression. -/
theorem expression_written {e : Expr} {line : Int} {d : Draft} {rest : List Token}
    (hexpressible : e.Expressible true 0) (hscoped : e.Scoped d.scope)
    (hrest : d.rest = e.tokens line 0 0 ++ rest) (hender : isEnder (firstKind rest) = true) :
    ∃ d', Reads d e d' ∧ d'.rest = rest ∧ expression d = .ok d' := by
  rw [expression_eq]
  exact (written e).expression hexpressible hscoped hrest hender

theorem expressionStatement_written {e : Expr} {line : Int} {d : Draft} {rest : List Token}
    (hexpressible : e.Expressible true 0) (hscoped : e.Scoped d.scope)
    (hrest : d.rest = (Simple.discard e).tokens line ++ rest) :
    ∃ d', ReadsSimple d (.discard e) d' ∧ d'.rest = rest ∧ expressionStatement d = .ok d' := by
  rw [Simple.tokens, List.append_assoc] at hrest
  obtain ⟨d₁, hreads, hrest₁, hexpression⟩ := expression_written hexpressible hscoped hrest rfl
  have hbreak : (d₁.emit .pop).peek.kind = .lineBreak := kind_peek_of (d := d₁.emit .pop) hrest₁
  refine ⟨_, .discard hreads (moves_silent hbreak rfl), rest_next_of (d := d₁.emit .pop) hrest₁, ?_⟩
  unfold expressionStatement
  rw [hexpression, ok_bind, expectLineEnd_of_kind hbreak]

theorem assignment_written {name : String} {value : Expr} {line : Int} {d : Draft}
    {rest : List Token} (hexpressible : value.Expressible true 0) (hscoped : value.Scoped d.scope)
    (hrest : d.rest = (Simple.assign name value).tokens line ++ rest) :
    ∃ d', ReadsSimple d (.assign name value) d' ∧ d'.rest = rest ∧ declaration d = .ok d' := by
  have hrest : d.rest = .ofName name line :: .ofKind .equal line
      :: (value.tokens line 0 0 ++ (.ofBreak line :: rest)) := by
    simpa [Simple.tokens] using hrest
  have hkind : d.peek.kind = .identifier := kind_peek_of hrest
  have htext : d.peek.text = name := by rw [peek_of_cons hrest]; rfl
  have hrest₁ := rest_next_of hrest
  have hequal : d.next.peek.kind = .equal := kind_peek_of hrest₁
  have hopen := (moves_name hkind).trans (moves_symbol hequal rfl)
  obtain ⟨d₁, hreads, hrest₂, hexpression⟩ := expression_written hexpressible
    (by rw [hopen.scope_eq]; exact hscoped) (rest_next_of hrest₁) rfl
  let d₂ := (if d.sees? d.peek.text then d₁ else d₁.declare d.peek.text).emitName .store d.peek.text
  have hrest₂ : d₂.rest = .ofBreak line :: rest := by
    rw [← hrest₂]
    change (if d.sees? d.peek.text then d₁ else d₁.declare d.peek.text).rest = d₁.rest
    split <;> rfl
  have hbreak : d₂.peek.kind = .lineBreak := kind_peek_of hrest₂
  subst htext
  refine ⟨d₂.next, .assign hkind hequal hreads (moves_silent hbreak rfl), rest_next_of hrest₂, ?_⟩
  unfold declaration
  dsimp only
  rw [← peek_next, hequal]
  dsimp only
  unfold assignment
  rw [hexpression, ok_bind]
  exact expectLineEnd_of_kind hbreak

theorem elementAssignment_written {name : String} {position value : Expr} {line : Int} {d : Draft}
    {rest : List Token} (hexpressible : (Simple.assignElement name position value).Expressible)
    (hscoped : (Simple.assignElement name position value).Scoped d.scope)
    (hrest : d.rest = (Simple.assignElement name position value).tokens line ++ rest) :
    ∃ d', ReadsSimple d (.assignElement name position value) d' ∧ d'.rest = rest ∧
      declaration d = .ok d' := by
  have hrest : d.rest = .ofName name line :: .ofKind .leftBracket line
      :: (position.tokens line 0 0 ++ (.ofKind .rightBracket line :: .ofKind .equal line
        :: (value.tokens line 0 0 ++ (.ofBreak line :: rest)))) := by
    simpa [Simple.tokens] using hrest
  have hkind : d.peek.kind = .identifier := kind_peek_of hrest
  have htext : d.peek.text = name := by rw [peek_of_cons hrest]; rfl
  have hrest₁ := rest_next_of hrest
  have hbracket : d.next.peek.kind = .leftBracket := kind_peek_of hrest₁
  have hsees : d.sees? d.peek.text = true := by
    rw [htext, d.sees?_eq_scope]
    exact hscoped.1
  have hopen := ((moves_name hkind).trans (moves_symbol hbracket rfl)).trans
    (d.next.next.moves_emitName .load d.peek.text)
  have hrest₂ : (d.next.next.emitName .load d.peek.text).rest = _ := rest_next_of hrest₁
  have hskip := skipLineBreaks_of_expression position hrest₂
  obtain ⟨d₁, hposition, hrest₃, hexpression₁⟩ := expression_written hexpressible.1
    (by rw [hopen.scope_eq]; exact hscoped.2.1) hrest₂ rfl
  have hclose : d₁.peek.kind = .rightBracket := kind_peek_of hrest₃
  have hskip₁ : d₁.skipLineBreaks = d₁ := skipLineBreaks_of_ne (by rw [hclose]; decide)
  have hrest₄ := rest_next_of hrest₃
  have hequal : d₁.next.peek.kind = .equal := kind_peek_of hrest₄
  have hmiddle := ((hopen.trans hposition.moves).trans (moves_symbol hclose rfl)).trans
    (moves_symbol hequal rfl)
  obtain ⟨d₂, hvalue, hrest₅, hexpression₂⟩ := expression_written hexpressible.2
    (by rw [hmiddle.scope_eq]; exact hscoped.2.2) (rest_next_of hrest₄) rfl
  have hbreak : (d₂.emit .put).peek.kind = .lineBreak := kind_peek_of (d := d₂.emit .put) hrest₅
  subst htext
  refine ⟨_, .assignElement hkind hbracket hsees (by rw [hskip]; exact hposition)
    (by rw [hskip₁]; exact moves_symbol hclose rfl) (moves_symbol hequal rfl) hvalue
    (moves_silent hbreak rfl), rest_next_of (d := d₂.emit .put) hrest₅, ?_⟩
  unfold declaration
  dsimp only
  rw [← peek_next, hbracket]
  dsimp only
  rw [if_pos hsees]
  unfold elementAssignment
  rw [hskip, hexpression₁, ok_bind, hskip₁, expect_of_kind hclose, ok_bind, expect_of_kind hequal,
    ok_bind, hexpression₂, ok_bind, expectLineEnd_of_kind hbreak]

theorem memberAssignment_written {name member : String} {value : Expr} {line : Int} {d : Draft}
    {rest : List Token} (hexpressible : value.Expressible true 0)
    (hscoped : (Simple.assignMember name member value).Scoped d.scope)
    (hrest : d.rest = (Simple.assignMember name member value).tokens line ++ rest) :
    ∃ d', ReadsSimple d (.assignMember name member value) d' ∧ d'.rest = rest ∧
      declaration d = .ok d' := by
  have hrest : d.rest = .ofName name line :: .ofKind .dot line :: .ofName member line
      :: .ofKind .equal line :: (value.tokens line 0 0 ++ (.ofBreak line :: rest)) := by
    simpa [Simple.tokens] using hrest
  have hkind : d.peek.kind = .identifier := kind_peek_of hrest
  have htext : d.peek.text = name := by rw [peek_of_cons hrest]; rfl
  have hrest₁ := rest_next_of hrest
  have hdot : d.next.peek.kind = .dot := kind_peek_of hrest₁
  have hsees : d.sees? d.peek.text = true := by
    rw [htext, d.sees?_eq_scope]
    exact hscoped.1
  let d₀ := d.next.next.emitName .load d.peek.text
  have hrest₂ : d₀.rest = _ := rest_next_of hrest₁
  have hmember : d₀.peek.kind = .identifier := kind_peek_of hrest₂
  have hmemberText : d₀.peek.text = member := by rw [peek_of_cons hrest₂]; rfl
  have hrest₃ := rest_next_of hrest₂
  have hequal : d₀.next.peek.kind = .equal := kind_peek_of hrest₃
  have hopen := ((((moves_name hkind).trans (moves_symbol hdot rfl)).trans
    (d.next.next.moves_emitName .load d.peek.text)).trans (moves_name hmember)).trans
      (moves_symbol hequal rfl)
  obtain ⟨d₁, hvalue, hrest₄, hexpression⟩ := expression_written hexpressible
    (by rw [hopen.scope_eq]; exact hscoped.2) (rest_next_of hrest₃) rfl
  let d₂ := (d₁.emitName .set d₀.peek.text).emit .pop
  have hbreak : d₂.peek.kind = .lineBreak := kind_peek_of (d := d₂) hrest₄
  subst htext hmemberText
  refine ⟨d₂.next, .assignMember hkind hdot hsees (moves_name hmember) (moves_symbol hequal rfl)
    hvalue (moves_silent hbreak rfl), rest_next_of (d := d₂) hrest₄, ?_⟩
  unfold declaration
  dsimp only
  rw [← peek_next, hdot]
  dsimp only
  rw [if_pos hsees]
  unfold memberAssignment
  rw [expectText_of_kind hmember, ok_bind]
  dsimp only
  rw [expect_of_kind hequal, ok_bind, hexpression, ok_bind]
  exact expectLineEnd_of_kind hbreak

theorem returnStatement_written {value? : Option Expr} {line : Int} {d : Draft} {rest : List Token}
    (hexpressible : (Simple.giveBack value?).Expressible)
    (hscoped : (Simple.giveBack value?).Scoped d.scope)
    (hrest : d.rest = (Simple.giveBack value?).tokens line ++ rest) :
    ∃ d', ReadsSimple d (.giveBack value?) d' ∧ d'.rest = rest ∧ returnStatement d = .ok d' := by
  unfold returnStatement
  dsimp only
  cases value? with
  | none =>
      have hkind : d.peek.kind = .return_ := kind_peek_of hrest
      have hrest₁ : d.next.rest = .ofBreak line :: rest := rest_next_of hrest
      have hbreak : d.next.peek.kind = .lineBreak := kind_peek_of hrest₁
      rw [if_neg (by simp [atEnd, hbreak]), if_pos (sees_iff.mpr hbreak)]
      exact ⟨_, .giveBackNull hkind (moves_silent hbreak rfl), rest_next_of hrest₁, rfl⟩
  | some value =>
      have hrest : d.rest = .ofKind .return_ line
          :: (value.tokens line 0 0 ++ (.ofBreak line :: rest)) := by
        simpa [Simple.tokens] using hrest
      have hkind : d.peek.kind = .return_ := kind_peek_of hrest
      have hrest₁ := rest_next_of hrest
      have hreturn : d.Moves _ [] d.next := moves_symbol hkind rfl
      obtain ⟨d₁, hreads, hrest₂, hexpression⟩ := expression_written hexpressible
        (by rw [hreturn.scope_eq]; exact hscoped) hrest₁ rfl
      have hbreak : d₁.peek.kind = .lineBreak := kind_peek_of hrest₂
      have hend : ¬d.next.atEnd = true :=
        not_sees_of_expression value hrest₁ (rfl : beginsExpression .endOfInput = false)
      rw [if_neg hend, if_neg (not_sees_of_expression value hrest₁ rfl), hexpression, ok_bind,
        expectLineEnd_of_kind hbreak, ok_bind]
      exact ⟨_, .giveBack hkind hreads (moves_silent hbreak rfl), rest_next_of hrest₂, rfl⟩

/-- Statements that begin like an expression, but not with a name, are expressions. -/
theorem statement_of_beginsExpression {d : Draft} (h : beginsExpression d.peek.kind = true)
    (hname : d.peek.kind ≠ .identifier) (fuel : Nat) :
    inlineStatement d = expressionStatement d ∧
      statement (fuel + 1) d = expressionStatement d := by
  unfold inlineStatement
  rw [statement]
  generalize d.peek.kind = kind at *
  cases kind <;> first | exact ⟨rfl, rfl⟩ | (cases h; done) | exact absurd rfl hname

/-- Statements that begin with a name are compiled as such everywhere. -/
theorem statement_of_name {d : Draft} (h : d.peek.kind = .identifier) (fuel : Nat) :
    inlineStatement d = declaration d ∧ statement (fuel + 1) d = declaration d := by
  unfold inlineStatement
  rw [statement, h]
  exact ⟨rfl, rfl⟩

theorem statement_of_return {d : Draft} (h : d.peek.kind = .return_) (fuel : Nat) :
    inlineStatement d = returnStatement d ∧ statement (fuel + 1) d = returnStatement d := by
  unfold inlineStatement
  rw [statement, h]
  exact ⟨rfl, rfl⟩

/-- A name that begins no assignment begins an expression. -/
theorem declaration_of_not_beginsAssignment {d : Draft} {tokens rest : List Token} {line : Int}
    (h : beginsAssignment tokens = false) (hne : tokens ≠ [])
    (hrest : d.rest = tokens ++ (.ofBreak line :: rest)) (hkind : d.peek.kind = .identifier) :
    declaration d = expressionStatement d := by
  have hsecond : d.peekSecond.kind ≠ .equal ∧ d.peekSecond.kind ≠ .leftBracket ∧
      d.peekSecond.kind ≠ .dot := by
    match tokens, hne with
    | [t], _ =>
        have hbreak : d.peekSecond = .ofBreak line := peekSecond_of_cons hrest
        rw [hbreak]
        exact ⟨nofun, nofun, nofun⟩
    | t :: u :: more, _ =>
        rw [peek_of_cons hrest] at hkind
        rw [peekSecond_of_cons hrest]
        simpa [beginsAssignment, hkind, and_assoc] using h
  unfold declaration
  dsimp only
  split
  · exact absurd ‹_› hsecond.1
  · exact absurd ‹_› hsecond.2.1
  · exact absurd ‹_› hsecond.2.2
  · rfl

/-- The tokens of a simple statement are compiled as this statement, on a line of its own
and behind a condition. -/
theorem simple_written {x : Simple} {line : Int} {d : Draft} {rest : List Token} (fuel : Nat)
    (hexpressible : x.Expressible) (hscoped : x.Scoped d.scope)
    (hrest : d.rest = x.tokens line ++ rest) :
    ∃ d', ReadsSimple d x d' ∧ d'.rest = rest ∧ inlineStatement d = .ok d' ∧
      statement (fuel + 1) d = .ok d' := by
  cases x with
  | assign name value =>
      have hnamed := statement_of_name (kind_peek_of hrest) fuel
      rw [hnamed.1, hnamed.2]
      obtain ⟨d', hreads, hrest', hresult⟩ := assignment_written hexpressible hscoped hrest
      exact ⟨d', hreads, hrest', hresult, hresult⟩
  | assignElement name position value =>
      have hnamed := statement_of_name (kind_peek_of hrest) fuel
      rw [hnamed.1, hnamed.2]
      obtain ⟨d', hreads, hrest', hresult⟩ := elementAssignment_written hexpressible hscoped hrest
      exact ⟨d', hreads, hrest', hresult, hresult⟩
  | assignMember name member value =>
      have hnamed := statement_of_name (kind_peek_of hrest) fuel
      rw [hnamed.1, hnamed.2]
      obtain ⟨d', hreads, hrest', hresult⟩ := memberAssignment_written hexpressible hscoped hrest
      exact ⟨d', hreads, hrest', hresult, hresult⟩
  | discard value =>
      obtain ⟨d', hreads, hrest', hresult⟩ :=
        expressionStatement_written hexpressible.1 hscoped hrest
      rw [Simple.tokens, List.append_assoc] at hrest
      have hbegins := value.beginsExpression_firstKind line 0 0 ([.ofBreak line] ++ rest)
      rw [← kind_peek_of hrest] at hbegins
      by_cases hkind : d.peek.kind = .identifier
      · have hnamed := statement_of_name hkind fuel
        have hne : value.tokens line 0 0 ≠ [] := by
          obtain ⟨t, more, h, -⟩ := value.exists_tokens_eq_cons line 0 0
          rw [h]
          exact nofun
        rw [hnamed.1, hnamed.2,
          declaration_of_not_beginsAssignment (hexpressible.2 line) hne hrest hkind]
        exact ⟨d', hreads, hrest', hresult, hresult⟩
      · have hplain := statement_of_beginsExpression hbegins hkind fuel
        rw [hplain.1, hplain.2]
        exact ⟨d', hreads, hrest', hresult, hresult⟩
  | giveBack value? =>
      have hkind : d.peek.kind = .return_ := by
        rw [kind_peek_of hrest]
        cases value? <;> rfl
      have hreturn := statement_of_return hkind fuel
      rw [hreturn.1, hreturn.2]
      obtain ⟨d', hreads, hrest', hresult⟩ := returnStatement_written hexpressible hscoped hrest
      exact ⟨d', hreads, hrest', hresult, hresult⟩

/-! ## Blocks -/

/-- The kinds of tokens that a statement can begin with. -/
def beginsStatement : TokenKind → Bool
  | .if_ | .while_ | .func | .return_ => true
  | kind => beginsExpression kind

/-- The tokens of a statement are compiled as this statement. -/
def WrittenStmt (x : Stmt) : Prop :=
  ∀ {line : Int} {d : Draft} {rest : List Token} (fuel : Nat), x.Expressible → x.Scoped d.scope →
    d.rest = x.tokens line ++ rest → 4 * d.rest.length ≤ fuel + 1 →
    ∃ d', ReadsStmt d x d' ∧ d'.rest = rest ∧ statement (fuel + 1) d = .ok d'

/-- The tokens of statements in a row are compiled as these statements, up to what ends
them. -/
def WrittenBlock (b : Block) : Prop :=
  ∀ {line : Int} {d : Draft} {rest : List Token} (fuel : Nat) (enders : List TokenKind),
    b.Expressible → b.Scoped d.scope → d.rest = b.tokens line ++ rest →
    firstKind rest = .endOfInput ∨ firstKind rest ∈ enders →
    (∀ kind ∈ enders, beginsStatement kind = false) → 4 * d.rest.length ≤ fuel →
    ∃ d', ReadsBlock d b d' ∧ d'.rest = rest ∧ blockWith (fuel + 1) enders d = .ok d'

theorem exists_tokens_eq_cons_of_simple (x : Simple) (line : Int) :
    ∃ t rest, x.tokens line = t :: rest ∧ beginsStatement t.kind = true := by
  cases x with
  | discard value =>
      obtain ⟨t, rest, h, hkind⟩ := value.exists_tokens_eq_cons line 0 0
      refine ⟨t, _, by rw [Simple.tokens, h]; rfl, ?_⟩
      cases hk : t.kind <;> first | rfl | (rw [hk] at hkind; cases hkind)
  | giveBack value? => cases value? <;> exact ⟨_, _, rfl, rfl⟩
  | _ => exact ⟨_, _, rfl, rfl⟩

theorem exists_tokens_eq_cons_of_stmt (x : Stmt) (line : Int) :
    ∃ t rest, x.tokens line = t :: rest ∧ beginsStatement t.kind = true := by
  cases x with
  | simple x => exact exists_tokens_eq_cons_of_simple x line
  | _ => exact ⟨_, _, rfl, rfl⟩

theorem writtenBlock_nil : WrittenBlock .nil := by
  intro line d rest fuel enders _ _ hrest hend _ _
  refine ⟨d, .nil (.refl d), hrest, ?_⟩
  have hkind : d.peek.kind = firstKind rest := kind_peek_of hrest
  rw [blockWith, if_pos]
  rw [atEnd, hkind]
  simpa using hend

theorem WrittenStmt.cons {x : Stmt} {b : Block} (hx : WrittenStmt x) (hb : WrittenBlock b) :
    WrittenBlock (.cons x b) := by
  intro line d rest fuel enders hexpressible hscoped hrest hend henders hfuel
  rw [Block.tokens, List.append_assoc] at hrest
  obtain ⟨t, more, htokens, hkind⟩ := exists_tokens_eq_cons_of_stmt x line
  have hcons : d.rest = t :: (more ++ (b.tokens (line + x.lines) ++ rest)) := by
    rw [hrest, htokens]
    rfl
  -- There is a token, so the bound is not spent.
  obtain ⟨fuel, rfl⟩ : ∃ n, fuel = n + 1 := by
    cases fuel with
    | zero => simp [hcons] at hfuel
    | succ n => exact ⟨n, rfl⟩
  obtain ⟨d₁, hreads, hrest₁, hstatement⟩ := hx fuel hexpressible.1 hscoped.1 hrest hfuel
  have hscope := hreads.wrote.scope_eq
  have hlt := hreads.wrote.length_lt x.words_ne_nil
  obtain ⟨d₂, hreads₂, hrest₂, hblock⟩ := hb fuel enders hexpressible.2
    (by rw [hscope]; exact hscoped.2) hrest₁ hend henders (by omega)
  refine ⟨d₂, hreads.cons hreads₂, hrest₂, ?_⟩
  have hgoes : ¬(d.atEnd || enders.contains d.peek.kind) = true := by
    have hpeek : d.peek.kind = t.kind := kind_peek_of hcons
    rw [Bool.or_eq_true, not_or, atEnd, hpeek]
    refine ⟨?_, ?_⟩
    · intro h
      rw [of_decide_eq_true h] at hkind
      cases hkind
    · intro h
      rw [henders t.kind (List.contains_iff_mem.mp h)] at hkind
      cases hkind
  rw [blockWith, if_neg hgoes, hstatement]
  exact hblock

/-! ## Statements -/

theorem WrittenStmt.simple (x : Simple) : WrittenStmt (.simple x) := by
  intro line d rest fuel hexpressible hscoped hrest _
  obtain ⟨d', hreads, hrest', -, hstatement⟩ := simple_written fuel hexpressible hscoped hrest
  exact ⟨d', hreads.stmt, hrest', hstatement⟩

/-- With a token left, the bound allows for one more function. -/
theorem exists_eq_succ_of_cons {d : Draft} {t : Token} {rest : List Token} {fuel : Nat}
    (hrest : d.rest = t :: rest) (hfuel : 4 * d.rest.length ≤ fuel + 1) :
    ∃ n, fuel = n + 1 ∧ 4 * rest.length + 2 ≤ n := by
  rw [hrest, List.length_cons] at hfuel
  exact ⟨fuel - 1, by omega, by omega⟩

theorem WrittenStmt.when (condition : Expr) (x : Simple) : WrittenStmt (.when condition x) := by
  intro line d rest fuel hexpressible hscoped hrest hfuel
  have hrest : d.rest = .ofKind .if_ line
      :: (condition.tokens line 0 0 ++ (.ofKind .then_ line :: (x.tokens line ++ rest))) := by
    simpa [Stmt.tokens] using hrest
  obtain ⟨fuel, rfl, -⟩ := exists_eq_succ_of_cons hrest hfuel
  have hkind : d.peek.kind = .if_ := kind_peek_of hrest
  have hif : d.Moves _ [] d.next := moves_symbol hkind rfl
  obtain ⟨d₁, hcondition, hrest₁, hexpression⟩ := expression_written hexpressible.1
    (by rw [hif.scope_eq]; exact hscoped.1) (rest_next_of hrest) rfl
  have hthen : (d₁.emitJump .branch).peek.kind = .then_ :=
    kind_peek_of (d := d₁.emitJump .branch) hrest₁
  have hopen := ((hif.trans hcondition.moves).trans (d₁.moves_emitJump .branch)).trans
    (moves_symbol hthen rfl)
  obtain ⟨d₂, hreads, hrest₂, hinline, -⟩ := simple_written 0 hexpressible.2
    (by rw [hopen.scope_eq]; exact hscoped.2) (rest_next_of (d := d₁.emitJump .branch) hrest₁)
  obtain ⟨d₃, hpatch, hwhen⟩ := (ReadsStmt.when hkind hcondition hthen hreads).exists_ok
    fun e he => kind_of_patchHere he
  refine ⟨d₃, hwhen, (rest_of_patchHere hpatch).trans hrest₂, ?_⟩
  rw [statement, hkind]
  dsimp only
  rw [ifStatement_succ, hexpression, ok_bind, if_pos (sees_iff.mpr hthen), hinline, ok_bind, hpatch]

theorem WrittenBlock.loop (condition : Expr) {body : Block} (hbody : WrittenBlock body) :
    WrittenStmt (.loop condition body) := by
  intro line d rest fuel hexpressible hscoped hrest hfuel
  have hrest : d.rest = .ofKind .while_ line
      :: (condition.tokens line 0 0 ++ (.ofBreak line :: (body.tokens (line + 1) ++
        (.ofKind .end_ (line + 1 + body.lines) :: .ofBreak (line + 1 + body.lines) :: rest)))) := by
    simpa [Stmt.tokens] using hrest
  obtain ⟨fuel, rfl, hfuel'⟩ := exists_eq_succ_of_cons hrest hfuel
  have hkind : d.peek.kind = .while_ := kind_peek_of hrest
  have hwhile : d.Moves _ [] d.next := moves_symbol hkind rfl
  obtain ⟨d₁, hcondition, hrest₁, hexpression⟩ := expression_written hexpressible.1
    (by rw [hwhile.scope_eq]; exact hscoped.1) (rest_next_of hrest) rfl
  have hbreak : d₁.peek.kind = .lineBreak := kind_peek_of hrest₁
  have hline : d₁.Moves [] [] d₁.next := moves_silent hbreak rfl
  have hopen := ((hwhile.trans hcondition.moves).trans hline).trans
    (d₁.next.moves_emitJump .branch)
  have hrest₂ : (d₁.next.emitJump .branch).rest = body.tokens (line + 1) ++ _ :=
    rest_next_of hrest₁
  have hle := ((hcondition.moves.trans hline).trans (d₁.next.moves_emitJump .branch)).wrote.length_le
  rw [rest_next_of hrest] at hle
  obtain ⟨fuel, rfl⟩ : ∃ n, fuel = n + 1 := ⟨fuel - 1, by omega⟩
  obtain ⟨d₂, hreads, hrest₃, hblock⟩ := hbody fuel [.end_] hexpressible.2
    (by rw [hopen.scope_eq]; exact hscoped.2) hrest₂ (.inr (List.mem_singleton.mpr rfl))
    (by simp [beginsStatement, beginsExpression]) (by omega)
  obtain ⟨d₃, hpatch, hloop⟩ := (hreads.sound_loop hkind hcondition hline).exists_ok
    fun e he => kind_of_patchHere he
  have hrest₃ : d₃.rest = _ := (rest_of_patchHere hpatch).trans hrest₃
  have hend : d₃.peek.kind = .end_ := kind_peek_of hrest₃
  have hrest₄ := rest_next_of hrest₃
  have hbreak' : d₃.next.peek.kind = .lineBreak := kind_peek_of hrest₄
  refine ⟨d₃.next.next, hloop _ _ (moves_symbol hend rfl) (moves_silent hbreak' rfl),
    rest_next_of hrest₄, ?_⟩
  rw [statement, hkind]
  dsimp only
  rw [whileStatement]
  dsimp only
  rw [hexpression, ok_bind, expectLineEnd_of_kind hbreak, ok_bind, hblock, ok_bind, hpatch, ok_bind,
    expect_of_kind hend, ok_bind, expectLineEnd_of_kind hbreak']

/-! ## Functions -/

/-- The tokens of parameters are read as these parameters. -/
theorem parameters_written {params names : List String} {line : Int} {d : Draft}
    {rest : List Token} {fuel : Nat} (hnodup : (names.reverse ++ params).Nodup)
    (hrest : d.rest = parameterTokens line params ++ rest) (hend : firstKind rest = .rightParen)
    (hfuel : d.rest.length < fuel) :
    ∃ d', parameters fuel d names = .ok (d', names.reverse ++ params) ∧ d'.rest = rest ∧
      d.Moves (params.map .name) [] d' := by
  induction params generalizing d names fuel with
  | nil =>
      obtain ⟨fuel, rfl⟩ : ∃ n, fuel = n + 1 := ⟨fuel - 1, by omega⟩
      have hkind : ¬d.peek.kind = .identifier := by
        rw [kind_peek_of hrest]
        change ¬firstKind rest = .identifier
        rw [hend]
        decide
      refine ⟨d, ?_, hrest, .refl d⟩
      rw [parameters, if_neg hkind, List.append_nil]
  | cons name more ih =>
      obtain ⟨fuel, rfl⟩ : ∃ n, fuel = n + 1 := ⟨fuel - 1, by omega⟩
      have hfirst : ∃ behind, d.rest = .ofName name line :: behind := by
        cases more with
        | nil => exact ⟨_, hrest⟩
        | cons name' more' => exact ⟨_, hrest⟩
      obtain ⟨behind, hfirst⟩ := hfirst
      have hkind : d.peek.kind = .identifier := kind_peek_of hfirst
      have htext : d.peek.text = name := by rw [peek_of_cons hfirst]; rfl
      have hnew : ¬names.contains d.peek.text = true := by
        rw [htext, List.contains_iff_mem]
        intro hmem
        have hdisjoint := (List.nodup_append.mp hnodup).2.2
        exact hdisjoint name (List.mem_reverse.mpr hmem) name List.mem_cons_self rfl
      have hmoves := moves_name hkind
      subst htext
      rw [parameters, if_pos hkind, if_neg hnew]
      cases more with
      | nil =>
          have hrest₁ : d.next.rest = rest := rest_next_of hrest
          have hcomma : ¬d.next.sees .comma = true := by
            rw [sees_iff, kind_peek_of hrest₁, hend]
            decide
          rw [if_neg hcomma, List.reverse_cons]
          exact ⟨_, rfl, hrest₁, hmoves⟩
      | cons name' more' =>
          have hrest₁ : d.next.rest = .ofKind .comma line
              :: (parameterTokens line (name' :: more') ++ rest) := rest_next_of hrest
          have hcomma : d.next.peek.kind = .comma := kind_peek_of hrest₁
          have hrest₂ := rest_next_of hrest₁
          have hskip : d.next.next.skipLineBreaks = d.next.next := by
            apply skipLineBreaks_of_ne
            rw [kind_peek_of hrest₂]
            cases more' <;> (intro hkind; cases hkind)
          have hlength : d.next.next.rest.length < fuel := by
            rw [hrest₂]
            rw [hfirst, ← rest_next_of hfirst, hrest₁] at hfuel
            simp only [List.length_cons] at hfuel
            omega
          have hnodup' : ((d.peek.text :: names).reverse ++ name' :: more').Nodup := by
            simpa using hnodup
          obtain ⟨d', hparameters, hrest', hmoves'⟩ := ih hnodup' hrest₂ hlength
          refine ⟨d', ?_, hrest', ?_⟩
          · rw [if_pos (sees_iff.mpr hcomma), hskip, hparameters, List.reverse_cons]
            simp
          · exact (hmoves.trans (moves_silent hcomma rfl)).trans hmoves'

/-- The header of a function is read up to its statements. -/
theorem functionHeader_written {name : String} {params : List String} {line : Int} {d : Draft}
    {rest : List Token} (harity : d.scope.arity name = none) (hnodup : params.Nodup)
    (hrest : d.rest = .ofName name line :: .ofKind .leftParen line :: (parameterTokens line params
      ++ (.ofKind .rightParen line :: .ofBreak line :: rest))) :
    ∃ d₀, d.Moves (.name name :: params.map .name) [] d₀ ∧ d₀.rest = rest ∧
      functionHeader d = .ok (d₀.enter name params) := by
  have hkind : d.peek.kind = .identifier := kind_peek_of hrest
  have htext : d.peek.text = name := by rw [peek_of_cons hrest]; rfl
  have hname := moves_name hkind
  have hrest₁ := rest_next_of hrest
  have hopen : d.next.peek.kind = .leftParen := kind_peek_of hrest₁
  have hnodup' : (([] : List String).reverse ++ params).Nodup := hnodup
  obtain ⟨d₁, hparameters, hrest₂, hmoves⟩ := parameters_written hnodup' (rest_next_of hrest₁) rfl
    (Nat.lt_succ_self _)
  have hclose : d₁.peek.kind = .rightParen := kind_peek_of hrest₂
  have hrest₃ := rest_next_of hrest₂
  have hbreak : d₁.next.peek.kind = .lineBreak := kind_peek_of hrest₃
  subst htext
  have hnew : ¬(d.next.arity? d.peek.text).isSome = true := by
    have hscope : d.next.scope.arity d.peek.text = none := by rw [hname.scope_eq]; exact harity
    intro h
    exact absurd hscope (Option.isSome_iff_ne_none.mp h)
  refine ⟨d₁.next.next, ?_, rest_next_of hrest₃, ?_⟩
  · have hall := (((hname.trans (moves_silent hopen rfl)).trans hmoves).trans
      (moves_silent hclose rfl)).trans (moves_silent hbreak rfl)
    simpa using hall
  · unfold functionHeader
    dsimp only
    rw [expect_of_kind hkind, ok_bind, if_neg hnew, expect_of_kind hopen, ok_bind, hparameters,
      ok_bind]
    dsimp only
    rw [expect_of_kind hclose, ok_bind, expectLineEnd_of_kind hbreak, ok_bind, List.reverse_nil,
      List.nil_append]

theorem WrittenBlock.function (name : String) (params : List String) {body : Block}
    (hbody : WrittenBlock body) : WrittenStmt (.function name params body) := by
  intro line d rest fuel hexpressible hscoped hrest hfuel
  obtain ⟨htop, hname, harity, hnodup, hinside⟩ := hscoped
  have hrest : d.rest = .ofKind .func line :: .ofName name line :: .ofKind .leftParen line
      :: (parameterTokens line params ++ (.ofKind .rightParen line :: .ofBreak line
        :: (body.tokens (line + 1) ++ (.ofKind .end_ (line + 1 + body.lines)
          :: .ofBreak (line + 1 + body.lines) :: rest)))) := by
    simpa [Stmt.tokens] using hrest
  obtain ⟨fuel, rfl, hfuel'⟩ := exists_eq_succ_of_cons hrest hfuel
  have hkind : d.peek.kind = .func := kind_peek_of hrest
  have hfunc : d.Moves _ [] d.next := moves_symbol hkind rfl
  have houter : d.outer? = none := Option.map_eq_none_iff.mp htop
  obtain ⟨d₀, hheader, hrest₁, hresult⟩ := functionHeader_written
    (by rw [hfunc.scope_eq]; exact harity) hnodup (rest_next_of hrest)
  have hle := hheader.wrote.length_le
  rw [rest_next_of hrest] at hle
  have hsame : (d₀.enter name params).rest = d₀.rest := by rw [enter_eq params hname]
  have hscope : (d₀.enter name params).scope = d.scope.inside name params := by
    rw [scope_enter params hname, (hfunc.trans hheader).scope_eq]
  obtain ⟨fuel, rfl⟩ : ∃ n, fuel = n + 1 := ⟨fuel - 1, by omega⟩
  obtain ⟨d₂, hreads, hrest₂, hblock⟩ := hbody fuel [.end_] hexpressible
    (by rw [hscope]; exact hinside) (hsame.trans hrest₁) (.inr (List.mem_singleton.mpr rfl))
    (by simp [beginsStatement, beginsExpression]) (by rw [hsame]; omega)
  let d₃ := (d₂.emitValue .null).emit .ret
  have hrest₂ : d₃.rest = _ := hrest₂
  have hend : d₃.peek.kind = .end_ := kind_peek_of hrest₂
  have hrest₃ : d₃.next.leave.rest = _ := d₃.next.rest_leave.trans (rest_next_of hrest₂)
  have hbreak : d₃.next.leave.peek.kind = .lineBreak := kind_peek_of hrest₃
  obtain ⟨hresolved, hfunction⟩ := hreads.function hkind houter hname harity hnodup hheader
    (moves_symbol hend rfl) (moves_silent hbreak rfl)
  refine ⟨_, hfunction, rest_next_of hrest₃, ?_⟩
  rw [statement, hkind]
  dsimp only
  rw [if_neg (by simp [houter]), functionDefinition, hresult, ok_bind, hblock, ok_bind,
    expect_of_kind hend, ok_bind, hresolved, ok_bind, expectLineEnd_of_kind hbreak]

end LineScript.Compile
