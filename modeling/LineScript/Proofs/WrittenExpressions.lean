/-
# Written expressions are read again

The tokens of an expression, wherever they come next, are read as that expression. What
may stand behind them is limited: no value, no subscript, no member, and no operator
that would bind to the end of the expression. Two facts are carried through the tree at
once: how an expression is read among operators, and how it is read before subscripts
and members. Where an expression needs parentheses for the second, the first tells what
happens inside them.
-/

import LineScript.Proofs.ExpressionTrees
import LineScript.Proofs.Rendering

namespace LineScript.Compile

open LineScript.Code LineScript.Tree

/-! ## Results without a way to fail -/

/-- Where only the compiler itself could be at fault, a sound result is there. -/
theorem Sound.exists_ok {α : Type} {good : α → Prop} {r : Except CompileError α}
    (h : Sound good r) (hinternal : ∀ e, r = .error e → e.kind = .internalError) :
    ∃ a, r = .ok a ∧ good a := by
  cases r with
  | ok a => exact ⟨a, rfl, h⟩
  | error e => exact absurd (hinternal e rfl) h

namespace Draft

theorem kind_of_patchHere {d : Draft} {address : Nat} {e : CompileError}
    (h : d.patchHere address = .error e) : e.kind = .internalError := by
  unfold patchHere at h
  split at h
  · cases h
  · cases h
    rfl

/-- The kind of the first token, or the end of the input. -/
def firstKind (tokens : List Token) : TokenKind := (tokens.headD (.ending 0)).kind

theorem kind_peek (d : Draft) : d.peek.kind = firstKind d.rest := by
  unfold peek firstKind
  cases d.rest <;> rfl

theorem kind_peek_of {d : Draft} {rest : List Token} (h : d.rest = rest) :
    d.peek.kind = firstKind rest := by
  rw [kind_peek, h]

theorem rest_next_of {d : Draft} {t : Token} {rest : List Token} (h : d.rest = t :: rest) :
    d.next.rest = rest := by
  rw [rest_next, h]
  rfl

theorem expect_of_kind {d : Draft} {kind : TokenKind} (h : d.peek.kind = kind) :
    d.expect kind = .ok d.next := by
  unfold expect
  rw [if_pos (sees_iff.mpr h)]

theorem expectText_of_kind {d : Draft} {kind : TokenKind} (h : d.peek.kind = kind) :
    d.expectText kind = .ok (d.peek.text, d.next) := by
  unfold expectText
  rw [expect_of_kind h]
  rfl

theorem expectLineEnd_of_kind {d : Draft} (h : d.peek.kind = .lineBreak) :
    d.expectLineEnd = .ok d.next := by
  unfold expectLineEnd
  rw [if_neg (by simp [atEnd, h]), expect_of_kind h]

end Draft

end LineScript.Compile

namespace LineScript.Tree

open LineScript.Compile.Draft

/-! ## First tokens -/

/-- The kinds of tokens that an expression can begin with. -/
def beginsExpression : TokenKind → Bool
  | .identifier | .number | .string | .boolean | .null | .not | .plus | .minus | .leftParen
  | .leftBracket | .leftBrace => true
  | _ => false

/-- The first token of an expression. -/
theorem Expr.exists_tokens_eq_cons : ∀ (e : Expr) (line : Int) (least follow : Nat),
    ∃ t rest, e.tokens line least follow = t :: rest ∧ beginsExpression t.kind = true
  | .null, _, _, _ | .name _, _, _, _ | .call _ _, _, _, _ | .list _, _, _, _
  | .object _, _, _, _ => ⟨_, _, rfl, rfl⟩
  | .literal value, line, _, _ => by
      refine ⟨_, _, rfl, ?_⟩
      unfold Token.ofLiteral
      dsimp only
      split <;> rfl
  | .index container _, line, _, _ => by
      obtain ⟨t, rest, h, hkind⟩ := container.exists_tokens_eq_cons line tightest tightest
      exact ⟨t, _, by rw [Expr.tokens, h]; rfl, hkind⟩
  | .member owner _, line, _, _ => by
      obtain ⟨t, rest, h, hkind⟩ := owner.exists_tokens_eq_cons line tightest tightest
      exact ⟨t, _, by rw [Expr.tokens, h]; rfl, hkind⟩
  | .unary o operand, line, _, follow => by
      rw [Expr.tokens]
      unfold enclosed
      split
      · exact ⟨_, _, rfl, by cases o <;> rfl⟩
      · exact ⟨_, _, rfl, rfl⟩
  | .binary o left right, line, least, _ => by
      rw [Expr.tokens]
      unfold enclosed
      split
      · obtain ⟨t, rest, h, hkind⟩ := left.exists_tokens_eq_cons line o.level (o.level + 1)
        exact ⟨t, _, by rw [h]; rfl, hkind⟩
      · exact ⟨_, _, rfl, rfl⟩

theorem Expr.beginsExpression_firstKind (e : Expr) (line : Int) (least follow : Nat)
    (rest : List Token) :
    beginsExpression (firstKind (e.tokens line least follow ++ rest)) = true := by
  obtain ⟨t, more, h, hkind⟩ := e.exists_tokens_eq_cons line least follow
  rw [h]
  exact hkind

/-! ## Parentheses -/

/-- Nothing needs parentheses by itself. -/
theorem Expr.bare_zero (e : Expr) : e.bare 0 0 = true := by
  cases e <;> simp [Expr.bare]

theorem Expr.tokens_of_not_bare {e : Expr} {least follow : Nat} (h : e.bare least follow = false)
    (line : Int) :
    e.tokens line least follow =
      .ofKind .leftParen line :: e.tokens line 0 0 ++ [.ofKind .rightParen line] := by
  cases e with
  | unary o operand =>
      have hlevel : ¬follow ≤ o.level := by simpa [Expr.bare] using h
      simp [Expr.tokens, enclosed, hlevel]
  | binary o left right =>
      have hlevel : ¬least ≤ o.level := by simpa [Expr.bare] using h
      simp [Expr.tokens, enclosed, hlevel]
  | _ => cases h

theorem Expr.Expressible.of_not_bare {e : Expr} {first : Bool} {least follow : Nat}
    (h : e.Expressible first least) (hbare : e.bare least follow = false) :
    e.Expressible false 0 := by
  cases e with
  | unary o operand => exact h
  | binary o left right =>
      have hlevel : ¬least ≤ o.level := by simpa [Expr.bare] using hbare
      refine ⟨?_, h.2⟩
      have hleft := h.1
      simpa [hlevel] using hleft
  | _ => cases hbare

/-- What can always stand bare is the same everywhere. -/
theorem Expr.tokens_of_bare {e : Expr} (h : e.bare tightest tightest = true) (line : Int)
    (least follow : Nat) : e.tokens line least follow = e.tokens line tightest tightest := by
  cases e with
  | unary o operand => cases o <;> cases h
  | binary o left right => cases o <;> cases h
  | _ => rfl

theorem Expr.Expressible.of_bare {e : Expr} {first : Bool} {least : Nat}
    (h : e.Expressible first least) (hbare : e.bare tightest tightest = true) :
    e.Expressible first tightest := by
  cases e with
  | unary o operand => cases o <;> cases hbare
  | binary o left right => cases o <;> cases hbare
  | _ => exact h

end LineScript.Tree

namespace LineScript.Compile.Precedence

open LineScript.Code LineScript.Tree LineScript.Compile.Draft

theorem kind_of_combine {o : BinaryOp} {address : Nat} {d : Draft} {e : CompileError}
    (h : combine o address d = .error e) : e.kind = .internalError := by
  unfold combine at h
  split at h
  · exact kind_of_patchHere h
  · cases h

/-! ## What may follow -/

/-- The kinds of tokens that may stand behind an expression when only operators below
the given level may. -/
structure MayFollow (level : Nat) (kind : TokenKind) : Prop where
  noValue : beginsValue kind = false
  noSubscript : kind ≠ .leftBracket
  noMember : kind ≠ .dot
  below : ∀ o, BinaryOp.ofKind? kind = some o → o.level < level

theorem MayFollow.mono {level level' : Nat} {kind : TokenKind} (h : MayFollow level kind)
    (hle : level ≤ level') : MayFollow level' kind :=
  ⟨h.noValue, h.noSubscript, h.noMember, fun o ho => Nat.lt_of_lt_of_le (h.below o ho) hle⟩

/-- An operator may stand behind an expression of its level. -/
theorem mayFollow_binary (o : BinaryOp) : MayFollow (o.level + 1) o.kind := by
  refine ⟨by cases o <;> rfl, by cases o <;> decide, by cases o <;> decide, fun o' ho' => ?_⟩
  rw [BinaryOp.ofKind?_kind] at ho'
  cases ho'
  exact Nat.lt_succ_self _

/-- The kinds of tokens that end an expression whatever it is. -/
def isEnder : TokenKind → Bool
  | .lineBreak | .then_ | .rightParen | .rightBracket | .rightBrace | .comma => true
  | _ => false

theorem mayFollow_of_isEnder {kind : TokenKind} (h : isEnder kind = true) : MayFollow 0 kind := by
  cases kind with
  | lineBreak | then_ | rightParen | rightBracket | rightBrace | comma =>
      exact ⟨rfl, by decide, by decide, nofun⟩
  | _ => cases h

/-- Operators that are not read where they stand are left alone. -/
theorem operators_of_mayFollow {level : Nat} {d : Draft} (h : MayFollow level d.peek.kind)
    (enclosed : Bool) : operators level enclosed d = .ok d := by
  rw [operators_eq, if_neg (by simp [h.noValue])]
  split
  · rfl
  · rename_i o ho
    rw [if_pos (h.below o ho)]

theorem suffixes_of_mayFollow {level : Nat} {d : Draft} (h : MayFollow level d.peek.kind) :
    suffixes d = .ok d := by
  rw [suffixes_eq]
  split
  · exact absurd ‹_› h.noSubscript
  · exact absurd ‹_› h.noMember
  · rfl

/-- Where an expression comes next, nothing else does. -/
theorem not_sees_of_expression {d : Draft} (e : Expr) {line : Int} {least follow : Nat}
    {rest : List Token} {kind : TokenKind} (h : d.rest = e.tokens line least follow ++ rest)
    (hkind : beginsExpression kind = false) : ¬d.sees kind = true := by
  intro hsees
  have hbegins := e.beginsExpression_firstKind line least follow rest
  rw [← kind_peek_of h, sees_iff.mp hsees, hkind] at hbegins
  cases hbegins

theorem skipLineBreaks_of_expression {d : Draft} (e : Expr) {line : Int} {least follow : Nat}
    {rest : List Token} (h : d.rest = e.tokens line least follow ++ rest) :
    d.skipLineBreaks = d :=
  skipLineBreaks_of_ne fun hkind => not_sees_of_expression e h rfl (sees_iff.mpr hkind)

/-! ## Written expressions -/

/-- Among operators, the tokens of an expression are read as this expression, when they
need no parentheses there. -/
def Climbs (e : Expr) : Prop :=
  ∀ {line : Int} {least follow level : Nat} {first : Bool} (enclosed : Bool) {d : Draft}
    {rest : List Token}, e.bare least follow = true → e.Expressible first least →
    e.Scoped d.scope → follow ≤ least + 1 → level ≤ least →
    d.rest = e.tokens line least follow ++ rest → MayFollow follow (firstKind rest) →
    ∃ d', Reads d e d' ∧ d'.rest = rest ∧
      climb level enclosed first d = operators level enclosed d'

/-- Before subscripts and members, the tokens of an expression are read as this
expression. -/
def Operates (e : Expr) : Prop :=
  ∀ {line : Int} {first : Bool} (enclosed : Bool) {d : Draft} {rest : List Token},
    e.Expressible first tightest → e.Scoped d.scope →
    d.rest = e.tokens line tightest tightest ++ rest → firstKind rest ≠ .leftParen →
    ∃ d', Reads d e d' ∧ d'.rest = rest ∧ operand enclosed first d = suffixes d'

/-- The tokens of an expression are read as this expression. -/
structure Written (e : Expr) : Prop where
  climbs : Climbs e
  operates : Operates e

theorem operand_of_primary {enclosed fresh : Bool} {d d' : Draft}
    (hkind : UnaryOp.ofKind? d.peek.kind = none) (h : primary fresh d = .ok d') :
    operand enclosed fresh d = suffixes d' := by
  rw [operand_eq, hkind]
  dsimp only
  rw [h, ok_bind]

/-- What is read before subscripts is read among operators, when no subscript follows. -/
theorem climb_of_operand {level follow : Nat} {enclosed fresh : Bool} {d d' : Draft}
    (h : operand enclosed fresh d = suffixes d') (hfollow : MayFollow follow d'.peek.kind) :
    climb level enclosed fresh d = operators level enclosed d' := by
  rw [climb_eq, h, suffixes_of_mayFollow hfollow, ok_bind]

/-- In parentheses an expression is read before subscripts. -/
theorem Climbs.operand_enclosed {e : Expr} (h : Climbs e) (line : Int) (first enclosed : Bool)
    {d : Draft} {rest : List Token} (hexpressible : e.Expressible false 0)
    (hscoped : e.Scoped d.scope)
    (hrest : d.rest = .ofKind .leftParen line :: e.tokens line 0 0
      ++ .ofKind .rightParen line :: rest) :
    ∃ d', Reads d e d' ∧ d'.rest = rest ∧ operand enclosed first d = suffixes d' := by
  have hkind : d.peek.kind = .leftParen := d.kind_peek_of hrest
  have hnext : d.next.rest = e.tokens line 0 0 ++ .ofKind .rightParen line :: rest :=
    rest_next_of hrest
  have hscope : d.next.scope = d.scope := scope_eq_of_frame d.frame_next
  obtain ⟨d₁, hreads, hrest₁, hclimb⟩ := h true e.bare_zero hexpressible (hscope ▸ hscoped)
    (Nat.zero_le _) (Nat.le_refl 0) hnext (mayFollow_of_isEnder rfl)
  have hclose : d₁.peek.kind = .rightParen := d₁.kind_peek_of hrest₁
  refine ⟨d₁.next, hreads.enclosed hkind hclose, rest_next_of hrest₁, ?_⟩
  apply operand_of_primary
  · rw [hkind]
    rfl
  · rw [primary_eq, hkind]
    dsimp only
    rw [hclimb, operators_of_mayFollow (hclose ▸ mayFollow_of_isEnder rfl), ok_bind, close,
      if_pos (sees_iff.mpr hclose)]

/-- What may need parentheses before subscripts is read there once it is read among
operators. -/
theorem Climbs.written {e : Expr} (h : Climbs e) (hbare : e.bare tightest tightest = false) :
    Written e := by
  refine ⟨h, ?_⟩
  intro line first enclosed d rest hexpressible hscoped hrest _
  refine h.operand_enclosed line first enclosed (hexpressible.of_not_bare hbare) hscoped ?_
  rw [hrest, Expr.tokens_of_not_bare hbare]
  simp

/-- What needs no parentheses anywhere is read among operators once it is read before
subscripts. -/
theorem Operates.written {e : Expr} (h : Operates e) (hbare : e.bare tightest tightest = true) :
    Written e := by
  refine ⟨?_, h⟩
  intro line least follow level first enclosed d rest _ hexpressible hscoped _ _ hrest hfollow
  rw [e.tokens_of_bare hbare] at hrest
  have hparen : firstKind rest ≠ .leftParen := by
    intro hkind
    have := hfollow.noValue
    rw [hkind] at this
    cases this
  obtain ⟨d', hreads, hrest', hoperand⟩ :=
    h enclosed (hexpressible.of_bare hbare) hscoped hrest hparen
  rw [← kind_peek_of hrest'] at hfollow
  exact ⟨d', hreads, hrest', climb_of_operand hoperand hfollow⟩

namespace Written

/-- Among operators every expression is read, in parentheses where it needs them. -/
theorem reads {e : Expr} (h : Written e) {line : Int} {least follow : Nat} {first : Bool}
    (level : Nat) (enclosed : Bool) {d : Draft} {rest : List Token} (hexpressible : e.Expressible first least)
    (hscoped : e.Scoped d.scope) (hfollow : follow ≤ least + 1) (hlevel : level ≤ least)
    (hrest : d.rest = e.tokens line least follow ++ rest)
    (hbehind : MayFollow follow (firstKind rest)) :
    ∃ d', Reads d e d' ∧ d'.rest = rest ∧
      climb level enclosed first d = operators level enclosed d' := by
  cases hbare : e.bare least follow with
  | true => exact h.climbs enclosed hbare hexpressible hscoped hfollow hlevel hrest hbehind
  | false =>
      rw [Expr.tokens_of_not_bare hbare] at hrest
      obtain ⟨d', hreads, hrest', hoperand⟩ := Climbs.operand_enclosed h.climbs line first enclosed
        (hexpressible.of_not_bare hbare) hscoped (by simpa using hrest)
      rw [← kind_peek_of hrest'] at hbehind
      exact ⟨d', hreads, hrest', climb_of_operand hoperand hbehind⟩

/-- An expression by itself is read up to what ends it. -/
theorem expression {e : Expr} (h : Written e) {line : Int} {d : Draft} {rest : List Token}
    (hexpressible : e.Expressible true 0) (hscoped : e.Scoped d.scope)
    (hrest : d.rest = e.tokens line 0 0 ++ rest) (hender : isEnder (firstKind rest) = true) :
    ∃ d', Reads d e d' ∧ d'.rest = rest ∧ Precedence.expression d = .ok d' := by
  have hbehind := mayFollow_of_isEnder hender
  obtain ⟨d', hreads, hrest', hclimb⟩ := h.reads 0 false hexpressible hscoped (Nat.zero_le _)
    (Nat.le_refl 0) hrest hbehind
  refine ⟨d', hreads, hrest', ?_⟩
  unfold Precedence.expression
  rw [hclimb, operators_of_mayFollow (by rw [kind_peek_of hrest']; exact hbehind)]

/-! ### Values -/

theorem null : Written .null := by
  apply Operates.written
  · intro line first enclosed d rest _ _ hrest _
    have hkind : d.peek.kind = .null := d.kind_peek_of hrest
    refine ⟨_, .null hkind, rest_next_of hrest, operand_of_primary ?_ ?_⟩
    · rw [hkind]
      rfl
    · rw [primary_eq, hkind]
  · rfl

theorem literal (value : Literal) : Written (.literal value) := by
  apply Operates.written
  · intro line first enclosed d rest hexpressible _ hrest _
    have hpeek : d.peek = .ofLiteral value line := peek_of_cons hrest
    have hvalue : d.peek.value = value := by rw [hpeek]; rfl
    have hkind : d.peek.kind = .number ∨ d.peek.kind = .string ∨ d.peek.kind = .boolean := by
      rw [hpeek]
      unfold Token.ofLiteral
      rcases hexpressible with h | h | h <;> simp [h]
    have hreads : Reads d (.literal d.peek.value) (d.next.emitValue d.peek.value) := by
      apply Reads.constant
      · rcases hkind with h | h | h <;> simp [h]
      · unfold Word.ofToken?
        rcases hkind with h | h | h <;> rw [h]
    rw [hvalue] at hreads
    refine ⟨_, hreads, rest_next_of hrest, operand_of_primary ?_ ?_⟩
    · rcases hkind with h | h | h <;> rw [h] <;> rfl
    · rw [primary_eq]
      rcases hkind with h | h | h <;> rw [h, hvalue]
  · rfl

theorem name (text : String) : Written (.name text) := by
  apply Operates.written
  · intro line first enclosed d rest _ hscoped hrest hparen
    have hkind : d.peek.kind = .identifier := d.kind_peek_of hrest
    have htext : d.peek.text = text := by rw [peek_of_cons hrest]; rfl
    have hsees : d.sees? d.peek.text = true := by
      rw [htext, d.sees?_eq_scope]
      exact hscoped
    have hsecond : d.peekSecond.kind ≠ .leftParen := by
      rw [← peek_next, kind_peek_of (rest_next_of hrest)]
      exact hparen
    have hreads := Reads.name hkind hsees
    rw [htext] at hreads
    refine ⟨_, hreads, rest_next_of hrest, operand_of_primary ?_ ?_⟩
    · rw [hkind]
      rfl
    · rw [primary_eq, hkind]
      dsimp only
      rw [if_neg hsecond, if_pos hsees, htext]
  · rfl

/-! ### Subscripts and members -/

theorem index {container position : Expr} (hcontainer : Written container)
    (hposition : Written position) : Written (.index container position) := by
  apply Operates.written
  · intro line first enclosed d rest hexpressible hscoped hrest _
    rw [Expr.tokens, List.append_assoc, List.append_assoc] at hrest
    obtain ⟨d₁, hreads, hrest₁, hoperand⟩ :=
      hcontainer.operates enclosed hexpressible.1 hscoped.1 hrest (by simp [firstKind, Token.ofKind])
    have hopen : d₁.peek.kind = .leftBracket := d₁.kind_peek_of hrest₁
    have hrest₂ : d₁.next.rest = position.tokens line 0 0 ++ ([.ofKind .rightBracket line] ++ rest) :=
      rest_next_of hrest₁
    have hskip := skipLineBreaks_of_expression position hrest₂
    have hscope₂ : d₁.next.scope = d.scope := by
      rw [scope_eq_of_frame d₁.frame_next, hreads.moves.scope_eq]
    obtain ⟨d₂, hreads₂, hrest₃, hexpression⟩ :=
      hposition.expression hexpressible.2 (hscope₂ ▸ hscoped.2) hrest₂ rfl
    have hclose : d₂.peek.kind = .rightBracket := d₂.kind_peek_of hrest₃
    have hskip₂ : d₂.skipLineBreaks = d₂ := skipLineBreaks_of_ne (by rw [hclose]; decide)
    refine ⟨d₂.next.emit .index, ?_, rest_next_of hrest₃, ?_⟩
    · refine hreads.index hopen (hskip ▸ hreads₂) ?_
      rw [hskip₂]
      exact moves_symbol hclose rfl
    · rw [hoperand, suffixes_eq, hopen]
      dsimp only
      rw [hskip, hexpression, ok_bind, hskip₂, expect_of_kind hclose, ok_bind]
  · rfl

theorem member {owner : Expr} (howner : Written owner) (name : String) :
    Written (.member owner name) := by
  apply Operates.written
  · intro line first enclosed d rest hexpressible hscoped hrest _
    rw [Expr.tokens, List.append_assoc] at hrest
    obtain ⟨d₁, hreads, hrest₁, hoperand⟩ :=
      howner.operates enclosed hexpressible hscoped hrest (by simp [firstKind, Token.ofKind])
    have hdot : d₁.peek.kind = .dot := d₁.kind_peek_of hrest₁
    have hrest₂ : d₁.next.rest = .ofName name line :: rest := rest_next_of hrest₁
    have hkind : d₁.next.peek.kind = .identifier := d₁.next.kind_peek_of hrest₂
    have htext : d₁.next.peek.text = name := by rw [peek_of_cons hrest₂]; rfl
    have hmember := hreads.member hdot hkind
    rw [htext] at hmember
    refine ⟨_, hmember, rest_next_of hrest₂, ?_⟩
    rw [hoperand, suffixes_eq, hdot]
    dsimp only
    rw [expectText_of_kind hkind, ok_bind, htext]
  · rfl

/-! ### Operators -/

theorem unary (o : UnaryOp) {operand : Expr} (h : Written operand) : Written (.unary o operand) := by
  apply Climbs.written
  · intro line least follow level first enclosed d rest hbare hexpressible hscoped _ _ hrest hbehind
    have hlevel : follow ≤ o.level := by simpa [Expr.bare] using hbare
    have hrest : d.rest = .ofKind o.kind line :: (operand.tokens line o.level o.level ++ rest) := by
      simpa [Expr.tokens, Tree.enclosed, hlevel] using hrest
    have hkind : d.peek.kind = o.kind := d.kind_peek_of hrest
    have hunary : UnaryOp.ofKind? d.peek.kind = some o := by rw [hkind, UnaryOp.ofKind?_kind]
    have hscope : d.next.scope = d.scope := scope_eq_of_frame d.frame_next
    obtain ⟨d₁, hreads, hrest₁, hclimb⟩ := h.reads o.level enclosed hexpressible (hscope ▸ hscoped)
      (Nat.le_succ _) (Nat.le_refl _) (rest_next_of hrest) (hbehind.mono hlevel)
    rw [← kind_peek_of hrest₁] at hbehind
    refine ⟨_, hreads.unary enclosed hunary, by simpa using hrest₁, ?_⟩
    rw [climb_eq, operand_eq, hunary]
    dsimp only
    rw [hclimb, operators_of_mayFollow (hbehind.mono hlevel), ok_bind]
    rfl
  · cases o <;> rfl

theorem binary (o : BinaryOp) {left right : Expr} (hleft : Written left) (hright : Written right) :
    Written (.binary o left right) := by
  apply Climbs.written
  · intro line least follow level first enclosed d rest hbare hexpressible hscoped hfollow hlevel
      hrest hbehind
    have hleast : least ≤ o.level := by simpa [Expr.bare] using hbare
    have hrest : d.rest = left.tokens line o.level (o.level + 1)
        ++ (.ofKind o.kind line :: (right.tokens line (o.level + 1) (o.level + 1) ++ rest)) := by
      simpa [Expr.tokens, Tree.enclosed, hleast] using hrest
    have hfirst : left.Expressible first o.level := by
      have := hexpressible.1
      simpa [hleast] using this
    obtain ⟨d₁, hreads, hrest₁, hclimb⟩ := hleft.reads level enclosed hfirst hscoped.1
      (Nat.le_refl _) (Nat.le_trans hlevel hleast) hrest (mayFollow_binary o)
    have hkind : d₁.peek.kind = o.kind := d₁.kind_peek_of hrest₁
    have hbinary : BinaryOp.ofKind? d₁.peek.kind = some o := by rw [hkind, BinaryOp.ofKind?_kind]
    have hbegin := (moves_binary hbinary).trans (moves_begin o d₁.next)
    have hscope : (begin o d₁.next).scope = d.scope := by
      rw [hbegin.scope_eq, hreads.moves.scope_eq]
    have hbehind' : MayFollow (o.level + 1) (firstKind rest) :=
      hbehind.mono (Nat.le_trans hfollow (Nat.succ_le_succ hleast))
    obtain ⟨d₂, hreads₂, hrest₂, hclimb₂⟩ := hright.reads (o.level + 1) enclosed
      hexpressible.2 (hscope ▸ hscoped.2) (Nat.le_succ _) (Nat.le_refl _)
      ((rest_begin o d₁.next).trans (rest_next_of hrest₁)) hbehind'
    rw [← kind_peek_of hrest₂] at hbehind'
    obtain ⟨d₃, hcombine, hreads₃⟩ := (sound_combine enclosed hreads hbinary hreads₂).exists_ok
      fun e he => kind_of_combine he
    refine ⟨d₃, hreads₃, by rw [rest_of_combine hcombine, rest_concluding, hrest₂], ?_⟩
    have hvalue : ¬beginsValue d₁.peek.kind = true := by rw [hkind]; cases o <;> decide
    rw [hclimb, operators_eq, if_neg hvalue, hbinary]
    dsimp only
    rw [if_neg (Nat.not_lt.mpr (Nat.le_trans hlevel hleast)), hclimb₂,
      operators_of_mayFollow hbehind', ok_bind, hcombine, ok_bind]
  · cases o <;> rfl

end Written

/-! ## Rows -/

/-- The tokens of expressions in a row are read as these expressions, as arguments and as
elements. -/
structure WrittenRow (es : Exprs) : Prop where
  arguments : ∀ {line : Int} (count : Nat) {d : Draft} {rest : List Token}, es ≠ .nil →
    es.Expressible → es.Scoped d.scope → d.rest = es.tokens line ++ rest →
    firstKind rest = .rightParen →
    ∃ d', ReadsArguments d es d' ∧ d'.rest = rest ∧
      Precedence.arguments d count = .ok (d', count + es.count)
  elements : ∀ {line : Int} {d : Draft} {rest : List Token}, es.Expressible → es.Scoped d.scope →
    d.rest = es.tokens line ++ rest → firstKind rest = .rightBracket →
    ∃ d', ReadsElements d es d' ∧ d'.rest = rest ∧ Precedence.elements d = .ok d'

/-- The tokens of the members of an object are read as these members. -/
def WrittenMembers (ms : Members) : Prop :=
  ∀ {line : Int} {d : Draft} {rest : List Token}, ms.Expressible → ms.Scoped d.scope →
    d.rest = ms.tokens line ++ rest → firstKind rest = .rightBrace →
    ∃ d', ReadsMembers d ms d' ∧ d'.rest = rest ∧ members d = .ok d'

/-- Behind an expression in a row comes the end of the row, or a comma and the others. -/
theorem comma_cases {es : Exprs} {line : Int} {d : Draft} {rest : List Token}
    (h : d.rest = es.comma line ++ es.tokens line ++ rest) (hend : firstKind rest ≠ .comma) :
    (es = .nil ∧ ¬d.sees .comma = true ∧ d.rest = rest) ∨
      (es ≠ .nil ∧ d.sees .comma = true ∧ d.next.skipLineBreaks = d.next ∧
        d.next.rest = es.tokens line ++ rest ∧ d.Moves [] [] d.next) := by
  cases es with
  | nil =>
      refine .inl ⟨rfl, ?_, h⟩
      rw [sees_iff, kind_peek_of h]
      exact hend
  | cons first more =>
      have hkind : d.peek.kind = .comma := d.kind_peek_of h
      have hrest : d.next.rest = (Exprs.cons first more).tokens line ++ rest := rest_next_of h
      refine .inr ⟨nofun, sees_iff.mpr hkind, ?_, hrest, moves_silent hkind rfl⟩
      rw [Exprs.tokens, List.append_assoc, List.append_assoc] at hrest
      exact skipLineBreaks_of_expression first hrest

theorem isEnder_comma {es : Exprs} {line : Int} {rest : List Token}
    (h : isEnder (firstKind rest) = true) :
    isEnder (firstKind (es.comma line ++ es.tokens line ++ rest)) = true := by
  cases es with
  | nil => exact h
  | cons first more => rfl

theorem WrittenRow.nil : WrittenRow .nil := by
  refine ⟨?_, ?_⟩
  · intro line count d rest hne
    exact absurd rfl hne
  · intro line d rest _ _ hrest hend
    refine ⟨d, .nil d, hrest, ?_⟩
    rw [elements_eq, if_pos]
    rw [sees_iff, kind_peek_of hrest]
    exact hend

theorem WrittenRow.cons {e : Expr} {es : Exprs} (he : Written e) (hes : WrittenRow es) :
    WrittenRow (.cons e es) := by
  refine ⟨?_, ?_⟩
  · intro line count d rest _ hexpressible hscoped hrest hend
    rw [Exprs.tokens, List.append_assoc, List.append_assoc, ← List.append_assoc (es.comma line)]
      at hrest
    obtain ⟨d₁, hreads, hrest₁, hexpression⟩ := he.expression hexpressible.1 hscoped.1 hrest
      (isEnder_comma (by rw [hend]; rfl))
    rw [arguments_eq, hexpression, ok_bind]
    obtain ⟨rfl, hcomma, hrest₁⟩ | ⟨hne, hcomma, hskip, hrest₂, hmoves⟩ :=
      comma_cases hrest₁ (by rw [hend]; decide)
    · rw [if_neg hcomma]
      exact ⟨d₁, hreads.argument (.refl d₁) (.nil d₁), hrest₁, rfl⟩
    · obtain ⟨d₂, hreads₂, hrest₃, harguments⟩ := hes.arguments (count + 1) hne hexpressible.2
        (by rw [hmoves.scope_eq, hreads.moves.scope_eq]; exact hscoped.2) hrest₂ hend
      refine ⟨d₂, hreads.argument hmoves hreads₂, hrest₃, ?_⟩
      rw [if_pos hcomma, hskip, harguments, Exprs.count, Nat.add_assoc, Nat.add_comm 1]
  · intro line d rest hexpressible hscoped hrest hend
    rw [Exprs.tokens, List.append_assoc, List.append_assoc, ← List.append_assoc (es.comma line)]
      at hrest
    obtain ⟨d₁, hreads, hrest₁, hexpression⟩ := he.expression hexpressible.1 hscoped.1 hrest
      (isEnder_comma (by rw [hend]; rfl))
    have hrest₁ : (d₁.emit .append).rest = es.comma line ++ es.tokens line ++ rest := hrest₁
    have hscope₁ : (d₁.emit .append).scope = d.scope := hreads.moves.scope_eq
    rw [elements_eq, if_neg (not_sees_of_expression e hrest rfl), hexpression, ok_bind]
    obtain ⟨rfl, hcomma, hrest₁⟩ | ⟨-, hcomma, hskip, hrest₂, hmoves⟩ :=
      comma_cases hrest₁ (by rw [hend]; decide)
    · rw [if_neg hcomma]
      exact ⟨_, hreads.element (.refl _) (.nil _), hrest₁, rfl⟩
    · obtain ⟨d₂, hreads₂, hrest₃, helements⟩ := hes.elements hexpressible.2
        (by rw [hmoves.scope_eq, hscope₁]; exact hscoped.2) hrest₂ hend
      refine ⟨d₂, hreads.element hmoves hreads₂, hrest₃, ?_⟩
      rw [if_pos hcomma, hskip, helements]

theorem writtenMembers_nil : WrittenMembers .nil := by
  intro line d rest _ _ hrest hend
  refine ⟨d, .nil d, hrest, ?_⟩
  rw [members_eq, if_pos]
  rw [sees_iff, kind_peek_of hrest]
  exact hend

theorem WrittenMembers.cons {e : Expr} {ms : Members} (name : String) (he : Written e)
    (hms : WrittenMembers ms) : WrittenMembers (.cons name e ms) := by
  intro line d rest hexpressible hscoped hrest hend
  have hrest : d.rest = .ofName name line :: .ofKind .equal line
      :: (e.tokens line 0 0 ++ (ms.comma line ++ ms.tokens line ++ rest)) := by
    simpa [Members.tokens] using hrest
  have hname : d.peek.kind = .identifier := d.kind_peek_of hrest
  have htext : d.peek.text = name := by rw [peek_of_cons hrest]; rfl
  have hrest₁ := rest_next_of hrest
  have hequal : d.next.peek.kind = .equal := d.next.kind_peek_of hrest₁
  have hrest₂ := rest_next_of hrest₁
  have hskip := skipLineBreaks_of_expression e hrest₂
  have hopen := (moves_name hname).trans (moves_symbol hequal rfl)
  have hender : isEnder (firstKind (ms.comma line ++ ms.tokens line ++ rest)) = true := by
    cases ms with
    | nil => exact hend ▸ rfl
    | cons _ _ _ => rfl
  obtain ⟨d₃, hreads, hrest₃, hexpression⟩ := he.expression hexpressible.1
    (by rw [hopen.scope_eq]; exact hscoped.1) hrest₂ hender
  have hreads' : Reads d.next.next.skipLineBreaks e d₃ := by
    rw [hskip]
    exact hreads
  have hrest₃ : (d₃.emitName .set d.peek.text).rest = ms.comma line ++ ms.tokens line ++ rest :=
    hrest₃
  have hfirst : ¬d.sees .rightBrace = true := by rw [sees_iff, hname]; decide
  rw [members_eq, if_neg hfirst, expectText_of_kind hname, ok_bind]
  dsimp only
  rw [expect_of_kind hequal, ok_bind, hskip, hexpression, ok_bind]
  cases ms with
  | nil =>
      have hcomma : ¬(d₃.emitName .set d.peek.text).sees .comma = true := by
        rw [sees_iff, kind_peek_of hrest₃]
        change ¬firstKind rest = .comma
        rw [hend]
        decide
      have hmembers := Reads.memberValue hname (moves_symbol hequal rfl) hreads' (.refl _) (.nil _)
      rw [htext] at hmembers hcomma ⊢
      rw [if_neg hcomma]
      exact ⟨_, hmembers, htext ▸ hrest₃, rfl⟩
  | cons name' e' ms' =>
      have hkind : (d₃.emitName .set d.peek.text).peek.kind = .comma := kind_peek_of hrest₃
      have hrest₄ : (d₃.emitName .set d.peek.text).next.rest =
          (Members.cons name' e' ms').tokens line ++ rest := rest_next_of hrest₃
      have hskip₄ : (d₃.emitName .set d.peek.text).next.skipLineBreaks =
          (d₃.emitName .set d.peek.text).next := by
        apply skipLineBreaks_of_ne
        rw [kind_peek_of hrest₄]
        exact nofun
      have hcomma := moves_silent hkind rfl
      have hscope : (d₃.emitName .set d.peek.text).scope = d.scope :=
        hreads.moves.scope_eq.trans hopen.scope_eq
      obtain ⟨d₄, hreads₄, hrest₅, hmembers⟩ := hms hexpressible.2
        (by rw [hcomma.scope_eq, hscope]; exact hscoped.2) hrest₄ hend
      refine ⟨d₄, ?_, hrest₅, ?_⟩
      · have hall := Reads.memberValue hname (moves_symbol hequal rfl) hreads' hcomma hreads₄
        rw [htext] at hall
        exact hall
      · rw [if_pos (sees_iff.mpr hkind), hskip₄, hmembers]

/-! ## Calls, lists and objects -/

/-- The arguments of a call, up to its closing parenthesis. -/
theorem WrittenRow.given {es : Exprs} (h : WrittenRow es) {line : Int} {d : Draft}
    {rest : List Token} (hexpressible : es.Expressible) (hscoped : es.Scoped d.scope)
    (hrest : d.rest = es.tokens line ++ rest) (hend : firstKind rest = .rightParen) :
    d.skipLineBreaks = d ∧ ∃ d', ReadsArguments d es d' ∧ d'.rest = rest ∧
      (if d.sees .rightParen then .ok (d, 0) else Precedence.arguments d 0) =
        .ok (d', es.count) := by
  cases es with
  | nil =>
      have hkind : d.peek.kind = .rightParen := by rw [kind_peek_of hrest]; exact hend
      refine ⟨skipLineBreaks_of_ne (by rw [hkind]; decide), d, .nil d, hrest, ?_⟩
      rw [if_pos (sees_iff.mpr hkind)]
      rfl
  | cons first more =>
      obtain ⟨d', hreads, hrest', harguments⟩ :=
        h.arguments 0 nofun hexpressible hscoped hrest hend
      rw [Exprs.tokens, List.append_assoc, List.append_assoc] at hrest
      refine ⟨skipLineBreaks_of_expression first hrest, d', hreads, hrest', ?_⟩
      rw [if_neg (not_sees_of_expression first hrest rfl), harguments, Nat.zero_add]

theorem Written.call (function : String) {es : Exprs} (hes : WrittenRow es) :
    Written (.call function es) := by
  apply Operates.written
  · intro line first enclosed d rest hexpressible hscoped hrest _
    have hrest : d.rest = .ofName function line :: .ofKind .leftParen line
        :: (es.tokens line ++ (.ofKind .rightParen line :: rest)) := by
      simpa [Expr.tokens] using hrest
    have hkind : d.peek.kind = .identifier := d.kind_peek_of hrest
    have htext : d.peek.text = function := by rw [peek_of_cons hrest]; rfl
    have hrest₁ := rest_next_of hrest
    have hparen : d.next.peek.kind = .leftParen := d.next.kind_peek_of hrest₁
    have hopen := (moves_name hkind).trans (moves_silent hparen rfl)
    have harity : d.scope.arity d.peek.text = some es.count := by rw [htext]; exact hscoped.1
    obtain ⟨hskip, d₁, hreads, hrest₂, hgiven⟩ := hes.given hexpressible
      (by rw [hopen.scope_eq]; exact hscoped.2) (rest_next_of hrest₁) rfl
    have hclose : d₁.peek.kind = .rightParen := d₁.kind_peek_of hrest₂
    have hskip₁ : d₁.skipLineBreaks = d₁ := skipLineBreaks_of_ne (by rw [hclose]; decide)
    have hcall := Reads.call hkind hparen harity (by rw [hskip]; exact hreads)
      (by rw [hskip₁]; exact moves_silent hclose rfl)
    rw [htext] at hcall
    refine ⟨_, hcall, rest_next_of hrest₂, operand_of_primary ?_ ?_⟩
    · rw [hkind]
      rfl
    · have hknown : d.next.arity? d.peek.text = some es.count := by
        have hscope : d.next.scope = d.scope := scope_eq_of_frame d.frame_next
        rw [← harity, ← hscope]
        rfl
      rw [primary_eq, hkind]
      dsimp only
      rw [if_pos (by rw [← peek_next]; exact hparen), call_eq, hknown]
      dsimp only
      rw [hskip, hgiven, ok_bind, hskip₁, expect_of_kind hclose, ok_bind, if_pos rfl, htext]
  · rfl

theorem Written.list {es : Exprs} (hes : WrittenRow es) : Written (.list es) := by
  apply Operates.written
  · intro line first enclosed d rest hexpressible hscoped hrest _
    have hrest : d.rest = .ofKind .leftBracket line
        :: (es.tokens line ++ (.ofKind .rightBracket line :: rest)) := by
      simpa [Expr.tokens] using hrest
    have hkind : d.peek.kind = .leftBracket := d.kind_peek_of hrest
    have hrest₁ := rest_next_of hrest
    have hskip : d.next.skipLineBreaks = d.next := by
      cases es with
      | nil => exact skipLineBreaks_of_ne (by rw [kind_peek_of hrest₁]; exact nofun)
      | cons first more =>
          rw [Exprs.tokens, List.append_assoc, List.append_assoc] at hrest₁
          exact skipLineBreaks_of_expression first hrest₁
    have hscope : (d.next.emit .list).scope = d.scope := scope_eq_of_frame d.frame_next
    obtain ⟨d₁, hreads, hrest₂, helements⟩ := hes.elements (d := d.next.emit .list)
      hexpressible.2 (by rw [hscope]; exact hscoped) hrest₁ rfl
    have hclose : d₁.peek.kind = .rightBracket := d₁.kind_peek_of hrest₂
    have hskip₁ : d₁.skipLineBreaks = d₁ := skipLineBreaks_of_ne (by rw [hclose]; decide)
    refine ⟨d₁.next, ?_, rest_next_of hrest₂, operand_of_primary ?_ ?_⟩
    · refine Reads.list hkind (by rw [hskip]; exact hreads) ?_
      rw [hskip₁]
      exact moves_symbol hclose rfl
    · rw [hkind]
      rfl
    · rw [primary_eq, hkind]
      dsimp only
      rw [if_pos hexpressible.1, hskip, helements, ok_bind, hskip₁, expect_of_kind hclose]
  · rfl

theorem Written.object {ms : Members} (hms : WrittenMembers ms) : Written (.object ms) := by
  apply Operates.written
  · intro line first enclosed d rest hexpressible hscoped hrest _
    have hrest : d.rest = .ofKind .leftBrace line
        :: (ms.tokens line ++ (.ofKind .rightBrace line :: rest)) := by
      simpa [Expr.tokens] using hrest
    have hkind : d.peek.kind = .leftBrace := d.kind_peek_of hrest
    have hrest₁ := rest_next_of hrest
    have hskip : d.next.skipLineBreaks = d.next := by
      apply skipLineBreaks_of_ne
      rw [kind_peek_of hrest₁]
      cases ms <;> exact nofun
    have hscope : (d.next.emit .object).scope = d.scope := scope_eq_of_frame d.frame_next
    obtain ⟨d₁, hreads, hrest₂, hmembers⟩ := hms (d := d.next.emit .object)
      hexpressible (by rw [hscope]; exact hscoped) hrest₁ rfl
    have hclose : d₁.peek.kind = .rightBrace := d₁.kind_peek_of hrest₂
    have hskip₁ : d₁.skipLineBreaks = d₁ := skipLineBreaks_of_ne (by rw [hclose]; decide)
    refine ⟨d₁.next, ?_, rest_next_of hrest₂, operand_of_primary ?_ ?_⟩
    · refine Reads.object hkind (by rw [hskip]; exact hreads) ?_
      rw [hskip₁]
      exact moves_symbol hclose rfl
    · rw [hkind]
      rfl
    · rw [primary_eq, hkind]
      dsimp only
      rw [hskip, hmembers, ok_bind, hskip₁, expect_of_kind hclose]
  · rfl

/-! ## All expressions -/

mutual

/-- Every expression is read again from its tokens. -/
theorem written : ∀ e : Expr, Written e
  | .null => .null
  | .literal value => .literal value
  | .name text => .name text
  | .call function arguments => .call function (writtenRow arguments)
  | .list items => .list (writtenRow items)
  | .object ms => .object (writtenMembers ms)
  | .index container position => .index (written container) (written position)
  | .member owner name => .member (written owner) name
  | .unary o e => .unary o (written e)
  | .binary o left right => .binary o (written left) (written right)

theorem writtenRow : ∀ es : Exprs, WrittenRow es
  | .nil => .nil
  | .cons first rest => .cons (written first) (writtenRow rest)

theorem writtenMembers : ∀ ms : Members, WrittenMembers ms
  | .nil => writtenMembers_nil
  | .cons name value rest => WrittenMembers.cons name (written value) (writtenMembers rest)

end

end LineScript.Compile.Precedence
