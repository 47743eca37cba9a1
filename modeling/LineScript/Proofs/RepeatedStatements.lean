/-
# The same statements compiled elsewhere

A script by itself and the same script in the middle of a longer one: behind other statements, and
with more to come. Where the first compilation comes to the end of its input, the second one goes on;
everything before is compiled to the same code.

The end is reached in the middle of a statement only when the statement is incomplete, and then the
first compilation fails. So a complete statement leaves tokens, or it was the last one.
-/

import LineScript.Proofs.Echoes

namespace LineScript.Compile

open LineScript.Code

variable {own : List Instruction} {outer? : Option (List Instruction)} {more : List Token}
  {d d' : Draft}

/-! ## Drafts -/

namespace Draft

theorem Echoes.followed (h : d.Echoes own outer? more d') :
    (d.followed more 0).Echoes own outer? [] d' := by
  refine ⟨?_, ?_, h.body, h.outer, h.functions, h.natives⟩
  · rw [List.append_nil]
    exact h.rest
  · rw [List.append_nil]
    exact h.named

theorem Echoes.of_followed (h : (d.followed more 0).Echoes own outer? [] d') :
    d.Echoes own outer? more d' := by
  refine ⟨h.tokens_eq, ?_, h.body, h.outer, h.functions, h.natives⟩
  have hnamed := h.named
  rw [List.append_nil] at hnamed
  exact hnamed

/-- Tokens are left in the first compilation. -/
structure Follows (own : List Instruction) (outer? : Option (List Instruction)) (more : List Token)
    (d d' : Draft) : Prop where
  live : d.Live
  echoes : d.Echoes own outer? more d'

/-- A statement has been compiled, which may have been the last one of the first compilation. -/
structure Finishes (own : List Instruction) (outer? : Option (List Instruction)) (more : List Token)
    (d d' : Draft) : Prop where
  live_or_gone : d.Live ∨ Gone d
  echoes : d.Echoes own outer? more d'

namespace Follows

theorem kind_eq (h : d.Follows own outer? more d') : d'.peek.kind = d.peek.kind := by
  rw [h.echoes.followed.kind_eq, h.live.peek_followed]

theorem text_eq (h : d.Follows own outer? more d') : d'.peek.text = d.peek.text := by
  rw [h.echoes.followed.text_eq, h.live.peek_followed]

theorem sees_eq (h : d.Follows own outer? more d') (kind : TokenKind) :
    d'.sees kind = d.sees kind := by
  unfold sees
  rw [h.kind_eq]

theorem atEnd_eq (h : d.Follows own outer? more d') : d'.atEnd = false := by
  unfold atEnd
  rw [h.kind_eq]
  exact h.live.atEnd_eq

theorem echoes_next (h : d.Follows own outer? more d') : d.next.Echoes own outer? more d'.next := by
  have hnext := h.echoes.followed.next
  rw [h.live.next_followed] at hnext
  exact .of_followed hnext

theorem next (h : d.Follows own outer? more d') (hkind : d.peek.kind ≠ .lineBreak) :
    d.next.Follows own outer? more d'.next :=
  ⟨h.live.next hkind, h.echoes_next⟩

theorem next_finishes (h : d.Follows own outer? more d') :
    d.next.Finishes own outer? more d'.next := by
  refine ⟨?_, h.echoes_next⟩
  obtain hgone | ⟨hlive, -⟩ := h.live.next_cases more 0
  · exact .inr hgone
  · exact .inl hlive

theorem peekSecond_kind_eq (h : d.Follows own outer? more d') (hkind : d.peek.kind ≠ .lineBreak) :
    d'.peekSecond.kind = d.peekSecond.kind := by
  rw [← peek_next, ← peek_next]
  exact (h.next hkind).kind_eq

theorem skipLineBreaks (h : d.Follows own outer? more d') :
    Gone d.skipLineBreaks ∨ d.skipLineBreaks.Follows own outer? more d'.skipLineBreaks := by
  have hskip := h.echoes.followed.skipLineBreaks
  obtain hgone | ⟨hlive, heq⟩ := h.live.skipLineBreaks more 0
  · exact .inl hgone
  · rw [heq] at hskip
    exact .inr ⟨hlive, .of_followed hskip⟩

theorem emit (h : d.Follows own outer? more d') {op : Opcode} (hop : op.isJump = false) :
    (d.emit op).Follows own outer? more (d'.emit op) :=
  ⟨h.live.emitInstruction _, h.echoes.emit hop⟩

theorem emitValue (h : d.Follows own outer? more d') (literal : Literal) :
    (d.emitValue literal).Follows own outer? more (d'.emitValue literal) :=
  ⟨h.live.emitInstruction _, h.echoes.emitValue literal⟩

theorem emitName (h : d.Follows own outer? more d') {op : Opcode} (hop : op.isJump = false)
    (name : String) : (d.emitName op name).Follows own outer? more (d'.emitName op name) :=
  ⟨h.live.emitInstruction _, h.echoes.emitName hop name⟩

theorem emitJump (h : d.Follows own outer? more d') (op : Opcode) :
    (d.emitJump op).Follows own outer? more (d'.emitJump op) :=
  ⟨h.live.written _, h.echoes.emitJump op⟩

theorem emitJumpTo (h : d.Follows own outer? more d') {op : Opcode} (hop : op.isJump = true)
    (target : Nat) :
    (d.emitJumpTo op target).Follows own outer? more (d'.emitJumpTo op (target + own.length)) :=
  ⟨h.live.written _, h.echoes.emitJumpTo hop target⟩

theorem declare (h : d.Follows own outer? more d') (name : String) :
    (d.declare name).Follows own outer? more (d'.declare name) :=
  ⟨h.live.written _, h.echoes.declare name⟩

end Follows

end Draft

open Draft (Follows Finishes)

/-! ## Results -/

/-- A step that cannot end at the end of the input. -/
abbrev Advances (own : List Instruction) (outer? : Option (List Instruction)) (more : List Token)
    (r r' : Result) : Prop :=
  Repeated (fun _ => False) (Follows own outer? more) r r'

/-- A complete statement. -/
abbrev Completes (own : List Instruction) (outer? : Option (List Instruction)) (more : List Token)
    (r r' : Result) : Prop :=
  Repeated (fun _ => False) (Finishes own outer? more) r r'

section

variable {α β : Type} {gone : α → Prop} {same : α → α → Prop}

theorem Stops.repeated {r : Except CompileError α} (h : Stops gone r) (r' : Except CompileError α) :
    Repeated gone same r r' := by
  cases r with
  | error e => trivial
  | ok a => exact .inl h

theorem Advances.bind {r r' : Result} (h : Advances own outer? more r r')
    {f f' : Draft → Except CompileError α}
    (hsame : ∀ d d', d.Follows own outer? more d' → Repeated gone same (f d) (f' d')) :
    Repeated gone same (r >>= f) (r' >>= f') :=
  Repeated.bind h (fun _ _ => False.elim) fun d d' _ => hsame d d'

theorem Completes.bind {r r' : Result} (h : Completes own outer? more r r')
    {f f' : Draft → Except CompileError α} (hgone : ∀ d, Gone d → Stops gone (f d))
    (hsame : ∀ d d', d.Follows own outer? more d' → Repeated gone same (f d) (f' d')) :
    Repeated gone same (r >>= f) (r' >>= f') := by
  apply Repeated.bind h (fun _ _ => False.elim)
  rintro d d' - ⟨hlive | hd, hechoes⟩
  · exact hsame d d' ⟨hlive, hechoes⟩
  · exact (hgone d hd).repeated _

end

namespace Draft.Follows

theorem expect (h : d.Follows own outer? more d') {kind : TokenKind} (hkind : kind ≠ .lineBreak) :
    Advances own outer? more (d.expect kind) (d'.expect kind) := by
  unfold Draft.expect
  rw [h.sees_eq]
  split
  · rename_i hsees
    refine repeated_ok (h.next ?_)
    rw [sees_iff.mp hsees]
    exact hkind
  · trivial

theorem expectText {α : Type} {gone : α → Prop} {same : α → α → Prop}
    {f f' : String × Draft → Except CompileError α} (h : d.Follows own outer? more d')
    {kind : TokenKind} (hkind : kind ≠ .lineBreak)
    (hf : ∀ a a', a.Follows own outer? more a' →
      Repeated gone same (f (d.peek.text, a)) (f' (d.peek.text, a'))) :
    Repeated gone same (d.expectText kind >>= f) (d'.expectText kind >>= f') := by
  rw [expectText_bind, expectText_bind, h.text_eq]
  exact (h.expect hkind).bind hf

/-- A step behind skipped line breaks. -/
theorem behindLineBreaks {α : Type} {gone : α → Prop} {same : α → α → Prop}
    (h : d.Follows own outer? more d') (f f' : Draft → Except CompileError α)
    (hgone : ∀ d : Draft, d.rest = [] → Stops gone (f d))
    (hsame : ∀ a a', a.Follows own outer? more a' → Repeated gone same (f a) (f' a')) :
    Repeated gone same (f d.skipLineBreaks) (f' d'.skipLineBreaks) := by
  obtain hempty | hfollows := h.skipLineBreaks
  · exact (hgone _ hempty).repeated _
  · exact hsame _ _ hfollows

theorem closing (h : d.Follows own outer? more d') {kind : TokenKind} (hkind : kind ≠ .lineBreak)
    (hreal : kind ≠ .endOfInput) :
    Advances own outer? more (d.skipLineBreaks.expect kind) (d'.skipLineBreaks.expect kind) :=
  h.behindLineBreaks (·.expect kind) (·.expect kind) (fun _ hgone => stops_expect hgone hreal)
    fun _ _ h => h.expect hkind

theorem patched (h : d.Follows own outer? more d') {address address' : Nat}
    (haddress : address' = address + own.length) :
    Advances own outer? more (d.patchHere address) (d'.patchHere address') :=
  h.echoes.patched haddress fun body _ hechoes => ⟨h.live.written body, hechoes⟩

theorem expectLineEnd (h : d.Follows own outer? more d') :
    Completes own outer? more d.expectLineEnd d'.expectLineEnd := by
  unfold Draft.expectLineEnd Draft.expect
  rw [h.live.atEnd_eq, h.atEnd_eq, h.sees_eq]
  rw [if_neg Bool.false_ne_true, if_neg Bool.false_ne_true]
  split
  · exact repeated_ok h.next_finishes
  · trivial

theorem expression (h : d.Follows own outer? more d') :
    Advances own outer? more (expression d) (expression d') := by
  have halike : Alike more 0 (Compile.expression d) (Compile.expression (d.followed more 0)) :=
    alike_expression h.live
  cases ha : Compile.expression d with
  | error e => trivial
  | ok a =>
      rw [ha] at halike
      obtain ⟨_, hfollowed, hlive, rfl⟩ := halike.resolve_left id
      obtain ⟨a', ha', hechoes⟩ | hinternal :=
        (echoed_expression h.echoes.followed).of_ok hfollowed
      · exact .inr (.inl ⟨a', ha', hlive, .of_followed hechoes⟩)
      · exact .inr (.inr hinternal)

end Draft.Follows

/-! ## Simple statements -/

theorem repeated_expressionStatement (h : d.Follows own outer? more d') :
    Completes own outer? more (expressionStatement d) (expressionStatement d') := by
  unfold expressionStatement
  apply h.expression.bind
  intro d₁ d₁' h₁
  exact (h₁.emit rfl).expectLineEnd

theorem repeated_elementAssignment (h : d.Follows own outer? more d') (name : String) :
    Completes own outer? more (elementAssignment d name) (elementAssignment d' name) := by
  unfold elementAssignment
  have hposition : Advances own outer? more (expression (d.emitName .load name).skipLineBreaks)
      (expression (d'.emitName .load name).skipLineBreaks) :=
    (h.emitName rfl name).behindLineBreaks expression expression
      (fun _ hgone => stops_expression hgone) fun _ _ h => h.expression
  apply hposition.bind
  intro d₁ d₁' h₁
  apply (h₁.closing (by decide) (by decide)).bind
  intro d₂ d₂' h₂
  apply (h₂.expect (by decide)).bind
  intro d₃ d₃' h₃
  apply h₃.expression.bind
  intro d₄ d₄' h₄
  exact (h₄.emit rfl).expectLineEnd

theorem repeated_memberAssignment (h : d.Follows own outer? more d') (name : String) :
    Completes own outer? more (memberAssignment d name) (memberAssignment d' name) := by
  unfold memberAssignment
  apply (h.emitName rfl name).expectText (by decide)
  intro d₁ d₁' h₁
  apply (h₁.expect (by decide)).bind
  intro d₂ d₂' h₂
  apply h₂.expression.bind
  intro d₃ d₃' h₃
  exact ((h₃.emitName rfl _).emit rfl).expectLineEnd

theorem repeated_assignment (h : d.Follows own outer? more d') (name : String) (visible : Bool) :
    Completes own outer? more (assignment d name visible) (assignment d' name visible) := by
  unfold assignment
  apply h.expression.bind
  intro d₁ d₁' h₁
  have hdeclare : (if visible then d₁ else d₁.declare name).Follows own outer? more
      (if visible then d₁' else d₁'.declare name) := by
    split
    · exact h₁
    · exact h₁.declare name
  exact (hdeclare.emitName rfl name).expectLineEnd

theorem repeated_declaration (h : d.Follows own outer? more d') (hkind : d.peek.kind = .identifier) :
    Completes own outer? more (declaration d) (declaration d') := by
  have hbreak : d.peek.kind ≠ .lineBreak := by rw [hkind]; decide
  have hnext := h.next hbreak
  unfold declaration
  dsimp only
  rw [h.text_eq, h.echoes.sees?_eq, h.peekSecond_kind_eq hbreak, ← Draft.peek_next]
  have hinner : d.next.peek.kind ≠ .lineBreak → d.next.next.Follows own outer? more d'.next.next :=
    hnext.next
  cases hsecond : d.next.peek.kind
  case equal => exact repeated_assignment (hinner (by rw [hsecond]; decide)) _ _
  case leftBracket =>
    dsimp only
    split
    · exact repeated_elementAssignment (hinner (by rw [hsecond]; decide)) _
    · trivial
  case dot =>
    dsimp only
    split
    · exact repeated_memberAssignment (hinner (by rw [hsecond]; decide)) _
    · trivial
  all_goals exact repeated_expressionStatement h

/-- A statement that is complete may write more behind its end. -/
theorem Draft.Finishes.withBody (h : d.Finishes own outer? more d') {body : Function} {a' : Draft}
    (hechoes : ({ d with body := body } : Draft).Echoes own outer? more a') :
    ({ d with body := body } : Draft).Finishes own outer? more a' :=
  ⟨h.live_or_gone.imp (fun hlive => hlive.written body) id, hechoes⟩

theorem Draft.Finishes.emit (h : d.Finishes own outer? more d') {op : Opcode}
    (hop : op.isJump = false) : (d.emit op).Finishes own outer? more (d'.emit op) :=
  h.withBody (h.echoes.emit hop)

theorem Draft.Finishes.emitValue (h : d.Finishes own outer? more d') (literal : Literal) :
    (d.emitValue literal).Finishes own outer? more (d'.emitValue literal) :=
  h.withBody (h.echoes.emitValue literal)

theorem Draft.Finishes.patched (h : d.Finishes own outer? more d') {address address' : Nat}
    (haddress : address' = address + own.length) :
    Completes own outer? more (d.patchHere address) (d'.patchHere address') :=
  h.echoes.patched haddress fun _ _ => h.withBody

theorem repeated_returnStatement (h : d.Follows own outer? more d') (hkind : d.peek.kind = .return_) :
    Completes own outer? more (returnStatement d) (returnStatement d') := by
  have hnext := h.next (by rw [hkind]; decide)
  unfold returnStatement
  dsimp only
  rw [hnext.live.atEnd_eq, hnext.atEnd_eq, hnext.sees_eq]
  rw [if_neg Bool.false_ne_true, if_neg Bool.false_ne_true]
  split
  · exact repeated_ok ((hnext.next_finishes.emitValue .null).emit rfl)
  · apply hnext.expression.bind
    intro d₁ d₁' h₁
    apply Repeated.bind h₁.expectLineEnd (fun _ _ => False.elim)
    intro d₂ d₂' _ h₂
    exact repeated_ok (h₂.emit rfl)

theorem repeated_inlineStatement (h : d.Follows own outer? more d') :
    Completes own outer? more (inlineStatement d) (inlineStatement d') := by
  unfold inlineStatement
  rw [h.kind_eq]
  cases hkind : d.peek.kind
  case identifier => exact repeated_declaration h hkind
  case return_ => exact repeated_returnStatement h hkind
  all_goals exact repeated_expressionStatement h

/-! ## Functions -/

theorem repeated_parameters {fuel fuel' : Nat} (h : d.Follows own outer? more d')
    (names : List String) :
    Repeated (fun r => Gone r.1) (fun r r' => r.1.Follows own outer? more r'.1 ∧ r'.2 = r.2)
      (parameters fuel d names) (parameters fuel' d' names) := by
  induction fuel generalizing fuel' d d' names with
  | zero => trivial
  | succ fuel ih =>
      cases fuel' with
      | zero =>
          cases parameters (fuel + 1) d names with
          | error e => trivial
          | ok r => exact .inr (.inr ⟨_, rfl, rfl⟩)
      | succ fuel' =>
          unfold parameters
          dsimp only
          rw [h.kind_eq, h.text_eq]
          split
          · rename_i hkind
            have hnext := h.next (by rw [hkind]; decide)
            rw [hnext.sees_eq]
            split
            · trivial
            · split
              · rename_i hsees
                have hcomma := hnext.next (by rw [Draft.sees_iff.mp hsees]; decide)
                exact hcomma.behindLineBreaks (parameters fuel · (d.peek.text :: names))
                  (parameters fuel' · (d.peek.text :: names))
                  (fun _ hgone => stops_parameters hgone _ _)
                  fun _ _ h => ih h _
              · exact repeated_ok ⟨hnext, rfl⟩
          · exact repeated_ok ⟨h, rfl⟩

namespace Draft.Echoes

theorem insert_functions (h : d.Echoes own outer? more d') {f f' : Function} (hf : f.Copies [] f')
    (name other : String) :
    ((d.functions.insert name f).get? other).Rel (Function.Copies [])
      ((d'.functions.insert name f').get? other) := by
  by_cases hother : other = name
  · subst hother
    rw [Dict.get?_insert_self, Dict.get?_insert_self]
    exact .some hf
  · rw [Dict.get?_insert_of_ne _ _ hother, Dict.get?_insert_of_ne _ _ hother]
    exact h.functions other

/-- A function begins with nothing before its code; the top level is set aside. -/
theorem enter (h : d.Echoes own outer? more d') {name : String} (hname : name ≠ topLevel)
    (params : List String) :
    (d.enter name params).Echoes [] (some own) more (d'.enter name params) := by
  unfold Draft.enter
  dsimp only
  rw [if_neg hname, if_neg hname]
  exact ⟨h.rest, h.named, Function.copies_new name params, h.body,
    h.insert_functions (Function.copies_new name params) name, h.natives⟩

/-- The end of a function leads back to the top level. -/
theorem leave (h : d.Echoes [] (some own) more d') : d.leave.Echoes own none more d'.leave := by
  have houter := h.outer
  cases htop : d.outer? with
  | none =>
      rw [htop] at houter
      exact houter.elim
  | some top =>
      cases htop' : d'.outer? with
      | none =>
          rw [htop, htop'] at houter
          exact houter.elim
      | some top' =>
          rw [htop, htop'] at houter
          unfold Draft.leave
          rw [htop, htop']
          dsimp only
          rw [h.body.name]
          exact ⟨h.rest, h.named, houter, trivial, h.insert_functions h.body _, h.natives⟩

end Draft.Echoes

theorem Draft.Finishes.enter (h : d.Finishes own outer? more d') {name : String}
    (hname : name ≠ topLevel)
    (params : List String) :
    (d.enter name params).Finishes [] (some own) more (d'.enter name params) := by
  refine ⟨?_, h.echoes.enter hname params⟩
  obtain hlive | hgone := h.live_or_gone
  · have hbeside : Draft.Beside more 0 (d.enter name params) _ := hlive.enter name params
    exact .inl hbeside.1
  · exact .inr ((rest_enter d name params).trans hgone)

theorem Draft.Follows.leave (h : d.Follows [] (some own) more d') :
    d.leave.Follows own none more d'.leave := by
  have hbeside : Draft.Beside more 0 d.leave _ := h.live.leave
  exact ⟨hbeside.1, h.echoes.leave⟩

theorem Draft.Follows.checkResolved (h : d.Follows own outer? more d') :
    Advances own outer? more d.checkResolved d'.checkResolved := by
  unfold Draft.checkResolved
  cases d.body.unresolved with
  | cons address rest => trivial
  | nil =>
      cases d'.body.unresolved with
      | nil => exact repeated_ok h
      | cons address rest => exact .inr (.inr ⟨_, rfl, rfl⟩)

theorem repeated_functionHeader (h : d.Follows own outer? more d') :
    Completes [] (some own) more (functionHeader d) (functionHeader d') := by
  unfold functionHeader
  dsimp only
  rw [h.text_eq]
  apply Repeated.bind (h.expect (by decide)) (fun _ _ => False.elim)
  intro d₁ d₁' hidentifier h₁
  have hname : d.peek.text ≠ topLevel := by
    obtain ⟨rest, hrest⟩ := h.live.rest_eq
    refine h.echoes.named d.peek (List.mem_append_left _ (by rw [hrest]; exact List.mem_cons_self)) ?_
    unfold Draft.expect at hidentifier
    split at hidentifier
    · rename_i hsees
      exact Draft.sees_iff.mp hsees
    · cases hidentifier
  rw [h₁.echoes.arity?_eq]
  split
  · trivial
  · apply (h₁.expect (by decide)).bind
    intro d₂ d₂' h₂
    apply (repeated_parameters h₂ []).bind
    · exact fun r _ hgone => (Draft.stops_expect_bind hgone (by decide) _).repeated _
    · rintro ⟨d₃, params⟩ ⟨d₃', params'⟩ - ⟨h₃, hparams⟩
      dsimp only at h₃ hparams ⊢
      subst hparams
      apply (h₃.expect (by decide)).bind
      intro d₄ d₄' h₄
      apply Repeated.bind h₄.expectLineEnd (fun _ _ => False.elim)
      intro d₅ d₅' _ h₅
      exact repeated_ok (h₅.enter hname params')

/-! ## Nested statements -/

/-- Every exit of a conditional is resolved. -/
theorem Draft.Follows.patchedAll (h : d.Follows own outer? more d') (addresses : List Nat) :
    Advances own outer? more (d.patchAllHere addresses)
      (d'.patchAllHere (addresses.map (· + own.length))) := by
  induction addresses generalizing d d' with
  | nil => exact repeated_ok h
  | cons address rest ih =>
      rw [List.map_cons, Draft.patchAllHere_cons, Draft.patchAllHere_cons]
      exact (h.patched rfl).bind fun d₁ d₁' h₁ => ih h₁

/-- A block within a statement. At the end of the input the statement is not complete. -/
abbrev Encloses (own : List Instruction) (outer? : Option (List Instruction)) (more : List Token)
    (r r' : Result) : Prop :=
  Repeated Gone (Follows own outer? more) r r'

/-- Both compilations write the same statements, with whatever fuel. -/
structure Repeating (more : List Token) (fuel : Nat) : Prop where
  block : ∀ {own : List Instruction} {outer? : Option (List Instruction)} (enders : List TokenKind)
    {d d' : Draft} (fuel' : Nat), d.Follows own outer? more d' →
    Encloses own outer? more (blockWith fuel enders d) (blockWith fuel' enders d')
  statement : ∀ {own : List Instruction} {outer? : Option (List Instruction)} {d d' : Draft}
    (fuel' : Nat), d.Follows own outer? more d' →
    Completes own outer? more (statement fuel d) (statement fuel' d')
  conditional : ∀ {own : List Instruction} {outer? : Option (List Instruction)} {d d' : Draft}
    (fuel' : Nat), d.Follows own outer? more d' →
    Completes own outer? more (ifStatement fuel d) (ifStatement fuel' d')
  arms : ∀ {own : List Instruction} {outer? : Option (List Instruction)} {d d' : Draft}
    (branch : Nat) (jumps : List Nat) (fuel' : Nat), d.Follows own outer? more d' →
    Repeated (fun r => Gone r.1)
      (fun r r' => r.1.Follows own outer? more r'.1 ∧ r'.2 = r.2.map (· + own.length))
      (arms fuel d branch jumps)
      (arms fuel' d' (branch + own.length) (jumps.map (· + own.length)))
  loop : ∀ {own : List Instruction} {outer? : Option (List Instruction)} {d d' : Draft}
    (fuel' : Nat), d.Follows own outer? more d' →
    Completes own outer? more (whileStatement fuel d) (whileStatement fuel' d')
  function : ∀ {own : List Instruction} {d d' : Draft} (fuel' : Nat), d.Follows own none more d' →
    Completes own none more (functionDefinition fuel d) (functionDefinition fuel' d')

namespace Repeating

variable {fuel fuel' : Nat} (repeating : Repeating more fuel)
include repeating

theorem block_step (enders : List TokenKind) (h : d.Follows own outer? more d') :
    Encloses own outer? more (blockWith (fuel + 1) enders d) (blockWith (fuel' + 1) enders d') := by
  rw [blockWith_succ, blockWith_succ, h.atEnd_eq, h.live.atEnd_eq, h.kind_eq]
  split
  · exact repeated_ok h
  · apply (repeating.statement fuel' h).bind
    · exact fun d₁ hgone => stops_blockWith hgone fuel enders
    · exact fun d₁ d₁' h₁ => repeating.block enders fuel' h₁

theorem statement_step (h : d.Follows own outer? more d') :
    Completes own outer? more (Compile.statement (fuel + 1) d) (Compile.statement (fuel' + 1) d') := by
  have hnext : d.peek.kind ≠ .lineBreak → d.next.Follows own outer? more d'.next := h.next
  unfold Compile.statement
  dsimp only
  rw [h.kind_eq]
  cases hkind : d.peek.kind
  case identifier => exact repeated_declaration h hkind
  case if_ => exact repeating.conditional fuel' (hnext (by rw [hkind]; decide))
  case while_ => exact repeating.loop fuel' (hnext (by rw [hkind]; decide))
  case func =>
    have houter := h.echoes.outer
    dsimp only
    cases outer? <;> cases hd : d.outer? <;> cases hd' : d'.outer? <;> rw [hd, hd'] at houter <;>
      first | exact houter.elim | trivial | skip
    exact repeating.function fuel' (hnext (by rw [hkind]; decide))
  case return_ => exact repeated_returnStatement h hkind
  case lineBreak => exact repeated_ok h.next_finishes
  case end_ | elif | else_ => trivial
  all_goals exact repeated_expressionStatement h

theorem loop_step (h : d.Follows own outer? more d') :
    Completes own outer? more (whileStatement (fuel + 1) d) (whileStatement (fuel' + 1) d') := by
  have hcondition := h.echoes.address_eq
  unfold whileStatement
  apply h.expression.bind
  intro d₁ d₁' h₁
  apply h₁.expectLineEnd.bind
  · intro d₂ hgone
    have hbranch : Gone (d₂.emitJump .branch) := hgone
    exact (stops_blockWith hbranch fuel _).bind (stops_loopEnd _ _)
  · intro d₂ d₂' h₂
    apply Repeated.bind (repeating.block [.end_] fuel' (h₂.emitJump .branch))
    · exact fun d₃ _ hgone => (stops_loopEnd _ _ d₃ hgone).repeated _
    · intro d₃ d₃' _ h₃
      rw [hcondition]
      apply ((h₃.emitJumpTo rfl d.address).patched h₂.echoes.address_eq).bind
      intro d₄ d₄' h₄
      apply (h₄.expect (by decide)).bind
      exact fun d₅ d₅' h₅ => h₅.expectLineEnd

theorem function_step (h : d.Follows own none more d') :
    Completes own none more (functionDefinition (fuel + 1) d)
      (functionDefinition (fuel' + 1) d') := by
  unfold functionDefinition
  apply (repeated_functionHeader h).bind
  · exact fun d₁ hgone => (stops_blockWith hgone fuel _).bind stops_functionEnd
  · intro d₁ d₁' h₁
    apply Repeated.bind (repeating.block [.end_] fuel' h₁)
    · exact fun d₂ _ hgone => (stops_functionEnd d₂ hgone).repeated _
    · intro d₂ d₂' _ h₂
      apply (((h₂.emitValue .null).emit rfl).expect (by decide)).bind
      intro d₃ d₃' h₃
      apply h₃.checkResolved.bind
      exact fun d₄ d₄' h₄ => h₄.leave.expectLineEnd

theorem arms_step (branch : Nat) (jumps : List Nat) (h : d.Follows own outer? more d') :
    Repeated (fun r => Gone r.1)
      (fun r r' => r.1.Follows own outer? more r'.1 ∧ r'.2 = r.2.map (· + own.length))
      (Compile.arms (fuel + 1) d branch jumps)
      (Compile.arms (fuel' + 1) d' (branch + own.length) (jumps.map (· + own.length))) := by
  unfold Compile.arms
  apply Repeated.bind (repeating.block [.end_, .elif, .else_] fuel' h)
  · intro d₁ _ hgone
    have hjump : Gone (d₁.emitJump .jump) := hgone
    refine Stops.repeated ((Draft.stops_patchHere hjump branch).bind fun d₂ h₂ => ?_) _
    rw [Draft.sees_eq_false h₂ (by decide)]
    exact h₂
  · intro d₁ d₁' _ h₁
    have hjumps : jumps.map (· + own.length) ++ [d₁'.address] =
        (jumps ++ [d₁.address]).map (· + own.length) := by
      rw [List.map_append, h₁.echoes.address_eq]
      rfl
    dsimp only
    rw [hjumps]
    apply ((h₁.emitJump .jump).patched rfl).bind
    intro d₂ d₂' h₂
    rw [h₂.sees_eq]
    split
    · rename_i hsees
      have h₃ := h₂.next (by rw [Draft.sees_iff.mp hsees]; decide)
      apply h₃.expression.bind
      intro d₄ d₄' h₄
      rw [h₄.echoes.address_eq]
      apply (h₄.emitJump .branch).expectLineEnd.bind
      · exact fun d₅ hgone => stops_arms hgone fuel _ _
      · exact fun d₅ d₅' h₅ => repeating.arms _ _ fuel' h₅
    · exact repeated_ok ⟨h₂, rfl⟩

theorem elseBlock_step (h : d.Follows own outer? more d') :
    Encloses own outer? more (elseBlock fuel d) (elseBlock fuel' d') := by
  unfold elseBlock
  rw [h.sees_eq]
  split
  · rename_i hsees
    have hnext := h.next (by rw [Draft.sees_iff.mp hsees]; decide)
    apply hnext.expectLineEnd.bind
    · exact fun d₁ hgone => stops_blockWith hgone fuel _
    · exact fun d₁ d₁' h₁ => repeating.block [.end_] fuel' h₁
  · exact repeated_ok h

theorem conditional_step (h : d.Follows own outer? more d') :
    Completes own outer? more (ifStatement (fuel + 1) d) (ifStatement (fuel' + 1) d') := by
  rw [ifStatement_succ, ifStatement_succ]
  apply h.expression.bind
  intro d₁ d₁' h₁
  have hbranch := h₁.emitJump .branch
  rw [hbranch.sees_eq]
  split
  · rename_i hsees
    have h₂ := hbranch.next (by rw [Draft.sees_iff.mp hsees]; decide)
    apply Repeated.bind (repeated_inlineStatement h₂) (fun _ _ => False.elim)
    intro d₃ d₃' _ h₃
    exact h₃.patched h₁.echoes.address_eq
  · apply hbranch.expectLineEnd.bind
    · intro d₂ hgone
      apply (stops_arms hgone fuel _ _).bind
      intro r hgone
      exact (stops_elseBlock hgone fuel).bind (stops_conditionalEnd r.2)
    · intro d₂ d₂' h₂
      rw [h₁.echoes.address_eq]
      apply Repeated.bind (repeating.arms d₁.address [] fuel' h₂)
      · intro r _ hgone
        exact ((stops_elseBlock hgone fuel).bind (stops_conditionalEnd r.2)).repeated _
      · rintro ⟨d₃, jumps⟩ ⟨d₃', jumps'⟩ - ⟨h₃, hjumps⟩
        dsimp only at h₃ hjumps ⊢
        subst hjumps
        apply Repeated.bind (repeating.elseBlock_step h₃)
        · exact fun d₄ _ hgone => (stops_conditionalEnd jumps d₄ hgone).repeated _
        · intro d₄ d₄' _ h₄
          apply (h₄.expect (by decide)).bind
          intro d₅ d₅' h₅
          apply (h₅.patchedAll jumps).bind
          exact fun d₆ d₆' h₆ => h₆.expectLineEnd

end Repeating

theorem repeating (more : List Token) (fuel : Nat) : Repeating more fuel := by
  induction fuel with
  | zero => constructor <;> intros <;> trivial
  | succ fuel ih =>
      -- Without fuel the second compilation raises an error that no script causes.
      have hexhausted : ∀ {α : Type} {gone : α → Prop} {same : α → α → Prop}
          (r : Except CompileError α) (d : Draft), Repeated gone same r (.error (exhausted d)) := by
        intro α gone same r d
        cases r with
        | error e => trivial
        | ok a => exact .inr (.inr ⟨_, rfl, rfl⟩)
      refine ⟨?_, ?_, ?_, ?_, ?_, ?_⟩
      · intro own outer? enders d d' fuel' h
        cases fuel' with
        | zero => exact hexhausted _ d'
        | succ fuel' => exact ih.block_step enders h
      · intro own outer? d d' fuel' h
        cases fuel' with
        | zero => exact hexhausted _ d'
        | succ fuel' => exact ih.statement_step h
      · intro own outer? d d' fuel' h
        cases fuel' with
        | zero => exact hexhausted _ d'
        | succ fuel' => exact ih.conditional_step h
      · intro own outer? d d' branch jumps fuel' h
        cases fuel' with
        | zero => exact hexhausted _ d'
        | succ fuel' => exact ih.arms_step branch jumps h
      · intro own outer? d d' fuel' h
        cases fuel' with
        | zero => exact hexhausted _ d'
        | succ fuel' => exact ih.loop_step h
      · intro own d d' fuel' h
        cases fuel' with
        | zero => exact hexhausted _ d'
        | succ fuel' => exact ih.function_step h

/-! ## Whole scripts -/

/-- A script is compiled to its end; there the second compilation goes on with what it has
more. -/
theorem repeated_block {fuel : Nat} (h : d.Finishes own outer? more d') {a : Draft}
    (ha : blockWith fuel [] d = .ok a) (fuel' : Nat) :
    (∃ fuel'' a', blockWith fuel' [] d' = blockWith fuel'' [] a' ∧ a.Echoes own outer? more a') ∨
      ∃ e, blockWith fuel' [] d' = .error e ∧ e.kind = .internalError := by
  induction fuel generalizing d d' fuel' with
  | zero => cases ha
  | succ fuel ih =>
      cases fuel' with
      | zero => exact .inr ⟨_, rfl, rfl⟩
      | succ fuel' =>
          obtain hlive | hgone := h.live_or_gone
          · have hfollows : d.Follows own outer? more d' := ⟨hlive, h.echoes⟩
            rw [blockWith_succ, hlive.atEnd_eq, if_neg (by simp)] at ha
            rw [blockWith_succ, hfollows.atEnd_eq, if_neg (by simp)]
            cases hstatement : statement fuel d with
            | error e =>
                rw [hstatement] at ha
                cases ha
            | ok d₁ =>
                rw [hstatement] at ha
                obtain ⟨d₁', hd₁', h₁⟩ | ⟨e, he, hinternal⟩ :=
                  ((repeating more fuel).statement fuel' hfollows).of_ok hstatement
                · rw [hd₁']
                  exact ih h₁ ha fuel'
                · rw [he]
                  exact .inr ⟨e, rfl, hinternal⟩
          · have hend : d.atEnd = true := decide_eq_true (Draft.peek_of_rest_eq_nil hgone)
            rw [blockWith_succ, hend] at ha
            cases ha
            exact .inl ⟨fuel' + 1, d', rfl, h.echoes⟩

end LineScript.Compile
