/-
# Expressions read as trees

Whenever the precedence grammar accepts an expression, there is a tree whose words
are the ones consumed and whose code is what was appended; and whenever it refuses
one, the error is the script's own fault. The left operand of an operator and the
value before a subscript are read before it is known what they belong to, so the
lemmas about what may follow a value take the tree read so far along.
-/

import LineScript.Proofs.Emission
import LineScript.Proofs.Precedence

namespace LineScript.Compile.Precedence

open LineScript.Code LineScript.Tree

/-- Between two drafts, a well-scoped expression was read and its code appended. -/
structure Reads (d : Draft) (e : Expr) (d' : Draft) : Prop where
  moves : d.Moves e.words (e.code d.address) d'
  inScope : e.Scoped d.scope

/-- A result that is the draft after some expression. -/
def Readable (d : Draft) (r : Result) : Prop := Sound (fun d' => ∃ e, Reads d e d') r

/-! ## Pieces -/

theorem moves_concluding (enclosed : Bool) (d : Draft) :
    d.Moves [] [] (concluding enclosed d) := by
  unfold concluding
  split
  · exact ⟨⟨[], rfl, rfl⟩, (List.append_nil _).symm, rfl⟩
  · exact .refl d

theorem moves_begin (o : BinaryOp) (d : Draft) :
    d.Moves [] (skipCode o unresolvedTarget) (begin o d) := by
  unfold begin skipCode
  cases o.skip? with
  | none => exact .refl d
  | some skip => exact d.moves_emitJump skip

theorem moves_apply (o : UnaryOp) (d : Draft) : d.Moves [] (unaryCode o) (apply o d) := by
  unfold apply unaryCode
  cases o.opcode? with
  | none => exact .refl d
  | some op => exact d.moves_emit op

theorem moves_binary {d : Draft} {o : BinaryOp} (h : BinaryOp.ofKind? d.peek.kind = some o) :
    d.Moves [.symbol o.kind] [] d.next :=
  Draft.moves_symbol (BinaryOp.kind_of_ofKind? h).symm (by cases o <;> rfl)

theorem moves_unary {d : Draft} {o : UnaryOp} (h : UnaryOp.ofKind? d.peek.kind = some o) :
    d.Moves [.symbol o.kind] [] d.next :=
  Draft.moves_symbol (UnaryOp.kind_of_ofKind? h).symm (by cases o <;> rfl)

theorem isJump_of_skip? {o : BinaryOp} {skip : Opcode} (h : o.skip? = some skip) :
    skip.isJump = true := by
  cases o <;> cases h <;> rfl

/-- Emitting a binary operator completes the tree of its two operands. -/
theorem sound_combine {d d₁ d₂ : Draft} {o : BinaryOp} {left right : Expr} (enclosed : Bool)
    (hleft : Reads d left d₁) (hbinary : BinaryOp.ofKind? d₁.peek.kind = some o)
    (hright : Reads (begin o d₁.next) right d₂) :
    Sound (Reads d (.binary o left right)) (combine o d₁.next.address (concluding enclosed d₂)) := by
  have hbegin := (moves_binary hbinary).trans (moves_begin o d₁.next)
  have hmoves := (((hleft.moves.trans hbegin).trans hright.moves).trans
    (moves_concluding enclosed d₂)).trans (Draft.moves_emit _ o.opcode)
  have haddress₁ : d₁.next.address = d.address + left.size := by
    rw [(hleft.moves.trans (moves_binary hbinary)).address_eq]
    simp
  have haddress₂ : (begin o d₁.next).address = d.address + left.size + skipSize o := by
    rw [(moves_begin o d₁.next).address_eq, haddress₁, length_skipCode]
  have haddress := hmoves.address_eq
  have hscoped : (Expr.binary o left right).Scoped d.scope := by
    refine ⟨hleft.inScope, ?_⟩
    rw [← (hleft.moves.trans hbegin).scope_eq]
    exact hright.inScope
  unfold combine
  cases hskip : o.skip? with
  | none =>
      have hnone : ∀ target, skipCode o target = [] := fun target => by rw [skipCode, hskip]
      refine ⟨?_, hscoped⟩
      rw [haddress₂] at hmoves
      simpa [Expr.words, Expr.code, hnone] using hmoves
  | some skip =>
      have hsome : ∀ target, skipCode o target = [jumpTo skip target] := fun target => by
        rw [skipCode, hskip]
      have hpatch := Draft.Moves.sound_patchHere (d := d) skip d₁.next.address
        (left.code d.address)
        (right.code (d.address + left.size + skipSize o) ++ [plain o.opcode])
        (by rw [haddress₂] at hmoves; simpa [hsome] using hmoves)
        (isJump_of_skip? hskip) (by rw [haddress₁, left.length_code])
      refine hpatch.mono fun d₃ hmoves₃ => ⟨?_, hscoped⟩
      have htarget : ((concluding enclosed d₂).emit o.opcode).address =
          d.address + left.size + skipSize o + right.size + 1 := by
        rw [haddress]
        simp
        omega
      rw [htarget] at hmoves₃
      simpa [Expr.words, Expr.code, hsome] using hmoves₃

theorem Reads.unary {d d₁ : Draft} {o : UnaryOp} {e : Expr} (enclosed : Bool)
    (hunary : UnaryOp.ofKind? d.peek.kind = some o) (h : Reads d.next e d₁) :
    Reads d (.unary o e) (apply o (concluding enclosed d₁)) := by
  have hnext := moves_unary hunary
  have hmoves := ((hnext.trans h.moves).trans (moves_concluding enclosed d₁)).trans
    (moves_apply o (concluding enclosed d₁))
  refine ⟨?_, ?_⟩
  · rw [hnext.address_eq] at hmoves
    simpa [Expr.words, Expr.code] using hmoves
  · rw [Expr.Scoped, ← hnext.scope_eq]
    exact h.inScope

theorem Reads.index {d d₁ d₂ d₃ : Draft} {container position : Expr}
    (hcontainer : Reads d container d₁) (hkind : d₁.peek.kind = .leftBracket)
    (hposition : Reads d₁.next.skipLineBreaks position d₂)
    (hclose : d₂.skipLineBreaks.Moves [.symbol .rightBracket] [] d₃) :
    Reads d (.index container position) (d₃.emit .index) := by
  have hopen := (hcontainer.moves.trans (Draft.moves_symbol hkind rfl)).trans
    d₁.next.moves_skipLineBreaks
  have hmoves := (((hopen.trans hposition.moves).trans d₂.moves_skipLineBreaks).trans hclose).trans
    (d₃.moves_emit .index)
  refine ⟨?_, hcontainer.inScope, ?_⟩
  · rw [hopen.address_eq] at hmoves
    simpa [Expr.words, Expr.code] using hmoves
  · rw [← hopen.scope_eq]
    exact hposition.inScope

theorem Reads.member {d d₁ : Draft} {object : Expr} (hobject : Reads d object d₁)
    (hkind : d₁.peek.kind = .dot) (hname : d₁.next.peek.kind = .identifier) :
    Reads d (.member object d₁.next.peek.text)
      (d₁.next.next.emitName .get d₁.next.peek.text) := by
  have hmoves := ((hobject.moves.trans (Draft.moves_symbol hkind rfl)).trans
    (Draft.moves_name hname)).trans
      (d₁.next.next.moves_emitName .get d₁.next.peek.text)
  refine ⟨?_, hobject.inScope⟩
  simpa [Expr.words, Expr.code] using hmoves

theorem Reads.constant {d : Draft} (hreal : d.peek.kind ≠ .endOfInput)
    (hword : Word.ofToken? d.peek = some (.literal d.peek.value)) :
    Reads d (.literal d.peek.value) (d.next.emitValue d.peek.value) := by
  have hnext := Draft.moves_next hreal
  rw [hword] at hnext
  exact ⟨hnext.trans (d.next.moves_emitValue _), trivial⟩

theorem Reads.null {d : Draft} (hkind : d.peek.kind = .null) :
    Reads d .null (d.next.emitValue .null) :=
  ⟨(Draft.moves_symbol hkind rfl).trans (d.next.moves_emitValue _), trivial⟩

theorem Reads.name {d : Draft} (hkind : d.peek.kind = .identifier)
    (hsees : d.sees? d.peek.text = true) :
    Reads d (.name d.peek.text) (d.next.emitName .load d.peek.text) := by
  refine ⟨(Draft.moves_name hkind).trans (d.next.moves_emitName _ _), ?_⟩
  rw [Expr.Scoped, ← Draft.sees?_eq_scope]
  exact hsees

/-- Parentheses leave no trace. -/
theorem Reads.enclosed {d d₁ : Draft} {e : Expr} (hopen : d.peek.kind = .leftParen)
    (he : Reads d.next e d₁) (hclose : d₁.peek.kind = .rightParen) : Reads d e d₁.next := by
  have hnext := Draft.moves_silent hopen rfl
  refine ⟨?_, ?_⟩
  · have hall := (hnext.trans he.moves).trans (Draft.moves_silent hclose rfl)
    rw [hnext.address_eq] at hall
    simpa using hall
  · rw [← hnext.scope_eq]
    exact he.inScope

/-! ## Rows -/

/-- Between two drafts, well-scoped arguments were read. -/
structure ReadsArguments (d : Draft) (es : Exprs) (d' : Draft) : Prop where
  moves : d.Moves es.words (es.code d.address) d'
  inScope : es.Scoped d.scope

/-- Between two drafts, well-scoped elements of a list were read. -/
structure ReadsElements (d : Draft) (es : Exprs) (d' : Draft) : Prop where
  moves : d.Moves es.words (es.appendCode d.address) d'
  inScope : es.Scoped d.scope

/-- Between two drafts, well-scoped members of an object were read. -/
structure ReadsMembers (d : Draft) (ms : Members) (d' : Draft) : Prop where
  moves : d.Moves ms.words (ms.code d.address) d'
  inScope : ms.Scoped d.scope

theorem ReadsArguments.nil (d : Draft) : ReadsArguments d .nil d := ⟨.refl d, trivial⟩

theorem ReadsElements.nil (d : Draft) : ReadsElements d .nil d := ⟨.refl d, trivial⟩

theorem ReadsMembers.nil (d : Draft) : ReadsMembers d .nil d := ⟨.refl d, trivial⟩

theorem Reads.argument {d d₁ d₂ d₃ : Draft} {e : Expr} {es : Exprs} (he : Reads d e d₁)
    (hcomma : d₁.Moves [] [] d₂) (hes : ReadsArguments d₂ es d₃) :
    ReadsArguments d (.cons e es) d₃ := by
  have hopen := he.moves.trans hcomma
  refine ⟨?_, he.inScope, ?_⟩
  · have hall := hopen.trans hes.moves
    rw [hopen.address_eq] at hall
    simpa [Exprs.words, Exprs.code] using hall
  · rw [← hopen.scope_eq]
    exact hes.inScope

theorem Reads.element {d d₁ d₂ d₃ : Draft} {e : Expr} {es : Exprs} (he : Reads d e d₁)
    (hcomma : (d₁.emit .append).Moves [] [] d₂) (hes : ReadsElements d₂ es d₃) :
    ReadsElements d (.cons e es) d₃ := by
  have hopen := (he.moves.trans (d₁.moves_emit .append)).trans hcomma
  refine ⟨?_, he.inScope, ?_⟩
  · have hall := hopen.trans hes.moves
    rw [hopen.address_eq] at hall
    simpa [Exprs.words, Exprs.appendCode, Nat.add_assoc] using hall
  · rw [← hopen.scope_eq]
    exact hes.inScope

theorem Reads.memberValue {d d₂ d₃ d₄ d₅ : Draft} {e : Expr} {ms : Members}
    (hname : d.peek.kind = .identifier) (hequal : d.next.Moves [.symbol .equal] [] d₂)
    (he : Reads d₂.skipLineBreaks e d₃)
    (hcomma : (d₃.emitName .set d.peek.text).Moves [] [] d₄) (hms : ReadsMembers d₄ ms d₅) :
    ReadsMembers d (.cons d.peek.text e ms) d₅ := by
  have hopen := ((Draft.moves_name hname).trans hequal).trans d₂.moves_skipLineBreaks
  have hitem := ((hopen.trans he.moves).trans (d₃.moves_emitName .set d.peek.text)).trans hcomma
  rw [hopen.address_eq] at hitem
  refine ⟨?_, hopen.scope_eq ▸ he.inScope, ?_⟩
  · have hall := hitem.trans hms.moves
    rw [hitem.address_eq] at hall
    simpa [Members.words, Members.code, Nat.add_assoc] using hall
  · rw [← hitem.scope_eq]
    exact hms.inScope

theorem Reads.call {d d₁ d₂ : Draft} {es : Exprs} (hkind : d.peek.kind = .identifier)
    (hparen : d.next.peek.kind = .leftParen) (harity : d.scope.arity d.peek.text = some es.count)
    (hes : ReadsArguments d.next.next.skipLineBreaks es d₁)
    (hclose : d₁.skipLineBreaks.Moves [] [] d₂) :
    Reads d (.call d.peek.text es) (d₂.emitName .call d.peek.text) := by
  have hopen := ((Draft.moves_name hkind).trans (Draft.moves_silent hparen rfl)).trans
    d.next.next.moves_skipLineBreaks
  refine ⟨?_, harity, ?_⟩
  · have hall := (((hopen.trans hes.moves).trans d₁.moves_skipLineBreaks).trans hclose).trans
      (d₂.moves_emitName .call d.peek.text)
    rw [hopen.address_eq] at hall
    simpa [Expr.words, Expr.code] using hall
  · rw [← hopen.scope_eq]
    exact hes.inScope

theorem Reads.list {d d₁ d₂ : Draft} {es : Exprs} (hkind : d.peek.kind = .leftBracket)
    (hes : ReadsElements (d.next.skipLineBreaks.emit .list) es d₁)
    (hclose : d₁.skipLineBreaks.Moves [.symbol .rightBracket] [] d₂) :
    Reads d (.list es) d₂ := by
  have hopen := ((Draft.moves_symbol hkind rfl).trans d.next.moves_skipLineBreaks).trans
    (d.next.skipLineBreaks.moves_emit .list)
  refine ⟨?_, ?_⟩
  · have hall := ((hopen.trans hes.moves).trans d₁.moves_skipLineBreaks).trans hclose
    rw [hopen.address_eq] at hall
    simpa [Expr.words, Expr.code] using hall
  · rw [Expr.Scoped, ← hopen.scope_eq]
    exact hes.inScope

theorem Reads.object {d d₁ d₂ : Draft} {ms : Members} (hkind : d.peek.kind = .leftBrace)
    (hms : ReadsMembers (d.next.skipLineBreaks.emit .object) ms d₁)
    (hclose : d₁.skipLineBreaks.Moves [.symbol .rightBrace] [] d₂) :
    Reads d (.object ms) d₂ := by
  have hopen := ((Draft.moves_symbol hkind rfl).trans d.next.moves_skipLineBreaks).trans
    (d.next.skipLineBreaks.moves_emit .object)
  refine ⟨?_, ?_⟩
  · have hall := ((hopen.trans hms.moves).trans d₁.moves_skipLineBreaks).trans hclose
    rw [hopen.address_eq] at hall
    simpa [Expr.words, Expr.code] using hall
  · rw [Expr.Scoped, ← hopen.scope_eq]
    exact hms.inScope

/-! ## One token more -/

/-- Everything the grammar reads is a tree, as long as fewer than `bound` tokens are
left. -/
structure Reading (bound : Nat) : Prop where
  climb : ∀ (level : Nat) (enclosed fresh : Bool) (d : Draft), d.rest.length < bound →
    Readable d (climb level enclosed fresh d)
  operators : ∀ (level : Nat) (enclosed : Bool) {d₀ d : Draft} {e : Expr},
    d.rest.length < bound → Reads d₀ e d → Readable d₀ (operators level enclosed d)
  suffixes : ∀ {d₀ d : Draft} {e : Expr}, d.rest.length < bound → Reads d₀ e d →
    Readable d₀ (suffixes d)
  arguments : ∀ (d : Draft) (count : Nat), d.rest.length < bound →
    Sound (fun r => ∃ es : Exprs, r.2 = count + es.count ∧ ReadsArguments d es r.1)
      (arguments d count)
  elements : ∀ (d : Draft), d.rest.length < bound →
    Sound (fun d' => ∃ es, ReadsElements d es d') (elements d)
  members : ∀ (d : Draft), d.rest.length < bound →
    Sound (fun d' => ∃ ms, ReadsMembers d ms d') (members d)

theorem kind_valueAfterValue (t : Token) : (valueAfterValue t).kind ≠ .internalError := by
  unfold valueAfterValue
  split <;> simp [CompileError.kind, CompileError.at_, CompileCause.kind]

theorem kind_missing (fresh : Bool) (t : Token) : (missing fresh t).kind ≠ .internalError := by
  unfold missing
  split <;> simp [CompileError.kind, CompileError.at_, CompileCause.kind]

namespace Reading

variable {bound : Nat} (reading : Reading bound)
include reading

theorem expression (d : Draft) (h : d.rest.length < bound) :
    Readable d (Precedence.expression d) :=
  reading.climb 0 false true d h

theorem operators_step (level : Nat) (enclosed : Bool) {d₀ d : Draft} {e : Expr}
    (hbound : d.rest.length < bound + 1) (h : Reads d₀ e d) :
    Readable d₀ (Precedence.operators level enclosed d) := by
  rw [operators_eq]
  split
  · exact kind_valueAfterValue d.peek
  · split
    · exact ⟨e, h⟩
    · rename_i o ho
      split
      · exact ⟨e, h⟩
      · have hnext : d.next.rest.length < d.rest.length :=
          Draft.length_next_lt fun hend => by rw [hend] at ho; cases ho
        apply (reading.climb (o.level + 1) enclosed false (begin o d.next)
          (by rw [rest_begin]; omega)).bind
        rintro d₁ hclimb ⟨right, hright⟩
        have hlt := length_climb_lt hclimb
        rw [rest_begin] at hlt
        apply (sound_combine enclosed h ho hright).bind
        intro d₂ hcombine h₂
        have hrest := rest_of_combine hcombine
        rw [rest_concluding] at hrest
        exact reading.operators level enclosed (by rw [hrest]; omega) h₂

theorem suffixes_step {d₀ d : Draft} {e : Expr} (hbound : d.rest.length < bound + 1)
    (h : Reads d₀ e d) : Readable d₀ (Precedence.suffixes d) := by
  rw [suffixes_eq]
  split
  · rename_i hkind
    have hnext := Draft.length_next_lt (d := d) (by rw [hkind]; decide)
    have hskip := d.next.length_skipLineBreaks_le
    apply (reading.expression d.next.skipLineBreaks (by omega)).bind
    rintro d₁ hexpression ⟨position, hposition⟩
    have hlt := length_climb_lt hexpression
    have hskip₁ := d₁.length_skipLineBreaks_le
    apply (d₁.skipLineBreaks.sound_expectSymbol .rightBracket rfl).bind
    intro d₂ hexpect hclose
    have hlt₂ := length_expect_lt (by decide) hexpect
    exact reading.suffixes (by rw [Draft.rest_emit]; omega) (h.index hkind hposition hclose)
  · rename_i hkind
    have hnext := Draft.length_next_lt (d := d) (by rw [hkind]; decide)
    apply (d.next.sound_expectText .identifier).bind
    rintro ⟨member, d₁⟩ - ⟨hname, heq⟩
    cases heq
    have hlt := d.next.length_next_le
    exact reading.suffixes (by rw [Draft.rest_emitName]; omega) (h.member hkind hname)
  · exact ⟨e, h⟩

theorem call_step {d : Draft} (hbound : d.rest.length < bound + 1)
    (hkind : d.peek.kind = .identifier) (hparen : d.next.peek.kind = .leftParen) :
    Readable d (Precedence.call d.peek d.next) := by
  have hnext := Draft.length_next_lt (d := d) (by rw [hkind]; decide)
  have hnext₁ := Draft.length_next_lt (d := d.next) (by rw [hparen]; decide)
  have hskip := d.next.next.length_skipLineBreaks_le
  have hscope : d.next.scope = d.scope := Draft.scope_eq_of_frame d.frame_next
  rw [call_eq]
  split
  · exact sound_at _ _ (by simp [CompileCause.kind]) _
  · rename_i arity harity
    have hgiven : Sound (fun r => ∃ es : Exprs, r.2 = es.count ∧
        ReadsArguments d.next.next.skipLineBreaks es r.1)
        (if d.next.next.skipLineBreaks.sees .rightParen then
          .ok (d.next.next.skipLineBreaks, 0)
        else Precedence.arguments d.next.next.skipLineBreaks 0) := by
      split
      · exact ⟨.nil, rfl, .nil _⟩
      · refine (reading.arguments d.next.next.skipLineBreaks 0 (by omega)).mono ?_
        rintro r ⟨es, hcount, hes⟩
        exact ⟨es, by omega, hes⟩
    apply hgiven.bind
    rintro ⟨d₁, count⟩ - ⟨es, hcount, hes⟩
    dsimp only at hcount hes ⊢
    apply (d₁.skipLineBreaks.sound_expectSilent .rightParen rfl).bind
    rintro d₂ - hclose
    split
    · rename_i hsame
      refine ⟨.call d.peek.text es, .call hkind hparen ?_ hes hclose⟩
      rw [← hcount, hsame, ← harity, ← hscope]
      rfl
    · exact sound_at _ _ (by simp [CompileCause.kind]) _

theorem primary_step (fresh : Bool) {d : Draft} (hbound : d.rest.length < bound + 1) :
    Readable d (Precedence.primary fresh d) := by
  rw [primary_eq]
  have hconstant : ∀ kind, d.peek.kind = kind → Word.ofToken? d.peek = some (.literal d.peek.value) →
      kind ≠ .endOfInput → Readable d (.ok (d.next.emitValue d.peek.value)) :=
    fun _ hkind hword hreal => ⟨_, .constant (hkind ▸ hreal) hword⟩
  split
  · rename_i hkind
    exact hconstant _ hkind (by unfold Word.ofToken?; rw [hkind]) (by decide)
  · rename_i hkind
    exact hconstant _ hkind (by unfold Word.ofToken?; rw [hkind]) (by decide)
  · rename_i hkind
    exact hconstant _ hkind (by unfold Word.ofToken?; rw [hkind]) (by decide)
  · exact ⟨.null, .null ‹_›⟩
  · rename_i hkind
    split
    · rename_i hparen
      exact reading.call_step hbound hkind (by rw [Draft.peek_next]; exact hparen)
    · split
      · exact ⟨.name d.peek.text, .name hkind ‹_›⟩
      · exact sound_at _ _ (by simp [CompileCause.kind]) _
  · rename_i hkind
    have hnext := Draft.length_next_lt (d := d) (by rw [hkind]; decide)
    apply (reading.climb 0 true false d.next (by omega)).bind
    rintro d₁ - ⟨e, he⟩
    unfold close
    split
    · rename_i hsees
      exact ⟨e, .enclosed hkind he (Draft.sees_iff.mp hsees)⟩
    · exact sound_at d₁.peek (.unclosedParen d₁.peek.shown) (by simp [CompileCause.kind]) _
  · rename_i hkind
    split
    · have hnext := Draft.length_next_lt (d := d) (by rw [hkind]; decide)
      have hskip := d.next.length_skipLineBreaks_le
      apply (reading.elements (d.next.skipLineBreaks.emit .list)
        (by rw [Draft.rest_emit]; omega)).bind
      rintro d₁ - ⟨es, hes⟩
      refine (d₁.skipLineBreaks.sound_expectSymbol .rightBracket rfl).mono ?_
      intro d₂ hclose
      exact ⟨.list es, .list hkind hes hclose⟩
    · exact sound_at _ _ (by decide) _
  · rename_i hkind
    have hnext := Draft.length_next_lt (d := d) (by rw [hkind]; decide)
    have hskip := d.next.length_skipLineBreaks_le
    apply (reading.members (d.next.skipLineBreaks.emit .object)
      (by rw [Draft.rest_emit]; omega)).bind
    rintro d₁ - ⟨ms, hms⟩
    refine (d₁.skipLineBreaks.sound_expectSymbol .rightBrace rfl).mono ?_
    intro d₂ hclose
    exact ⟨.object ms, .object hkind hms hclose⟩
  · exact sound_at _ _ (by simp [CompileCause.kind]) _
  · exact sound_at _ _ (by simp [CompileCause.kind]) _
  · exact kind_missing fresh d.peek

theorem operand_step (enclosed fresh : Bool) {d : Draft} (hbound : d.rest.length < bound + 1) :
    Readable d (Precedence.operand enclosed fresh d) := by
  rw [operand_eq]
  split
  · rename_i o ho
    have hnext : d.next.rest.length < d.rest.length :=
      Draft.length_next_lt fun hend => by rw [hend] at ho; cases ho
    apply (reading.climb o.level enclosed false d.next (by omega)).bind
    rintro d₁ - ⟨e, he⟩
    exact ⟨.unary o e, he.unary enclosed ho⟩
  · apply (reading.primary_step fresh hbound).bind
    rintro d₁ hprimary ⟨e, he⟩
    have hlt := length_primary_lt hprimary
    exact reading.suffixes (by omega) he

theorem climb_step (level : Nat) (enclosed fresh : Bool) {d : Draft}
    (hbound : d.rest.length < bound + 1) :
    Readable d (Precedence.climb level enclosed fresh d) := by
  rw [climb_eq]
  apply (reading.operand_step enclosed fresh hbound).bind
  rintro d₁ hoperand ⟨e, he⟩
  have hlt := length_operand_lt hoperand
  exact reading.operators level enclosed (by omega) he

theorem arguments_step {d : Draft} (count : Nat) (hbound : d.rest.length < bound + 1) :
    Sound (fun r => ∃ es : Exprs, r.2 = count + es.count ∧ ReadsArguments d es r.1)
      (Precedence.arguments d count) := by
  rw [arguments_eq]
  apply (reading.climb_step 0 false true hbound).bind
  rintro d₁ hexpression ⟨e, he⟩
  have hlt := length_climb_lt hexpression
  split
  · rename_i hsees
    have hcomma := (Draft.moves_silent (Draft.sees_iff.mp hsees) rfl).trans
      d₁.next.moves_skipLineBreaks
    have hnext := d₁.length_next_le
    have hskip := d₁.next.length_skipLineBreaks_le
    refine (reading.arguments d₁.next.skipLineBreaks (count + 1) (by omega)).mono ?_
    rintro r ⟨es, hcount, hes⟩
    refine ⟨.cons e es, ?_, he.argument hcomma hes⟩
    rw [hcount, Exprs.count]
    omega
  · exact ⟨.cons e .nil, rfl, he.argument (.refl d₁) (.nil d₁)⟩

theorem elements_step {d : Draft} (hbound : d.rest.length < bound + 1) :
    Sound (fun d' => ∃ es, ReadsElements d es d') (Precedence.elements d) := by
  rw [elements_eq]
  split
  · exact ⟨.nil, .nil d⟩
  · apply (reading.climb_step 0 false true hbound).bind
    rintro d₁ hexpression ⟨e, he⟩
    have hlt := length_climb_lt hexpression
    split
    · rename_i hsees
      have hcomma := (Draft.moves_silent (Draft.sees_iff.mp hsees) rfl).trans
        (d₁.emit .append).next.moves_skipLineBreaks
      have hnext : (d₁.emit .append).next.rest.length ≤ d₁.rest.length := Draft.length_next_le _
      have hskip := (d₁.emit .append).next.length_skipLineBreaks_le
      refine (reading.elements (d₁.emit .append).next.skipLineBreaks (by omega)).mono ?_
      rintro d₂ ⟨es, hes⟩
      exact ⟨.cons e es, he.element hcomma hes⟩
    · exact ⟨.cons e .nil, he.element (.refl _) (.nil _)⟩

theorem members_step {d : Draft} (hbound : d.rest.length < bound + 1) :
    Sound (fun d' => ∃ ms, ReadsMembers d ms d') (Precedence.members d) := by
  rw [members_eq]
  split
  · exact ⟨.nil, .nil d⟩
  · apply (d.sound_expectText .identifier).bind
    rintro ⟨member, d₁⟩ htext ⟨hname, heq⟩
    cases heq
    have hlt := length_expectText_lt (by decide) htext
    dsimp only at hlt ⊢
    apply (d.next.sound_expectSymbol .equal rfl).bind
    intro d₂ hexpect hequal
    have hlt₂ := length_expect_lt (by decide) hexpect
    have hskip := d₂.length_skipLineBreaks_le
    apply (reading.expression d₂.skipLineBreaks (by omega)).bind
    rintro d₃ hexpression ⟨e, he⟩
    have hlt₃ := length_climb_lt hexpression
    split
    · rename_i hsees
      have hcomma := (Draft.moves_silent (Draft.sees_iff.mp hsees) rfl).trans
        (d₃.emitName .set d.peek.text).next.moves_skipLineBreaks
      have hnext : (d₃.emitName .set d.peek.text).next.rest.length ≤ d₃.rest.length :=
        Draft.length_next_le _
      have hskip := (d₃.emitName .set d.peek.text).next.length_skipLineBreaks_le
      refine (reading.members (d₃.emitName .set d.peek.text).next.skipLineBreaks (by omega)).mono ?_
      rintro d₄ ⟨ms, hms⟩
      exact ⟨.cons d.peek.text e ms, Reads.memberValue hname hequal he hcomma hms⟩
    · exact ⟨.cons d.peek.text e .nil, Reads.memberValue hname hequal he (.refl _) (.nil _)⟩

end Reading

theorem reading (bound : Nat) : Reading bound := by
  induction bound with
  | zero => constructor <;> intros <;> omega
  | succ bound ih =>
      exact {
        climb := fun level enclosed fresh _ h => ih.climb_step level enclosed fresh h
        operators := fun level enclosed _ _ _ h => ih.operators_step level enclosed h
        suffixes := fun h => ih.suffixes_step h
        arguments := fun _ count h => ih.arguments_step count h
        elements := fun _ h => ih.elements_step h
        members := fun _ h => ih.members_step h }

/-- Every expression that is accepted is a tree with its code. -/
theorem readable_expression (d : Draft) : Readable d (expression d) :=
  (reading (d.rest.length + 1)).expression d (Nat.lt_succ_self _)

end LineScript.Compile.Precedence
