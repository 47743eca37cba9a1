/-
# Written scripts mean what their trees mean

A tree that can be written down and is well scoped is written as tokens, the tokens are
compiled, and the program is run. What can be seen of the run is what can be seen of the
evaluation of the tree. The first half of the way is the last piece of reading written
scripts again: conditionals, whose arms are compiled one after the other and whose exits
are resolved together behind the last one. The second half is the simulation.
-/

import LineScript.Proofs.Behaviour
import LineScript.Proofs.WrittenStatements

namespace LineScript.Compile

open LineScript.Code LineScript.Tree LineScript.Compile.Draft
open LineScript.Compile.Precedence (Reads)

/-! ## Arms -/

/-- The arms of a conditional that are compiled together, from the first condition up to
`else` or `end`, and what is left for `else`. -/
structure ArmsRead (d : Draft) (condition : Expr) (body : Block) (further : Arms) (rest : List Token)
    (bodies : List (Expr × Block)) (last : Arms) (d' : Draft) : Prop where
  split : further = Arms.ofList bodies last
  reads : ReadsArms d condition body bodies d'
  inScope : last.Scoped d'.scope
  code_eq : ∀ a ending ending', last.code a ending = last.code a ending'
  closes : ∀ fuel, 4 * d'.rest.length ≤ fuel → ∃ d₁, elseBlock (fuel + 1) d' = .ok d₁ ∧
    d₁.rest = rest ∧ d'.Wrote last.words (last.code d'.address unresolvedTarget)
      (last.after d'.scope) (last.definitions d'.scope) d₁

/-- The tokens of an arm and of the arms behind it are compiled as these arms, up to the
end of the conditional. -/
def WrittenArms (further : Arms) : Prop :=
  ∀ {line : Int} {condition : Expr} {body : Block} {d d₁ : Draft} {rest : List Token} (fuel : Nat)
    (jumps : List Nat), WrittenBlock body → body.Expressible → further.Expressible →
    body.Scoped d.scope → further.Scoped (body.after d.scope) →
    d.Moves condition.words (condition.code d.address ++ [jumpTo .branch unresolvedTarget]) d₁ →
    d₁.rest = body.tokens line ++ (further.tokens (line + body.lines) ++ rest) →
    firstKind rest = .end_ → 4 * d₁.rest.length + 2 ≤ fuel + 1 →
    ∃ d₂ bodies last, ArmsRead d condition body further rest bodies last d₂ ∧
      Compile.arms (fuel + 1) d₁ (d.address + condition.size) jumps =
        .ok (d₂, jumps ++ exits d.address (armCodes d.address ((condition, body) :: bodies)))

/-- What follows the statements of an arm ends them. -/
theorem firstKind_arms (further : Arms) (line : Int) {rest : List Token}
    (hend : firstKind rest = .end_) :
    firstKind (further.tokens line ++ rest) ∈ [TokenKind.end_, .elif, .else_] := by
  cases further with
  | done =>
      change firstKind rest ∈ _
      rw [hend]
      decide
  | otherwise body =>
      change TokenKind.else_ ∈ _
      decide
  | elif condition body arms =>
      change TokenKind.elif ∈ _
      decide

/-- One arm is compiled up to what follows it, and its exit is noted. -/
theorem WrittenBlock.arm {condition : Expr} {body : Block} {d d₁ : Draft} {line : Int}
    {rest : List Token} {fuel : Nat} (jumps : List Nat) (hbody : WrittenBlock body)
    (hexpressible : body.Expressible) (hscoped : body.Scoped d.scope)
    (hopen : d.Moves condition.words
      (condition.code d.address ++ [jumpTo .branch unresolvedTarget]) d₁)
    (hrest : d₁.rest = body.tokens line ++ rest)
    (hend : firstKind rest ∈ [TokenKind.end_, .elif, .else_])
    (hfuel : 4 * d₁.rest.length + 2 ≤ fuel + 1) :
    ∃ d₂, ReadsArm d condition body d₂ ∧ d₂.rest = rest ∧
      Compile.arms (fuel + 1) d₁ (d.address + condition.size) jumps =
        if d₂.sees .elif then
          expression d₂.next >>= fun d₃ => (d₃.emitJump .branch).expectLineEnd >>= fun d₄ =>
            Compile.arms fuel d₄ d₃.address
              (jumps ++ [d.address + condition.size + 1 + body.size])
        else .ok (d₂, jumps ++ [d.address + condition.size + 1 + body.size]) := by
  obtain ⟨fuel, rfl⟩ : ∃ n, fuel = n + 1 := ⟨fuel - 1, by omega⟩
  obtain ⟨d₂, hreads, hrest₂, hblock⟩ := hbody fuel [.end_, .elif, .else_] hexpressible
    (by rw [hopen.scope_eq]; exact hscoped) hrest (.inr hend)
    (by simp [beginsStatement, beginsExpression]) (by omega)
  obtain ⟨d₃, hpatch, harm⟩ := (hreads.sound_arm hopen).exists_ok fun e he => kind_of_patchHere he
  refine ⟨d₃, harm, (rest_of_patchHere hpatch).trans hrest₂, ?_⟩
  rw [Compile.arms, hblock, ok_bind]
  dsimp only
  rw [hpatch, ok_bind, hreads.address_of_open hopen]

/-- The last arm with a condition: nothing is left but `else`, or nothing at all. -/
theorem ReadsArm.armsRead {d d₂ : Draft} {condition : Expr} {body : Block} {last : Arms}
    {rest : List Token} (h : ReadsArm d condition body d₂) (hscoped : last.Scoped d₂.scope)
    (hcode : ∀ a ending ending', last.code a ending = last.code a ending')
    (hcloses : ∀ fuel, 4 * d₂.rest.length ≤ fuel → ∃ d₃, elseBlock (fuel + 1) d₂ = .ok d₃ ∧
      d₃.rest = rest ∧ d₂.Wrote last.words (last.code d₂.address unresolvedTarget)
        (last.after d₂.scope) (last.definitions d₂.scope) d₃) :
    ArmsRead d condition body last rest [] last d₂ :=
  ⟨rfl, h.last, hscoped, hcode, hcloses⟩

theorem writtenArms_done : WrittenArms .done := by
  intro line condition body d d₁ rest fuel jumps hbody hexpressible _ hscoped _ hopen hrest hend hfuel
  obtain ⟨d₂, harm, hrest₂, harms⟩ := hbody.arm jumps hexpressible hscoped hopen hrest
    (firstKind_arms .done (line + body.lines) hend) hfuel
  have hkind : d₂.peek.kind = .end_ := (kind_peek_of hrest₂).trans hend
  refine ⟨d₂, [], .done, harm.armsRead trivial (fun _ _ _ => rfl) fun fuel' _ => ?_, ?_⟩
  · refine ⟨d₂, ?_, hrest₂, (Moves.refl d₂).wrote⟩
    unfold elseBlock
    rw [if_neg (by rw [sees_iff, hkind]; decide)]
  · rw [harms, if_neg (by rw [sees_iff, hkind]; decide), exits_armCodes]
    rfl

theorem WrittenBlock.otherwise {otherwise : Block} (hotherwise : WrittenBlock otherwise) :
    WrittenArms (.otherwise otherwise) := by
  intro line condition body d d₁ rest fuel jumps hbody hexpressible hexpressible' hscoped hscoped'
    hopen hrest hend hfuel
  obtain ⟨d₂, harm, hrest₂, harms⟩ := hbody.arm jumps hexpressible hscoped hopen hrest
    (firstKind_arms (.otherwise otherwise) (line + body.lines) hend) hfuel
  have hrest₂ : d₂.rest = .ofKind .else_ (line + body.lines) :: .ofBreak (line + body.lines)
      :: (otherwise.tokens (line + body.lines + 1) ++ rest) := hrest₂
  have hkind : d₂.peek.kind = .else_ := kind_peek_of hrest₂
  have hrest₃ := rest_next_of hrest₂
  have hbreak : d₂.next.peek.kind = .lineBreak := kind_peek_of hrest₃
  have hbefore := (moves_symbol hkind rfl).trans (moves_silent hbreak rfl)
  have hscope : d₂.scope = body.after d.scope := harm.wrote.scope_eq
  refine ⟨d₂, [], .otherwise otherwise,
    harm.armsRead (by rw [hscope]; exact hscoped') (fun _ _ _ => rfl) fun fuel' hfuel' => ?_, ?_⟩
  · have hlength := hbefore.wrote.length_le
    obtain ⟨d₃, hreads, hrest₄, hblock⟩ := hotherwise fuel' [.end_] hexpressible'
      (by rw [hbefore.scope_eq, hscope]; exact hscoped') (rest_next_of hrest₃)
      (.inr (List.mem_singleton.mpr hend)) (by simp [beginsStatement, beginsExpression]) (by omega)
    refine ⟨d₃, ?_, hrest₄, ?_⟩
    · unfold elseBlock
      rw [if_pos (sees_iff.mpr hkind), expectLineEnd_of_kind hbreak, ok_bind, hblock]
    · have hall := hbefore.andWrote hreads.wrote
      rw [hbefore.address_eq, hbefore.scope_eq] at hall
      simpa [Arms.words, Arms.code, Arms.after, Arms.definitions] using hall
  · rw [harms, if_neg (by rw [sees_iff, hkind]; decide), exits_armCodes]
    rfl

theorem WrittenArms.elif {condition' : Expr} {body' : Block} {further : Arms}
    (hbody' : WrittenBlock body') (hfurther : WrittenArms further) :
    WrittenArms (.elif condition' body' further) := by
  intro line condition body d d₁ rest fuel jumps hbody hexpressible hexpressible' hscoped hscoped'
    hopen hrest hend hfuel
  obtain ⟨d₂, harm, hrest₂, harms⟩ := hbody.arm jumps hexpressible hscoped hopen hrest
    (firstKind_arms (.elif condition' body' further) (line + body.lines) hend) hfuel
  have hrest₂ : d₂.rest = .ofKind .elif (line + body.lines)
      :: (condition'.tokens (line + body.lines) 0 0 ++ (.ofBreak (line + body.lines)
        :: (body'.tokens (line + body.lines + 1)
          ++ (further.tokens (line + body.lines + 1 + body'.lines) ++ rest)))) := by
    simpa [Arms.tokens] using hrest₂
  have hkind : d₂.peek.kind = .elif := kind_peek_of hrest₂
  have helif : d₂.Moves _ [] d₂.next := moves_symbol hkind rfl
  have hscope : d₂.next.scope = body.after d.scope := by rw [helif.scope_eq, harm.wrote.scope_eq]
  obtain ⟨d₃, hcondition, hrest₃, hexpression⟩ := expression_written hexpressible'.1
    (by rw [hscope]; exact hscoped'.1) (rest_next_of hrest₂) rfl
  have hbreak : (d₃.emitJump .branch).peek.kind = .lineBreak :=
    kind_peek_of (d := d₃.emitJump .branch) hrest₃
  have hopen' := (hcondition.moves.trans (d₃.moves_emitJump .branch)).trans
    (moves_silent hbreak rfl)
  have haddress : d₂.next.address = d.address + condition.size + 1 + body.size + 1 := by
    rw [helif.address_eq, harm.wrote.address_eq]
    simp
    omega
  have hbranch : d₃.address = d₂.next.address + condition'.size := by
    rw [hcondition.moves.address_eq, condition'.length_code]
  -- The arm and its `elif` took tokens, so the bound is large enough for what is left.
  have hle := hopen'.wrote.length_le
  have hlt := length_next_lt (d := d₂) (by rw [hkind]; decide)
  have hle₂ : d₂.rest.length ≤ d₁.rest.length := by
    rw [hrest, hrest₂]
    simp [Arms.tokens]
  obtain ⟨fuel, rfl⟩ : ∃ n, fuel = n + 1 := ⟨fuel - 1, by omega⟩
  obtain ⟨d₄, bodies, last, hread, hresult⟩ := hfurther fuel
    (jumps ++ [d.address + condition.size + 1 + body.size]) hbody' hexpressible'.2.1
    hexpressible'.2.2 (by rw [hscope]; exact hscoped'.2.1) (by rw [hscope]; exact hscoped'.2.2)
    (by simpa using hopen') (rest_next_of (d := d₃.emitJump .branch) hrest₃) hend (by omega)
  refine ⟨d₄, (condition', body') :: bodies, last, ?_, ?_⟩
  · refine ⟨?_, harm.cons hkind hcondition.inScope hread.reads, hread.inScope, hread.code_eq,
      hread.closes⟩
    rw [hread.split]
    rfl
  · rw [harms, if_pos (sees_iff.mpr hkind), hexpression, ok_bind, expectLineEnd_of_kind hbreak,
      ok_bind, hbranch, hresult, exits_armCodes d.address, haddress, List.append_assoc,
      List.singleton_append]

theorem WrittenArms.choose (condition : Expr) {body : Block} {further : Arms}
    (hbody : WrittenBlock body) (hfurther : WrittenArms further) :
    WrittenStmt (.choose condition body further) := by
  intro line d rest fuel hexpressible hscoped hrest hfuel
  have hrest : d.rest = .ofKind .if_ line
      :: (condition.tokens line 0 0 ++ (.ofBreak line :: (body.tokens (line + 1)
        ++ (further.tokens (line + 1 + body.lines)
          ++ (.ofKind .end_ (line + 1 + body.lines + further.lines)
            :: .ofBreak (line + 1 + body.lines + further.lines) :: rest))))) := by
    simpa [Stmt.tokens] using hrest
  obtain ⟨fuel, rfl, hfuel'⟩ := exists_eq_succ_of_cons hrest hfuel
  have hkind : d.peek.kind = .if_ := kind_peek_of hrest
  have hif : d.Moves _ [] d.next := moves_symbol hkind rfl
  obtain ⟨d₁, hcondition, hrest₁, hexpression⟩ := expression_written hexpressible.1
    (by rw [hif.scope_eq]; exact hscoped.1) (rest_next_of hrest) rfl
  have hbreak : (d₁.emitJump .branch).peek.kind = .lineBreak :=
    kind_peek_of (d := d₁.emitJump .branch) hrest₁
  have hthen : ¬(d₁.emitJump .branch).sees .then_ = true := by rw [sees_iff, hbreak]; decide
  have hopen := (hcondition.moves.trans (d₁.moves_emitJump .branch)).trans (moves_silent hbreak rfl)
  have hbranch : d₁.address = d.next.address + condition.size := by
    rw [hcondition.moves.address_eq, condition.length_code]
  have hle := hopen.wrote.length_le
  rw [rest_next_of hrest] at hle
  obtain ⟨fuel, rfl⟩ : ∃ n, fuel = n + 1 := ⟨fuel - 1, by omega⟩
  obtain ⟨d₂, bodies, last, hread, harms⟩ := hfurther fuel [] hbody hexpressible.2.1
    hexpressible.2.2 (by rw [hif.scope_eq]; exact hscoped.2.1)
    (by rw [hif.scope_eq]; exact hscoped.2.2) (by simpa using hopen)
    (rest_next_of (d := d₁.emitJump .branch) hrest₁) rfl (by omega)
  obtain ⟨hsplit, hreads, hlastScoped, hlastCode, hcloses⟩ := hread
  have hle₂ : d₂.rest.length ≤ d.next.rest.length := hreads.wrote.length_le
  rw [rest_next_of hrest] at hle₂
  obtain ⟨d₃, helse, hrest₃, hlast⟩ := hcloses fuel (by omega)
  have hend : d₃.peek.kind = .end_ := kind_peek_of hrest₃
  have hrest₄ := rest_next_of hrest₃
  have hclosed := hlast.moves (moves_symbol hend rfl)
  rw [List.append_nil] at hclosed
  have hcode := (hreads.wrote.trans hclosed).code_eq
  rw [← List.append_assoc] at hcode
  obtain ⟨d₄, hpatch, hrest₅, -⟩ := patchAllHere_exits hcode
  rw [length_code] at hpatch
  have hchoose := hreads.choose hkind hscoped.1 hclosed hlastScoped hlastCode hpatch
  have hrest₅ : d₄.rest = _ := hrest₅.trans hrest₄
  have hbreak₄ : d₄.peek.kind = .lineBreak := kind_peek_of hrest₅
  have hline := moves_silent hbreak₄ rfl
  refine ⟨d₄.next, ⟨?_, ?_⟩, rest_next_of hrest₅, ?_⟩
  · have hall := hchoose.wrote.moves hline
    rw [hsplit]
    simpa using hall
  · rw [hsplit]
    exact hchoose.inScope
  · rw [statement, hkind]
    dsimp only
    rw [ifStatement_succ, hexpression, ok_bind, if_neg hthen, expectLineEnd_of_kind hbreak, ok_bind,
      hbranch, harms, ok_bind]
    dsimp only
    rw [helse, ok_bind, expect_of_kind hend, ok_bind, List.nil_append, hpatch, ok_bind,
      expectLineEnd_of_kind hbreak₄]

/-! ## All statements -/

mutual

/-- Every statement is compiled again from its tokens. -/
theorem writtenStmt : ∀ x : Stmt, WrittenStmt x
  | .simple x => WrittenStmt.simple x
  | .when condition x => WrittenStmt.when condition x
  | .choose condition body further =>
    WrittenArms.choose condition (writtenBlock body) (writtenArms further)
  | .loop condition body => WrittenBlock.loop condition (writtenBlock body)
  | .function name params body => WrittenBlock.function name params (writtenBlock body)

theorem writtenBlock : ∀ b : Block, WrittenBlock b
  | .nil => writtenBlock_nil
  | .cons first rest => WrittenStmt.cons (writtenStmt first) (writtenBlock rest)

theorem writtenArms : ∀ further : Arms, WrittenArms further
  | .done => writtenArms_done
  | .otherwise body => WrittenBlock.otherwise (writtenBlock body)
  | .elif _ body further => WrittenArms.elif (writtenBlock body) (writtenArms further)

end

end LineScript.Compile

namespace LineScript.Compiler

open LineScript.Code LineScript.Tree LineScript.Machine

/-! ## Scripts -/

/-- The tokens of a script that can be written down and is well scoped are compiled to
what its tree is compiled to. -/
theorem exists_compiles {c : Compiler} {b : Block} (hexpressible : b.Expressible)
    (hscoped : b.Scoped c.scope) (line : Int) :
    ∃ p, c.compile (b.tokens line) = .ok p ∧ c.Compiles b p := by
  obtain ⟨d, hreads, -, hblock⟩ := Compile.writtenBlock b (d := c.draft (b.tokens line))
    (4 * (b.tokens line).length + 3) [] hexpressible hscoped (List.append_nil _).symm (.inl rfl)
    nofun (Nat.le_add_right _ _)
  have hresolved : d.checkResolved = .ok d := by
    apply Compile.Draft.checkResolved_of_code
    rw [hreads.wrote.code_eq, (c.draft_code _).1]
    exact b.resolved_code _
  refine ⟨d.program, ?_, compiles_program hreads⟩
  unfold compile Compile.block
  have hblock : Compile.blockWith (4 * (c.draft (b.tokens line)).rest.length + 4) []
      (c.draft (b.tokens line)) = .ok d := hblock
  rw [hblock, Compile.ok_bind, hresolved, Compile.ok_bind]

/-- A well-scoped tree that can be written down is compiled from its tokens, and running
the program without limits has the outcome of evaluating the tree: the same value or the
same cause of failure, with the same globals, heap, output and host functions left
behind; and the run goes on for ever exactly when the evaluation does. -/
theorem semantic_preservation {c : Compiler} {earlier : List Definition} {b : Block} {m : Machine}
    (hrecalls : c.Recalls earlier) (hexpressible : b.Expressible) (hscoped : b.Scoped c.scope)
    (hserved : Served c m.natives) (hfree : m.limits.Free) (line : Int) :
    ∃ p, c.compile (b.tokens line) = .ok p ∧
      (∀ ending after, b.Ends earlier c.scope m.store ending after ↔ m.Ends p ending after) ∧
      (b.Diverges earlier c.scope m.store ↔ m.Diverges p) := by
  obtain ⟨p, hcompile, hcompiles⟩ := exists_compiles hexpressible hscoped line
  exact ⟨p, hcompile, hcompiles.ends_iff hrecalls hserved hfree⟩

/-- A function that calls itself, a loop and a conditional with all kinds of arms. -/
def factorials : Block :=
  let one : Expr := .literal (.ofNumber 1)
  let two : Expr := .literal (.ofNumber 2)
  let less : Expr := .binary .subtract (.name "n") one
  let log (e : Expr) : Block := .cons (.simple (.discard (.call "log" (.cons e .nil)))) .nil
  let body : Block :=
    .cons (.when (.binary .less (.name "n") two) (.giveBack (some one)))
      (.cons (.simple (.giveBack (some (.binary .multiply (.name "n")
        (.call "factorial" (.cons less .nil)))))) .nil)
  let choice : Stmt :=
    .choose (.binary .equal (.name "i") one) (log (.name "i"))
      (.elif (.binary .and (.name "i") (.unary .not (.name "i"))) (log (.list (.cons one .nil)))
        (.otherwise (log (.call "factorial" (.cons (.name "i") .nil)))))
  let round : Block :=
    .cons choice (.cons (.simple (.assign "i" (.binary .add (.name "i") one))) .nil)
  .cons (.function "factorial" ["n"] body)
    (.cons (.simple (.assign "i" one))
      (.cons (.loop (.binary .less (.name "i") (.literal (.ofNumber 5))) round) .nil))

/-- Logging factorials is compiled, and its runs are the evaluations of its tree. -/
theorem semantic_preservation_factorials :
    ∃ p, Compiler.compile { natives := Dict.insert ∅ "log" ["value"] } (factorials.tokens 1) = .ok p ∧
      ∀ ending after,
        factorials.Ends [] (Compiler.scope { natives := Dict.insert ∅ "log" ["value"] })
          (Machine.bind { limits := { depth := 0 } } "log" 1 Native.log).store ending after ↔
        (Machine.bind { limits := { depth := 0 } } "log" 1 Native.log).Ends p ending after := by
  have hcompiler : Registry.compiler ⟨[⟨"log", "log(value)", Native.log⟩]⟩ =
      .ok { natives := Dict.insert ∅ "log" ["value"] } := by rfl
  have hmachine : Registry.machine ⟨[⟨"log", "log(value)", Native.log⟩]⟩
      { limits := { depth := 0 } } =
        .ok (Machine.bind { limits := { depth := 0 } } "log" 1 Native.log) := by rfl
  have hexpressible : factorials.Expressible := by
    simp [factorials, Block.Expressible, Stmt.Expressible, Arms.Expressible, Simple.Expressible,
      Expr.Expressible, Exprs.Expressible, Literal.ofNumber, beginsAssignment, Expr.tokens,
      Token.ofName, Token.ofKind]
  have hscoped : factorials.Scoped (scope { natives := Dict.insert ∅ "log" ["value"] }) := by
    simp only [factorials, Block.Scoped, Stmt.Scoped, Arms.Scoped, Simple.Scoped, Expr.Scoped,
      Exprs.Scoped]
    decide
  obtain ⟨p, hcompile, hends, -⟩ := semantic_preservation (.nothing rfl) hexpressible hscoped
    (Registry.Prepares.installed hcompiler hmachine).traced_served.2 ⟨by decide, by decide⟩ 1
  exact ⟨p, hcompile, hends⟩

end LineScript.Compiler
