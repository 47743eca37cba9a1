/-
# Programs read as trees

The statements of a script are compiled by functions that call each other, with a
bound on the depth. One induction on that bound shows for all of them that what was
compiled is a tree with its code, and that four steps for each token left are enough.
-/

import LineScript.Compile.Compiler
import LineScript.Proofs.StatementTrees

namespace LineScript.Compile

open LineScript.Code LineScript.Tree
open LineScript.Compile.Precedence (Reads readable_expression expression_eq length_climb_lt)

/-- Between two drafts, a well-scoped statement was compiled. -/
structure ReadsStmt (d : Draft) (x : Stmt) (d' : Draft) : Prop where
  wrote : d.Wrote x.words (x.code d.address) (x.after d.scope) (x.definitions d.scope) d'
  inScope : x.Scoped d.scope

/-- Between two drafts, well-scoped statements were compiled. -/
structure ReadsBlock (d : Draft) (b : Block) (d' : Draft) : Prop where
  wrote : d.Wrote b.words (b.code d.address) (b.after d.scope) (b.definitions d.scope) d'
  inScope : b.Scoped d.scope

/-- No name that is still to be read is spelled like the top level. -/
def Draft.Named (d : Draft) : Prop := ∀ t ∈ d.rest, t.kind = .identifier → t.text ≠ topLevel

theorem Draft.Moves.named {d d' : Draft} {words : List Word} {code : List Instruction}
    (h : d.Moves words code d') (hnamed : d.Named) : d'.Named :=
  fun t ht => hnamed t (h.mem_of_mem_rest ht)

theorem Draft.Wrote.named {d d' : Draft} {words : List Word} {code : List Instruction}
    {scope : Scope} {definitions : List Definition} (h : d.Wrote words code scope definitions d')
    (hnamed : d.Named) : d'.Named :=
  fun t ht => hnamed t (h.mem_of_mem_rest ht)

theorem ReadsBlock.nil {d d' : Draft} (h : d.Moves [] [] d') : ReadsBlock d .nil d' :=
  ⟨h.wrote, trivial⟩

theorem ReadsStmt.cons {d d₁ d₂ : Draft} {x : Stmt} {b : Block} (hx : ReadsStmt d x d₁)
    (hb : ReadsBlock d₁ b d₂) : ReadsBlock d (.cons x b) d₂ := by
  have hscope := hx.wrote.scope_eq
  refine ⟨?_, hx.inScope, ?_⟩
  · have hall := hx.wrote.trans hb.wrote
    rw [hx.wrote.address_eq, hscope] at hall
    simpa [Block.words, Block.code, Block.after, Block.definitions] using hall
  · rw [← hscope]
    exact hb.inScope

/-- Passing over a line break adds no statement. -/
theorem ReadsBlock.skip {d d₁ d₂ : Draft} {b : Block} (h : d.Moves [] [] d₁)
    (hb : ReadsBlock d₁ b d₂) : ReadsBlock d b d₂ := by
  refine ⟨?_, ?_⟩
  · have hall := h.andWrote hb.wrote
    rw [h.address_eq, h.scope_eq] at hall
    simpa using hall
  · rw [← h.scope_eq]
    exact hb.inScope

theorem ReadsSimple.stmt {d d' : Draft} {x : Simple} (h : ReadsSimple d x d') :
    ReadsStmt d (.simple x) d' :=
  ⟨h.wrote, h.inScope⟩

/-! ## Conditionals -/

/-- Compiles what `else` begins, if it comes next. -/
def elseBlock (fuel : Nat) (d : Draft) : Result :=
  if d.sees .else_ then d.next.expectLineEnd >>= blockWith fuel [.end_] else .ok d

/-- A conditional, with the step from the last arm to its end set apart. -/
theorem ifStatement_succ (fuel : Nat) (d : Draft) :
    ifStatement (fuel + 1) d = expression d >>= fun d₁ =>
      if (d₁.emitJump .branch).sees .then_ then
        inlineStatement (d₁.emitJump .branch).next >>= fun d₂ => d₂.patchHere d₁.address
      else (d₁.emitJump .branch).expectLineEnd >>= fun d₂ =>
        arms fuel d₂ d₁.address [] >>= fun r =>
          elseBlock fuel r.1 >>= fun d₄ =>
            d₄.expect .end_ >>= fun d₅ => d₅.patchAllHere r.2 >>= Draft.expectLineEnd := by
  rw [ifStatement]
  congr 1
  funext d₁
  dsimp only
  split
  · rfl
  · congr 1
    funext d₂
    congr 1
    funext r
    unfold elseBlock
    split
    · rw [bind_assoc]
    · rfl

/-- What the arms of a conditional leave behind, from before the first condition: the
code of all arms with their exits still open. -/
structure ReadsArms (d : Draft) (condition : Expr) (body : Block) (arms : List (Expr × Block))
    (d' : Draft) : Prop where
  wrote : d.Wrote (condition.words ++ body.words ++ (Arms.ofList arms .done).words)
    (withExits unresolvedTarget (armCodes d.address ((condition, body) :: arms)))
    ((Arms.ofList arms .done).after (body.after d.scope))
    (body.definitions d.scope ++ (Arms.ofList arms .done).definitions (body.after d.scope)) d'
  inScope : body.Scoped d.scope ∧ (Arms.ofList arms .done).Scoped (body.after d.scope)

/-- The code of a conditional is that of its arms, all exits resolved, and of what comes
after them. -/
theorem code_choose (condition : Expr) (body : Block) (arms : List (Expr × Block)) (last : Arms)
    (a ending : Nat)
    (hending : ending = a + ((withExits (ending : Nat)
      (armCodes a ((condition, body) :: arms))).length + last.size)) :
    (Stmt.choose condition body (Arms.ofList arms last)).code a =
      withExits (ending : Nat) (armCodes a ((condition, body) :: arms)) ++
        last.code (a + (withExits (ending : Nat)
          (armCodes a ((condition, body) :: arms))).length) ending := by
  rw [← Arms.code_ofList]
  have hsize : (Arms.ofList ((condition, body) :: arms) last).size =
      (withExits (ending : Nat) (armCodes a ((condition, body) :: arms))).length + last.size := by
    rw [← Arms.length_code _ a ending, Arms.code_ofList, List.length_append, Arms.length_code]
  have hnext : a + condition.size + 1 + body.size + 1 + (Arms.ofList arms last).size = ending := by
    rw [hending, ← hsize]
    simp only [Arms.ofList, Arms.size]
    omega
  simp only [Stmt.code, Arms.ofList, Arms.code, hnext]

theorem ReadsArms.choose {d d₁ d₂ d₃ : Draft} {condition : Expr} {body : Block}
    {arms : List (Expr × Block)} {last : Arms} (hkind : d.peek.kind = .if_)
    (hcondition : condition.Scoped d.scope) (harms : ReadsArms d.next condition body arms d₁)
    (hlast : d₁.Wrote (last.words ++ [.symbol .end_]) (last.code d₁.address unresolvedTarget)
      (last.after d₁.scope) (last.definitions d₁.scope) d₂)
    (hscoped : last.Scoped d₁.scope)
    (hcode : ∀ a ending ending', last.code a ending = last.code a ending')
    (hpatch : d₂.patchAllHere (exits d.next.address
      (armCodes d.next.address ((condition, body) :: arms))) = .ok d₃) :
    ReadsStmt d (.choose condition body (Arms.ofList arms last)) d₃ := by
  have hif : d.Moves _ [] d.next := Draft.moves_symbol hkind rfl
  have haddress : d.next.address = d.address := hif.address_eq
  have hscope₁ := harms.wrote.scope_eq
  have hall := harms.wrote.trans hlast
  have hsound := hall.sound_patchAllHere
  rw [hpatch] at hsound
  have hending := hall.address_eq
  have hwrote := hif.andWrote hsound
  refine ⟨?_, hcondition, ?_, ?_⟩
  · rw [haddress] at hending hwrote
    rw [harms.wrote.address_eq, haddress, List.length_append, Arms.length_code,
      length_withExits _ (d₂.address : Nat)] at hending
    rw [code_choose condition body arms last d.address d₂.address hending]
    rw [harms.wrote.address_eq, haddress, hscope₁, length_withExits _ (d₂.address : Nat),
      hcode _ _ (d₂.address : Nat), hif.scope_eq] at hwrote
    simpa [Stmt.words, Stmt.after, Stmt.definitions, Arms.words_ofList arms last,
      Arms.after_ofList arms last, Arms.definitions_ofList arms last] using hwrote
  · rw [← hif.scope_eq]
    exact harms.inScope.1
  · refine Arms.scoped_ofList ?_ ?_
    · rw [← hif.scope_eq]
      exact harms.inScope.2
    · rw [← hif.scope_eq, ← hscope₁]
      exact hscoped

/-- Between two drafts, one arm was compiled: its condition leads past it, and the exit
behind it is still open. -/
structure ReadsArm (d : Draft) (condition : Expr) (body : Block) (d' : Draft) : Prop where
  wrote : d.Wrote (condition.words ++ body.words)
    (condition.code d.address
      ++ jumpTo .branch (d.address + condition.size + 1 + body.size + 1 : Nat)
        :: body.code (d.address + condition.size + 1)
      ++ [jumpTo .jump unresolvedTarget])
    (body.after d.scope) (body.definitions d.scope) d'
  inScope : body.Scoped d.scope

section

variable {d d₁ d₂ : Draft} {condition : Expr} {body : Block}

theorem ReadsBlock.address_of_open (hbody : ReadsBlock d₁ body d₂)
    (hopen : d.Moves condition.words
      (condition.code d.address ++ [jumpTo .branch unresolvedTarget]) d₁) :
    d₂.address = d.address + condition.size + 1 + body.size := by
  rw [hbody.wrote.address_eq, hopen.address_eq]
  simp
  omega

/-- Behind the statements of an arm comes its exit, and its condition is resolved. -/
theorem ReadsBlock.sound_arm (hbody : ReadsBlock d₁ body d₂)
    (hopen : d.Moves condition.words
      (condition.code d.address ++ [jumpTo .branch unresolvedTarget]) d₁) :
    Sound (ReadsArm d condition body)
      ((d₂.emitJump .jump).patchHere (d.address + condition.size)) := by
  have hinner : d₁.address = d.address + condition.size + 1 := by
    rw [hopen.address_eq]
    simp
    omega
  have hwrote := hopen.andWrote hbody.wrote
  rw [hinner, hopen.scope_eq] at hwrote
  have hexit := hwrote.moves (d₂.moves_emitJump .jump)
  have hnext : (d₂.emitJump .jump).address = d.address + condition.size + 1 + body.size + 1 := by
    rw [(d₂.moves_emitJump .jump).address_eq, hbody.address_of_open hopen]
    rfl
  have hpatch := Draft.Wrote.sound_patchHere (d := d) .branch (d.address + condition.size)
    (condition.code d.address)
    (body.code (d.address + condition.size + 1) ++ [jumpTo .jump unresolvedTarget])
    (by simpa using hexit) rfl (by rw [condition.length_code])
  refine hpatch.mono fun d₃ hpatched => ⟨?_, hopen.scope_eq ▸ hbody.inScope⟩
  rw [hnext] at hpatched
  simpa using hpatched

theorem ReadsArm.last (h : ReadsArm d condition body d₁) : ReadsArms d condition body [] d₁ := by
  refine ⟨?_, h.inScope, trivial⟩
  have hwrote := h.wrote
  simpa [Arms.ofList, Arms.words, Arms.after, Arms.definitions, armCodes, withExits] using hwrote

theorem ReadsArm.cons {condition' : Expr} {body' : Block} {rest : List (Expr × Block)}
    (h : ReadsArm d condition body d₁) (helif : d₁.peek.kind = .elif)
    (hscoped : condition'.Scoped d₁.next.scope)
    (harms : ReadsArms d₁.next condition' body' rest d₂) :
    ReadsArms d condition body ((condition', body') :: rest) d₂ := by
  have hnext : d₁.Moves _ [] d₁.next := Draft.moves_symbol helif rfl
  have haddress : d₁.next.address = d.address + condition.size + 1 + body.size + 1 := by
    rw [hnext.address_eq, h.wrote.address_eq]
    simp
    omega
  have hscope : d₁.next.scope = body.after d.scope := by rw [hnext.scope_eq, h.wrote.scope_eq]
  refine ⟨?_, h.inScope, ?_⟩
  · have hall := (h.wrote.moves hnext).trans harms.wrote
    rw [haddress, hscope] at hall
    simpa [Arms.ofList, Arms.words, Arms.after, Arms.definitions, armCodes, withExits] using hall
  · rw [← hscope]
    exact ⟨hscoped, harms.inScope⟩

/-- The exit of the first arm, and those of the arms behind it. -/
theorem exits_armCodes (a : Nat) (condition : Expr) (body : Block) (rest : List (Expr × Block)) :
    exits a (armCodes a ((condition, body) :: rest)) =
      (a + condition.size + 1 + body.size) :: exits (a + condition.size + 1 + body.size + 1)
        (armCodes (a + condition.size + 1 + body.size + 1) rest) := by
  have hpiece : ∀ n, a + (condition.size + (n + 1)) = a + condition.size + 1 + n := by omega
  simp [exits, armCodes, hpiece]

end

theorem ReadsStmt.when {d d₁ d₂ : Draft} {condition : Expr} {x : Simple}
    (hkind : d.peek.kind = .if_) (hcondition : Reads d.next condition d₁)
    (hthen : (d₁.emitJump .branch).peek.kind = .then_)
    (hx : ReadsSimple (d₁.emitJump .branch).next x d₂) :
    Sound (ReadsStmt d (.when condition x)) (d₂.patchHere d₁.address) := by
  have hif : d.Moves _ [] d.next := Draft.moves_symbol hkind rfl
  have haddress : d.next.address = d.address := hif.address_eq
  have hopen := (hif.trans (hcondition.moves.trans (d₁.moves_emitJump .branch))).trans
    (Draft.moves_symbol hthen rfl)
  have hinner : (d₁.emitJump .branch).next.address = d.address + condition.size + 1 := by
    rw [hopen.address_eq]
    simp
    omega
  have hbranch : d₁.address = d.address + condition.size := by
    rw [hcondition.moves.address_eq, condition.length_code, haddress]
  have hwrote := hopen.andWrote hx.wrote
  rw [hinner, hopen.scope_eq, haddress] at hwrote
  have hpatch := Draft.Wrote.sound_patchHere (d := d) .branch d₁.address
    (condition.code d.address) (x.code (d.address + condition.size + 1))
    (by simpa using hwrote) rfl (by rw [hbranch, condition.length_code])
  refine hpatch.mono fun d₃ hpatched => ⟨?_, hif.scope_eq ▸ hcondition.inScope, ?_⟩
  · have htarget : d₂.address = d.address + condition.size + 1 + x.size := by
      rw [hwrote.address_eq]
      simp
      omega
    rw [htarget] at hpatched
    simpa [Stmt.words, Stmt.code, Stmt.after, Stmt.definitions] using hpatched
  · rw [← hopen.scope_eq]
    exact hx.inScope

/-! ## Loops -/

/-- Behind the statements of a loop comes the jump back, and its condition is resolved;
nothing but the end of the loop is left to read. -/
theorem ReadsBlock.sound_loop {d d₁ d₂ d₃ : Draft} {condition : Expr} {body : Block}
    (hkind : d.peek.kind = .while_) (hcondition : Reads d.next condition d₁)
    (hline : d₁.Moves [] [] d₂) (hbody : ReadsBlock (d₂.emitJump .branch) body d₃) :
    Sound (fun d₄ => ∀ d₅ d₆, d₄.Moves [.symbol .end_] [] d₅ → d₅.Moves [] [] d₆ →
        ReadsStmt d (.loop condition body) d₆)
      ((d₃.emitJumpTo .jump d.next.address).patchHere d₂.address) := by
  have hwhile : d.Moves _ [] d.next := Draft.moves_symbol hkind rfl
  have haddress : d.next.address = d.address := hwhile.address_eq
  have hopen := ((hwhile.trans hcondition.moves).trans hline).trans (d₂.moves_emitJump .branch)
  rw [haddress] at hopen
  have hbranch : d₂.address = d.address + condition.size := by
    have := ((hwhile.trans hcondition.moves).trans hline).address_eq
    simpa using this
  have hinner : (d₂.emitJump .branch).address = d.address + condition.size + 1 := by
    rw [(d₂.moves_emitJump .branch).address_eq, hbranch]
    rfl
  have hwrote := hopen.andWrote hbody.wrote
  rw [hinner, hopen.scope_eq] at hwrote
  have hback := hwrote.moves (d₃.moves_emitJumpTo .jump d.next.address)
  have hpatch := Draft.Wrote.sound_patchHere (d := d) .branch d₂.address
    (condition.code d.address)
    (body.code (d.address + condition.size + 1) ++ [jumpTo .jump d.address])
    (by rw [haddress] at hback; simpa using hback) rfl (by rw [hbranch, condition.length_code])
  rw [← haddress] at hpatch
  refine hpatch.mono fun d₄ hpatched d₅ d₆ hend hline₆ => ⟨?_, ?_, ?_⟩
  · have hall := (hpatched.moves hend).moves hline₆
    have htarget : (d₃.emitJumpTo .jump d.next.address).address =
        d.address + condition.size + 1 + body.size + 1 := by
      rw [hback.address_eq]
      simp
      omega
    rw [htarget, haddress] at hall
    simpa [Stmt.words, Stmt.code, Stmt.after, Stmt.definitions] using hall
  · rw [← hwhile.scope_eq]
    exact hcondition.inScope
  · rw [← hopen.scope_eq]
    exact hbody.inScope

/-! ## Functions -/

/-- A function that was entered and whose statements were compiled is complete once its
end is read. -/
theorem ReadsBlock.function {d d₀ d₂ d₃ d₄ : Draft} {name : String} {params : List String}
    {body : Block} (hkind : d.peek.kind = .func) (houter : d.outer? = none)
    (hname : name ≠ topLevel) (harity : d.scope.arity name = none) (hnodup : params.Nodup)
    (hheader : d.next.Moves (.name name :: params.map .name) [] d₀)
    (hbody : ReadsBlock (d₀.enter name params) body d₂)
    (hend : ((d₂.emitValue .null).emit .ret).Moves [.symbol .end_] [] d₃)
    (hline : d₃.leave.Moves [] [] d₄) :
    d₃.checkResolved = .ok d₃ ∧ ReadsStmt d (.function name params body) d₄ := by
  have hopen := (Draft.moves_symbol hkind rfl).trans hheader
  have houter₀ : d₀.outer? = none := by
    have := congrArg (fun x : Draft => x.outer?) hopen.frame_eq
    exact this.trans houter
  have hscope : (d₀.enter name params).scope = d.scope.inside name params := by
    rw [Draft.scope_enter params hname, hopen.scope_eq]
  have haddress : (d₀.enter name params).address = 0 := by
    rw [← Draft.length_code, Draft.code_enter params hname]
    rfl
  -- No function is defined inside, so the body adds nothing to the functions.
  have hinside := body.definitions_inside _ (by rw [hscope]; exact nofun) hbody.inScope
  have hwrote := (hbody.wrote.moves (d₂.moves_emitValue .null)).moves (Draft.moves_emit _ .ret)
  rw [haddress, hinside] at hwrote
  have hfunction : (d₀.enter name params).Wrote (body.words ++ [.symbol .end_])
      (functionCode body) (body.after (d.scope.inside name params)) [] d₃ := by
    have hall := hwrote.moves hend
    rw [hscope] at hall
    simpa [functionCode] using hall
  refine ⟨?_, ?_, ?_, hname, harity, hnodup, ?_⟩
  · apply Draft.checkResolved_of_code
    rw [hfunction.code_eq, Draft.code_enter params hname]
    exact resolved_functionCode body
  · have hall := (hopen.andWrote (hfunction.leave hname houter₀)).moves hline
    rw [hopen.scope_eq] at hall
    simpa [Stmt.words, Stmt.code, Stmt.after, Stmt.definitions] using hall
  · unfold Draft.scope
    rw [houter]
    rfl
  · rw [← hscope]
    exact hbody.inScope

/-! ## One step deeper -/

/-- With the given bound on the depth, everything that is compiled is a tree, and the
bound is large enough for the tokens left. -/
structure Compiling (fuel : Nat) : Prop where
  block : ∀ (enders : List TokenKind) (d : Draft), d.Named → 4 * d.rest.length < fuel →
    Sound (fun d' => ∃ b, ReadsBlock d b d') (blockWith fuel enders d)
  statement : ∀ (d : Draft), d.Named → d.atEnd = false → 4 * d.rest.length ≤ fuel →
    Sound (fun d' => d'.rest.length < d.rest.length ∧
      (d.Moves [] [] d' ∨ ∃ x, ReadsStmt d x d')) (statement fuel d)
  conditional : ∀ (d : Draft), d.Named → d.peek.kind = .if_ →
    4 * d.next.rest.length + 3 ≤ fuel →
    Sound (fun d' => ∃ x, ReadsStmt d x d') (ifStatement fuel d.next)
  arms : ∀ (d d₁ : Draft) (condition : Expr) (jumps : List Nat), d₁.Named →
    condition.Scoped d.scope →
    d.Moves condition.words (condition.code d.address ++ [jumpTo .branch unresolvedTarget]) d₁ →
    4 * d₁.rest.length + 2 ≤ fuel →
    Sound (fun r => ∃ body rest, ReadsArms d condition body rest r.1 ∧
      r.2 = jumps ++ exits d.address (armCodes d.address ((condition, body) :: rest)))
      (arms fuel d₁ (d.address + condition.size) jumps)
  loop : ∀ (d : Draft), d.Named → d.peek.kind = .while_ → 4 * d.next.rest.length + 3 ≤ fuel →
    Sound (fun d' => ∃ x, ReadsStmt d x d') (whileStatement fuel d.next)
  function : ∀ (d : Draft), d.Named → d.peek.kind = .func → d.outer? = none →
    4 * d.next.rest.length + 3 ≤ fuel →
    Sound (fun d' => ∃ x, ReadsStmt d x d') (functionDefinition fuel d.next)

namespace Compiling

variable {fuel : Nat} (compiling : Compiling fuel)
include compiling

theorem block_step (enders : List TokenKind) {d : Draft} (hnamed : d.Named)
    (hfuel : 4 * d.rest.length < fuel + 1) :
    Sound (fun d' => ∃ b, ReadsBlock d b d') (blockWith (fuel + 1) enders d) := by
  rw [blockWith]
  split
  · exact ⟨.nil, .nil (.refl d)⟩
  · rename_i hstop
    have hend : d.atEnd = false := (Bool.or_eq_false_iff.mp (Bool.not_eq_true _ ▸ hstop)).1
    have hstatement := compiling.statement d hnamed hend (by omega)
    cases hresult : Compile.statement fuel d with
    | error e =>
        rw [hresult] at hstatement
        exact hstatement
    | ok d₁ =>
        rw [hresult] at hstatement
        obtain ⟨hlt, hmoves | ⟨x, hx⟩⟩ := hstatement
        · refine (compiling.block enders d₁ (hmoves.named hnamed) (by omega)).mono ?_
          rintro d₂ ⟨b, hb⟩
          exact ⟨b, hb.skip hmoves⟩
        · refine (compiling.block enders d₁ (hx.wrote.named hnamed) (by omega)).mono ?_
          rintro d₂ ⟨b, hb⟩
          exact ⟨.cons x b, hx.cons hb⟩

omit compiling in
/-- A statement that was compiled took tokens. -/
theorem sound_of_statement {d : Draft} {r : Result} (h : Sound (fun d' => ∃ x, ReadsStmt d x d') r) :
    Sound (fun d' => d'.rest.length < d.rest.length ∧
      (d.Moves [] [] d' ∨ ∃ x, ReadsStmt d x d')) r := by
  refine h.mono ?_
  rintro d' ⟨x, hx⟩
  exact ⟨hx.wrote.length_lt x.words_ne_nil, .inr ⟨x, hx⟩⟩

omit compiling in
theorem sound_of_simple {d : Draft} {r : Result} (h : Sound (fun d' => ∃ x, ReadsSimple d x d') r) :
    Sound (fun d' => d'.rest.length < d.rest.length ∧
      (d.Moves [] [] d' ∨ ∃ x, ReadsStmt d x d')) r := by
  apply sound_of_statement
  refine h.mono ?_
  rintro d' ⟨x, hx⟩
  exact ⟨.simple x, hx.stmt⟩

theorem statement_step {d : Draft} (hnamed : d.Named) (hend : d.atEnd = false)
    (hfuel : 4 * d.rest.length ≤ fuel + 1) :
    Sound (fun d' => d'.rest.length < d.rest.length ∧
      (d.Moves [] [] d' ∨ ∃ x, ReadsStmt d x d')) (Compile.statement (fuel + 1) d) := by
  have hreal : d.peek.kind ≠ .endOfInput := by simpa [Draft.atEnd] using hend
  have hnext := Draft.length_next_lt hreal
  rw [Compile.statement]
  split
  · exact sound_of_simple (sound_declaration ‹_›)
  · exact sound_of_statement (compiling.conditional d hnamed ‹_› (by omega))
  · exact sound_of_statement (compiling.loop d hnamed ‹_› (by omega))
  · split
    · exact sound_at _ _ (by simp [CompileCause.kind]) _
    · rename_i hkind houter
      have houter : d.outer? = none := by simpa using houter
      exact sound_of_statement (compiling.function d hnamed ‹_› houter (by omega))
  · exact sound_of_simple (sound_returnStatement ‹_›)
  · exact ⟨hnext, .inl (Draft.moves_silent ‹_› rfl)⟩
  · exact sound_at _ _ (by simp [CompileCause.kind]) _
  · exact sound_at _ _ (by simp [CompileCause.kind]) _
  · exact sound_at _ _ (by simp [CompileCause.kind]) _
  · exact sound_of_simple (sound_expressionStatement d)

theorem loop_step {d : Draft} (hnamed : d.Named) (hkind : d.peek.kind = .while_)
    (hfuel : 4 * d.next.rest.length + 3 ≤ fuel + 1) :
    Sound (fun d' => ∃ x, ReadsStmt d x d') (whileStatement (fuel + 1) d.next) := by
  have hwhile : d.Moves _ [] d.next := Draft.moves_symbol hkind rfl
  rw [whileStatement]
  dsimp only
  rw [expression_eq]
  apply (readable_expression d.next).bind
  rintro d₁ hexpression ⟨condition, hcondition⟩
  have hlt := length_climb_lt hexpression
  apply d₁.sound_expectLineEnd.bind
  rintro d₂ - hline
  have hle := hline.wrote.length_le
  have hopen := ((hwhile.trans hcondition.moves).trans hline).trans (d₂.moves_emitJump .branch)
  apply (compiling.block [.end_] (d₂.emitJump .branch) (hopen.named hnamed)
    (by rw [Draft.rest_emitJump]; omega)).bind
  rintro d₃ - ⟨body, hbody⟩
  apply (hbody.sound_loop hkind hcondition hline).bind
  rintro d₄ - hloop
  apply (d₄.sound_expectSymbol .end_ rfl).bind
  rintro d₅ - hend
  exact d₅.sound_expectLineEnd.mono fun d₆ hline₆ => ⟨_, hloop d₅ d₆ hend hline₆⟩

theorem function_step {d : Draft} (hnamed : d.Named) (hkind : d.peek.kind = .func)
    (houter : d.outer? = none) (hfuel : 4 * d.next.rest.length + 3 ≤ fuel + 1) :
    Sound (fun d' => ∃ x, ReadsStmt d x d') (functionDefinition (fuel + 1) d.next) := by
  have hfunc : d.Moves _ [] d.next := Draft.moves_symbol hkind rfl
  rw [functionDefinition]
  apply (sound_functionHeader d.next).bind
  rintro d₁ - ⟨params, d₀, hname, harity, hnodup, hheader, rfl⟩
  have hopen := hfunc.trans hheader
  have hle := hheader.wrote.length_le
  have hreserved : d.next.peek.text ≠ topLevel := by
    obtain ⟨rest, hrest⟩ := Draft.rest_eq_cons_of_peek (d := d.next) (by rw [hname]; decide)
    exact hfunc.named hnamed d.next.peek (by rw [hrest]; exact List.mem_cons_self) hname
  have hrest : (d₀.enter d.next.peek.text params).rest = d₀.rest := by
    rw [Draft.enter_eq params hreserved]
  apply (compiling.block [.end_] (d₀.enter d.next.peek.text params)
    (by intro t ht; rw [hrest] at ht; exact hopen.named hnamed t ht) (by rw [hrest]; omega)).bind
  rintro d₂ - ⟨body, hbody⟩
  apply (Draft.sound_expectSymbol _ .end_ rfl).bind
  rintro d₃ - hend
  have hfunction := fun d₄ (hline : d₃.leave.Moves [] [] d₄) => hbody.function hkind houter
    hreserved (hfunc.scope_eq ▸ harity) hnodup hheader hend hline
  rw [(hfunction _ (.refl _)).1, ok_bind]
  exact d₃.leave.sound_expectLineEnd.mono fun d₄ hline => ⟨_, (hfunction d₄ hline).2⟩

theorem arms_step {d d₁ : Draft} {condition : Expr} (jumps : List Nat) (hnamed : d₁.Named)
    (hopen : d.Moves condition.words
      (condition.code d.address ++ [jumpTo .branch unresolvedTarget]) d₁)
    (hfuel : 4 * d₁.rest.length + 2 ≤ fuel + 1) :
    Sound (fun r => ∃ body rest, ReadsArms d condition body rest r.1 ∧
      r.2 = jumps ++ exits d.address (armCodes d.address ((condition, body) :: rest)))
      (Compile.arms (fuel + 1) d₁ (d.address + condition.size) jumps) := by
  rw [Compile.arms]
  apply (compiling.block [.end_, .elif, .else_] d₁ hnamed (by omega)).bind
  rintro d₂ - ⟨body, hbody⟩
  have haddress₂ := hbody.address_of_open hopen
  dsimp only
  apply (hbody.sound_arm hopen).bind
  rintro d₃ hresult harm
  have hrest₃ : d₃.rest = d₂.rest := by rw [Draft.rest_of_patchHere hresult, Draft.rest_emitJump]
  split
  · rename_i hsees
    have hkind := Draft.sees_iff.mp hsees
    have helif : d₃.Moves _ [] d₃.next := Draft.moves_symbol hkind rfl
    have hlt := Draft.length_next_lt (d := d₃) (by rw [hkind]; decide)
    have hle : d₃.rest.length ≤ d₁.rest.length := hrest₃ ▸ hbody.wrote.length_le
    have hnamed₃ : d₃.Named := fun t ht => hbody.wrote.named hnamed t (hrest₃ ▸ ht)
    have haddress₃ : d₃.next.address = d.address + condition.size + 1 + body.size + 1 := by
      rw [helif.address_eq, harm.wrote.address_eq]
      simp
      omega
    rw [expression_eq]
    apply (readable_expression d₃.next).bind
    rintro d₄ hexpression ⟨condition', hcondition'⟩
    have hlt₄ := length_climb_lt hexpression
    apply (d₄.emitJump .branch).sound_expectLineEnd.bind
    rintro d₅ - hline
    have hopen' := (hcondition'.moves.trans (d₄.moves_emitJump .branch)).trans hline
    have hle₅ := hline.wrote.length_le
    rw [Draft.rest_emitJump] at hle₅
    have hbranch : d₄.address = d₃.next.address + condition'.size := by
      rw [hcondition'.moves.address_eq, condition'.length_code]
    rw [hbranch]
    refine (compiling.arms d₃.next d₅ condition' (jumps ++ [d₂.address])
      (hopen'.named (helif.named hnamed₃)) hcondition'.inScope (by simpa using hopen')
      (by omega)).mono ?_
    rintro ⟨d₆, jumps'⟩ ⟨body', rest, harms, hjumps⟩
    refine ⟨body, (condition', body') :: rest, harm.cons hkind hcondition'.inScope harms, ?_⟩
    rw [hjumps, haddress₂, haddress₃, exits_armCodes d.address, List.append_assoc,
      List.singleton_append]
  · refine ⟨body, [], harm.last, ?_⟩
    rw [haddress₂, exits_armCodes]
    rfl

theorem conditional_step {d : Draft} (hnamed : d.Named) (hkind : d.peek.kind = .if_)
    (hfuel : 4 * d.next.rest.length + 3 ≤ fuel + 1) :
    Sound (fun d' => ∃ x, ReadsStmt d x d') (ifStatement (fuel + 1) d.next) := by
  have hif : d.Moves _ [] d.next := Draft.moves_symbol hkind rfl
  have haddress : d.next.address = d.address := hif.address_eq
  rw [ifStatement_succ, expression_eq]
  apply (readable_expression d.next).bind
  rintro d₁ hexpression ⟨condition, hcondition⟩
  have hlt := length_climb_lt hexpression
  have hscoped : condition.Scoped d.scope := hif.scope_eq ▸ hcondition.inScope
  have hbranch : d₁.address = d.next.address + condition.size := by
    rw [hcondition.moves.address_eq, condition.length_code]
  have hopen := hcondition.moves.trans (d₁.moves_emitJump .branch)
  split
  · rename_i hsees
    apply (sound_inlineStatement _).bind
    rintro d₂ - ⟨x, hx⟩
    refine (ReadsStmt.when hkind hcondition (Draft.sees_iff.mp hsees) hx).mono fun d₃ h => ?_
    exact ⟨_, h⟩
  · apply (d₁.emitJump .branch).sound_expectLineEnd.bind
    rintro d₂ - hline
    have hle := hline.wrote.length_le
    rw [Draft.rest_emitJump] at hle
    have hfirst := hopen.trans hline
    rw [hbranch]
    apply (compiling.arms d.next d₂ condition [] (hfirst.named (hif.named hnamed))
      hcondition.inScope (by simpa using hfirst) (by omega)).bind
    rintro ⟨d₃, jumps⟩ - ⟨body, rest, harms, hjumps⟩
    dsimp only at harms hjumps ⊢
    have hlast : Sound (fun d₄ => ∃ last : Arms, last.Scoped d₃.scope ∧
        (∀ a ending ending', last.code a ending = last.code a ending') ∧
        d₃.Wrote last.words (last.code d₃.address unresolvedTarget) (last.after d₃.scope)
          (last.definitions d₃.scope) d₄)
        (elseBlock fuel d₃) := by
      unfold elseBlock
      split
      · rename_i hsees
        have helse := Draft.moves_symbol (Draft.sees_iff.mp hsees) rfl
        apply d₃.next.sound_expectLineEnd.bind
        rintro d₄ - hline₄
        have hbefore := helse.trans hline₄
        have hnamed₄ := hbefore.named (harms.wrote.named (hif.named hnamed))
        have hle₃ := harms.wrote.length_le
        have hle₄ := hline₄.wrote.length_le
        have hlt₃ := Draft.length_next_lt (d := d₃) (by rw [Draft.sees_iff.mp hsees]; decide)
        refine (compiling.block [.end_] d₄ hnamed₄ (by omega)).mono ?_
        rintro d₅ ⟨otherwise, hotherwise⟩
        refine ⟨.otherwise otherwise, ?_, fun _ _ _ => rfl, ?_⟩
        · rw [Arms.Scoped, ← hbefore.scope_eq]
          exact hotherwise.inScope
        · have hall := hbefore.andWrote hotherwise.wrote
          rw [hbefore.address_eq, hbefore.scope_eq] at hall
          simpa [Arms.words, Arms.code, Arms.after, Arms.definitions] using hall
      · exact ⟨.done, trivial, fun _ _ _ => rfl, (Draft.Moves.refl d₃).wrote⟩
    apply hlast.bind
    rintro d₄ - ⟨last, hlastScoped, hlastCode, hlastWrote⟩
    apply (d₄.sound_expectSymbol .end_ rfl).bind
    rintro d₅ - hend
    have hclosed := hlastWrote.moves hend
    rw [List.append_nil] at hclosed
    have hpatch := (harms.wrote.trans hclosed).sound_patchAllHere
    rw [← List.nil_append (exits _ _), ← hjumps] at hpatch
    apply hpatch.bind
    intro d₆ hresult hpatched
    rw [hjumps, List.nil_append] at hresult
    have hchoose := harms.choose hkind hscoped hclosed hlastScoped hlastCode hresult
    refine d₆.sound_expectLineEnd.mono fun d₇ hline₇ =>
      ⟨.choose condition body (Arms.ofList rest last), ?_, hchoose.inScope⟩
    have hall := hchoose.wrote.moves hline₇
    simpa using hall

end Compiling

/-- Each bound follows from the one before, since every function hands a smaller
bound on. -/
theorem compiling (fuel : Nat) : Compiling fuel := by
  induction fuel with
  | zero =>
      refine ⟨?_, ?_, ?_, ?_, ?_, ?_⟩ <;> intros
      · omega
      · rename_i d hnamed hend hfuel
        have hreal : d.peek.kind ≠ .endOfInput := by simpa [Draft.atEnd] using hend
        have := Draft.length_next_lt hreal
        omega
      all_goals omega
  | succ fuel ih =>
      exact {
        block := fun enders _ hnamed hfuel => ih.block_step enders hnamed hfuel
        statement := fun _ hnamed hend hfuel => ih.statement_step hnamed hend hfuel
        conditional := fun _ hnamed hkind hfuel => ih.conditional_step hnamed hkind hfuel
        arms := fun _ _ _ jumps hnamed _ hopen hfuel => ih.arms_step jumps hnamed hopen hfuel
        loop := fun _ hnamed hkind hfuel => ih.loop_step hnamed hkind hfuel
        function := fun _ hnamed hkind houter hfuel => ih.function_step hnamed hkind houter hfuel }

/-- Statements that nothing but the end of the input ends go on to it. -/
theorem atEnd_of_blockWith {fuel : Nat} {d d' : Draft} (h : blockWith fuel [] d = .ok d') :
    d'.atEnd = true := by
  induction fuel generalizing d with
  | zero => cases h
  | succ fuel ih =>
      rw [blockWith] at h
      split at h
      · rename_i hend
        cases h
        simpa using hend
      · split at h
        · exact ih h
        · cases h

end LineScript.Compile

namespace LineScript.Compiler

open LineScript.Code LineScript.Tree LineScript.Compile

/-! ## Programs -/

/-- The names that a script can use from its beginning. -/
def scope (c : Compiler) : Scope := (c.draft []).scope

/-- The shapes of the functions of the prelude. -/
def shapes (c : Compiler) : String → Option Shape := (c.draft []).shapes

/-- How many arguments a name takes when a program calls it: a function of the program
goes first, then a host function. The top level cannot be called. -/
def arity? (c : Compiler) (p : Program) (name : String) : Option Nat :=
  match if name = topLevel then none else p.functions.get? name with
  | some f => some f.arity
  | none => (c.natives.get? name).map List.length

/-- A program is what a tree is compiled to: its top level has the code of the
statements, and its functions are those of the prelude and those the tree defines. -/
structure Compiles (c : Compiler) (b : Block) (p : Program) : Prop where
  inScope : b.Scoped c.scope
  arity_eq : (b.after c.scope).arity = c.arity? p
  main : p.main?.map Function.shape = some ⟨[], (b.after c.scope).own, b.code 0⟩
  functions : ∀ name, name ≠ topLevel →
    (p.function? name).map Function.shape =
      (b.definitions c.scope).foldl Definition.install c.shapes name

/-- A compilation begins with an empty top level. -/
theorem draft_code (c : Compiler) (tokens : List Token) :
    (c.draft tokens).code = [] ∧ (c.draft tokens).body.params? = some [] := by
  obtain ⟨scope, hnew⟩ := Function.new_eq topLevel []
  have hbody : ∃ scope, (c.draft tokens).body =
      ({ name := topLevel, params? := some [], scope := scope } : Function) := by
    obtain ⟨scope', hfold⟩ := Function.foldl_declare_eq _ (.new topLevel [])
    exact ⟨scope', hfold.trans (by rw [hnew])⟩
  obtain ⟨scope', hbody⟩ := hbody
  unfold Draft.code
  rw [hbody]
  exact ⟨rfl, rfl⟩

theorem install_of_ne {definitions : List Definition} (table : String → Option Shape) {name : String}
    (h : ∀ f ∈ definitions, f.name ≠ name) :
    definitions.foldl Definition.install table name = table name := by
  induction definitions generalizing table with
  | nil => rfl
  | cons f rest ih =>
      rw [List.foldl_cons, ih _ fun g hg => h g (List.mem_cons_of_mem _ hg)]
      exact if_neg fun hname => h f List.mem_cons_self hname.symm

/-- The top level is never among the functions that can be called. -/
theorem functions_topLevel {c : Compiler} {tokens : List Token} {b : Block} {d : Draft}
    (h : ReadsBlock (c.draft tokens) b d) : d.functions.get? topLevel = none := by
  have hnames : ∀ f ∈ b.definitions (c.draft tokens).scope, f.name ≠ topLevel := fun f hf =>
    (b.definitions_within _ h.inScope (Scope.within_refl _) f hf).1
  have hshapes := congrFun h.wrote.shapes_eq topLevel
  rw [install_of_ne _ hnames] at hshapes
  have hnone : (c.draft tokens).shapes topLevel = none := by
    unfold Draft.shapes draft
    rw [Dict.get?_erase_self]
    rfl
  rw [hnone] at hshapes
  exact Option.map_eq_none_iff.mp hshapes

/-- The program of a draft to which statements were added is what their tree is
compiled to. -/
theorem compiles_program {c : Compiler} {tokens : List Token} {b : Block} {d : Draft}
    (h : ReadsBlock (c.draft tokens) b d) : c.Compiles b d.program := by
  obtain ⟨hcode, hparams⟩ := c.draft_code tokens
  have haddress : (c.draft tokens).address = 0 := by
    rw [← Draft.length_code, hcode]
    rfl
  refine ⟨h.inScope, ?_, ?_, ?_⟩
  · have hnatives : d.natives = c.natives := by
      have := congrArg (fun x : Draft => x.natives) h.wrote.kept_eq
      exact this
    have harity : (b.after c.scope).arity = d.arity? := by
      have := congrArg Scope.arity h.wrote.scope_eq
      exact this.symm
    rw [harity]
    funext name
    symm
    unfold arity? Draft.program
    by_cases hname : name = topLevel
    · unfold Draft.arity?
      rw [if_pos hname, hname, functions_topLevel h, hnatives]
    · rw [if_neg hname, Dict.get?_insert_of_ne _ _ hname, ← hnatives]
      rfl
  · have hparams' : d.body.params? = some [] := by
      have := congrArg (fun x : Draft => x.body.params?) h.wrote.kept_eq
      exact this.trans hparams
    have hcode' : d.code = b.code 0 := by rw [h.wrote.code_eq, hcode, haddress]; rfl
    have hown : d.body.declares = (b.after c.scope).own := by
      have := congrArg Scope.own h.wrote.scope_eq
      exact this
    unfold Draft.program Program.main?
    rw [Dict.get?_insert_self, Option.map_some, Function.shape, Function.params, hparams', hown,
      ← hcode']
    rfl
  · intro name hname
    unfold Draft.program Program.function?
    rw [Dict.get?_insert_of_ne _ _ hname]
    exact congrFun h.wrote.shapes_eq name

/-- Compiling tokens gives a program that some well-scoped tree is compiled to, or an
error that is the script's own fault. The tree has the words of all tokens up to an end
of input. -/
theorem sound_compile_upTo (c : Compiler) {tokens : List Token}
    (hnames : ∀ t ∈ tokens, t.kind = .identifier → t.text ≠ topLevel) :
    Sound (fun p => ∃ b read rest, tokens = read ++ rest ∧
        (∀ t, rest.head? = some t → t.kind = .endOfInput) ∧
        b.words = Word.ofTokens read ∧ c.Compiles b p) (c.compile tokens) := by
  have hblock := (compiling (4 * (c.draft tokens).rest.length + 4)).block [] (c.draft tokens)
    hnames (by omega)
  unfold compile block
  apply hblock.bind
  rintro d hresult ⟨b, hb⟩
  have hresolved : d.checkResolved = .ok d := by
    apply Draft.checkResolved_of_code
    rw [hb.wrote.code_eq, (c.draft_code tokens).1]
    exact b.resolved_code _
  rw [hresolved]
  obtain ⟨read, hread, hwords⟩ := hb.wrote.tokens
  refine ⟨b, read, d.rest, hread, fun t ht => ?_, hwords.symm, compiles_program hb⟩
  obtain ⟨rest, hd⟩ := List.head?_eq_some_iff.mp ht
  simpa [Draft.atEnd, Draft.peek_of_cons hd] using atEnd_of_blockWith hresult

/-- Without an end of input among the tokens, the tree has the words of all. -/
theorem sound_compile (c : Compiler) {tokens : List Token}
    (hnames : ∀ t ∈ tokens, t.kind = .identifier → t.text ≠ topLevel)
    (hreal : ∀ t ∈ tokens, t.kind ≠ .endOfInput) :
    Sound (fun p => ∃ b, b.words = Word.ofTokens tokens ∧ c.Compiles b p) (c.compile tokens) := by
  refine (c.sound_compile_upTo hnames).mono ?_
  rintro p ⟨b, read, rest, htokens, hend, hwords, hcompiles⟩
  refine ⟨b, ?_, hcompiles⟩
  cases rest with
  | nil => rw [hwords, htokens, List.append_nil]
  | cons t rest => exact absurd (hend t rfl) (hreal t (by simp [htokens]))

end LineScript.Compiler
