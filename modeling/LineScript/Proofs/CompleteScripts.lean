/-
# A script that compiles has complete calls

From statement to statement the compiler knows one function more, and the tokens define
one less. So the arities that count for a script can be read off its tokens, and every
call of a script that compiles has the arguments that they ask for. This also says which
beginnings of a script are lost: those with an open call that cannot get its arguments
any more.
-/

import LineScript.Proofs.CompleteCalls
import LineScript.Proofs.Entries

namespace LineScript.Compile

open LineScript.Code

namespace Draft

variable {d d₁ d' : Draft}

/-! ## Steps between expressions -/

theorem clears_expression (h : expression d = .ok d') : d.Clears d' :=
  (passes_expression h).clears

/-- A token of a kind that begins neither a name nor a function goes by. -/
theorem skips_expect {kind : TokenKind} (h : d.expect kind = .ok d') (hname : kind ≠ .identifier)
    (hfunc : kind ≠ .func) : d.Skips d' := by
  obtain ⟨hkind, rfl⟩ := expect_eq_ok h
  exact skips_next (hkind ▸ hfunc) fun h => absurd (hkind.symm.trans h) hname

theorem skips_expectLineEnd (h : d.expectLineEnd = .ok d') : d.Skips d' := by
  unfold expectLineEnd at h
  split at h
  · cases h
    exact .refl d
  · exact skips_expect h (by decide) (by decide)

theorem skips_patchHere {address : Nat} (h : d.patchHere address = .ok d') : d.Skips d' := by
  obtain ⟨body, -, rfl⟩ := patchHere_eq_ok h
  exact .of_eq rfl rfl

theorem skips_patchAllHere {d d' : Draft} {addresses : List Nat}
    (h : d.patchAllHere addresses = .ok d') : d.Skips d' := by
  induction addresses generalizing d with
  | nil =>
      cases h
      exact .refl _
  | cons address rest ih =>
      rw [patchAllHere_cons] at h
      obtain ⟨d₁, hpatch, h⟩ := bind_eq_ok h
      exact (skips_patchHere hpatch).trans (ih h)

theorem eq_of_checkResolved (h : d.checkResolved = .ok d') : d' = d := by
  unfold checkResolved at h
  split at h
  · exact (Except.ok.inj h).symm
  · cases h

/-- A name and the token behind it go by. -/
theorem skips_name {kind : TokenKind} (hname : d.peek.kind = .identifier)
    (hkind : d.peekSecond.kind = kind) (hopen : kind ≠ .leftParen) (hident : kind ≠ .identifier)
    (hfunc : kind ≠ .func) : d.Skips d.next.next := by
  have hsecond : d.next.peek.kind = kind := by rw [peek_next]; exact hkind
  have hfirst : d.Skips d.next := skips_next (by rw [hname]; decide) fun _ => by rwa [hkind]
  exact hfirst.trans (skips_next (by rwa [hsecond]) fun h => absurd (hsecond.symm.trans h) hident)

end Draft

open Draft (skips_expect skips_expectLineEnd skips_patchHere skips_name clears_expression)

variable {d d' : Draft}

/-! ## Simple statements -/

theorem clears_expressionStatement (h : expressionStatement d = .ok d') : d.Clears d' := by
  obtain ⟨d₁, hexpression, h⟩ := bind_eq_ok h
  have hemit : d₁.Skips (d₁.emit .pop) := .of_eq rfl rfl
  exact (clears_expression hexpression).trans (hemit.trans (skips_expectLineEnd h)).clears

theorem clears_elementAssignment {name : String} (h : elementAssignment d name = .ok d') :
    d.Clears d' := by
  obtain ⟨d₁, hposition, h⟩ := bind_eq_ok h
  obtain ⟨d₂, hclose, h⟩ := bind_eq_ok h
  obtain ⟨d₃, hequal, h⟩ := bind_eq_ok h
  obtain ⟨d₄, hvalue, h⟩ := bind_eq_ok h
  have hload : d.Skips (d.emitName .load name) := .of_eq rfl rfl
  have hopen := (hload.trans (Draft.skips_skipLineBreaks _)).clears
  have hmiddle := (d₁.skips_skipLineBreaks.trans (skips_expect hclose (by decide) (by decide))).trans
    (skips_expect hequal (by decide) (by decide))
  have hput : d₄.Skips (d₄.emit .put) := .of_eq rfl rfl
  exact ((hopen.trans (clears_expression hposition)).trans hmiddle.clears).trans
    ((clears_expression hvalue).trans (hput.trans (skips_expectLineEnd h)).clears)

theorem clears_memberAssignment {name : String} (h : memberAssignment d name = .ok d') :
    d.Clears d' := by
  obtain ⟨⟨member, d₁⟩, hmember, h⟩ := bind_eq_ok h
  obtain ⟨hname, heq⟩ := Draft.expectText_eq_ok hmember
  obtain ⟨rfl, rfl⟩ := Prod.mk.inj heq
  dsimp only at h
  obtain ⟨d₂, hexpect, h⟩ := bind_eq_ok h
  obtain ⟨hequal, rfl⟩ := Draft.expect_eq_ok hexpect
  obtain ⟨d₃, hvalue, h⟩ := bind_eq_ok h
  have hload : d.Skips (d.emitName .load name) := .of_eq rfl rfl
  have hset : d₃.Skips ((d₃.emitName .set (d.emitName .load name).peek.text).emit .pop) :=
    .of_eq rfl rfl
  rw [Draft.peek_next] at hequal
  have hopen := hload.trans (skips_name hname hequal (by decide) (by decide) (by decide))
  exact hopen.clears.trans
    ((clears_expression hvalue).trans (hset.trans (skips_expectLineEnd h)).clears)

theorem clears_assignment {name : String} {visible : Bool}
    (h : assignment d name visible = .ok d') : d.Clears d' := by
  obtain ⟨d₁, hvalue, h⟩ := bind_eq_ok h
  have hstore : d₁.Skips ((if visible then d₁ else d₁.declare name).emitName .store name) := by
    split
    · exact .of_eq rfl rfl
    · exact .of_eq rfl rfl
  exact (clears_expression hvalue).trans (hstore.trans (skips_expectLineEnd h)).clears

theorem clears_declaration (hname : d.peek.kind = .identifier) (h : declaration d = .ok d') :
    d.Clears d' := by
  unfold declaration at h
  dsimp only at h
  split at h
  · rename_i hsecond
    exact (skips_name hname hsecond (by decide) (by decide) (by decide)).clears.trans
      (clears_assignment h)
  · rename_i hsecond
    exact (skips_name hname hsecond (by decide) (by decide) (by decide)).clears.trans
      (clears_elementAssignment (of_ite_eq_ok h))
  · rename_i hsecond
    exact (skips_name hname hsecond (by decide) (by decide) (by decide)).clears.trans
      (clears_memberAssignment (of_ite_eq_ok h))
  · exact clears_expressionStatement h

theorem clears_returnStatement (hkind : d.peek.kind = .return_) (h : returnStatement d = .ok d') :
    d.Clears d' := by
  have hreturn : d.Skips d.next := Draft.skips_next (by rw [hkind]; decide) (by rw [hkind]; nofun)
  unfold returnStatement at h
  dsimp only at h
  split at h
  · cases h
    have hret : d.next.Skips ((d.next.emitValue .null).emit .ret) := .of_eq rfl rfl
    exact (hreturn.trans hret).clears
  split at h
  · rename_i hsees
    have hbreak := Draft.sees_iff.mp hsees
    cases h
    have hline : d.next.Skips d.next.next :=
      Draft.skips_next (by rw [hbreak]; decide) (by rw [hbreak]; nofun)
    have hret : d.next.next.Skips ((d.next.next.emitValue .null).emit .ret) := .of_eq rfl rfl
    exact ((hreturn.trans hline).trans hret).clears
  · obtain ⟨d₁, hvalue, h⟩ := bind_eq_ok h
    obtain ⟨d₂, hline, h⟩ := bind_eq_ok h
    cases h
    have hret : d₂.Skips (d₂.emit .ret) := .of_eq rfl rfl
    exact (hreturn.clears.trans (clears_expression hvalue)).trans
      ((skips_expectLineEnd hline).trans hret).clears

theorem clears_inlineStatement (h : inlineStatement d = .ok d') : d.Clears d' := by
  unfold inlineStatement at h
  split at h
  · exact clears_declaration ‹_› h
  · exact clears_returnStatement ‹_› h
  · exact clears_expressionStatement h

/-! ## Functions -/

theorem parameterCount?_dropWhile (tokens : List Token) :
    parameterCount? (tokens.dropWhile fun t => t.kind = .lineBreak) = parameterCount? tokens := by
  induction tokens with
  | nil => rfl
  | cons t rest ih =>
      by_cases hkind : t.kind = .lineBreak
      · rw [List.dropWhile_cons_of_pos (by simpa using hkind), ih, parameterCount?,
          if_neg (by rw [hkind]; decide), if_neg (by rw [hkind]; decide)]
      · rw [List.dropWhile_cons_of_neg (by simpa using hkind)]

/-- The parameters of a function are as many as there are names up to the parenthesis. -/
theorem skips_parameters {fuel : Nat} {names : List String} {r : Draft × List String}
    (h : parameters fuel d names = .ok r) (hclose : r.1.peek.kind = .rightParen) :
    d.Skips r.1 ∧ ∃ count, r.2.length = names.length + count ∧
      parameterCount? d.rest = (parameterCount? r.1.rest).map (· + count) := by
  induction fuel generalizing d names with
  | zero => cases h
  | succ fuel ih =>
      unfold parameters at h
      dsimp only at h
      by_cases hname : d.peek.kind = .identifier
      · rw [if_pos hname] at h
        have hcount : parameterCount? d.rest = (parameterCount? d.next.rest).map (· + 1) := by
          obtain ⟨rest, hrest⟩ := Draft.rest_eq_cons_of_peek (d := d) (by rw [hname]; decide)
          rw [Draft.rest_next, hrest, parameterCount?, if_neg (by rw [hname]; decide), if_pos hname]
          rfl
        have hfirst : d.next.peek.kind ≠ .leftParen → d.Skips d.next := fun hopen =>
          Draft.skips_next (by rw [hname]; decide) fun _ => by rwa [← Draft.peek_next]
        split at h
        · cases h
        split at h
        · rename_i hsees
          have hcomma := Draft.sees_iff.mp hsees
          obtain ⟨hskips, count, hlength, hparams⟩ := ih h
          have hseparator : d.next.Skips d.next.next.skipLineBreaks :=
            (Draft.skips_next (by rw [hcomma]; decide) (by rw [hcomma]; intro h; cases h)).trans
              d.next.next.skips_skipLineBreaks
          have hsame : parameterCount? d.next.next.skipLineBreaks.rest = parameterCount? d.next.rest := by
            obtain ⟨rest, hrest⟩ := Draft.rest_eq_cons_of_peek (d := d.next) (by rw [hcomma]; decide)
            rw [Draft.rest_skipLineBreaks, parameterCount?_dropWhile, Draft.rest_next, hrest,
              parameterCount?, if_neg (by rw [hcomma]; decide), if_neg (by rw [hcomma]; decide)]
            rfl
          refine ⟨((hfirst (by rw [hcomma]; decide)).trans hseparator).trans hskips, count + 1, ?_, ?_⟩
          · rw [hlength, List.length_cons]
            omega
          · rw [hcount, ← hsame, hparams, Option.map_map]
            rfl
        · cases h
          refine ⟨hfirst (by rw [hclose]; decide), 1, ?_, hcount⟩
          rw [List.length_reverse, List.length_cons]
      · rw [if_neg hname] at h
        cases h
        refine ⟨.refl d, 0, List.length_reverse, ?_⟩
        cases parameterCount? d.rest <;> rfl

/-- The arity that a function gets when it is entered. -/
theorem Draft.arity?_enter {name : String} (params : List String) (hname : name ≠ topLevel)
    (n : String) :
    (d.enter name params).arity? n = if n = name then some params.length else d.arity? n := by
  have harity := congrArg Tree.Scope.arity (d.scope_enter params hname)
  exact congrFun harity n

/-- The header of a function defines it: where the tokens defined the function before, it
is known afterwards. -/
theorem clears_functionHeader (hkind : d.peek.kind = .func) (hnamed : d.Named)
    (h : functionHeader d.next = .ok d') : d.Clears d' := by
  obtain ⟨d₁, hname, h⟩ := bind_eq_ok h
  obtain ⟨hident, rfl⟩ := Draft.expect_eq_ok hname
  split at h
  · cases h
  rename_i hnew
  obtain ⟨d₂, hopen, h⟩ := bind_eq_ok h
  obtain ⟨⟨d₃, params⟩, hparams, h⟩ := bind_eq_ok h
  dsimp only at h
  obtain ⟨d₄, hclose, h⟩ := bind_eq_ok h
  obtain ⟨d₅, hline, h⟩ := bind_eq_ok h
  cases h
  obtain ⟨hparen, rfl⟩ := Draft.expect_eq_ok hopen
  obtain ⟨hclosed, rfl⟩ := Draft.expect_eq_ok hclose
  obtain ⟨hskips, count, hlength, hcount⟩ := skips_parameters hparams hclosed
  dsimp only at hclosed hskips hlength hcount
  -- The tokens of the header, as far as the parameters.
  obtain ⟨rest₁, hrest⟩ := Draft.rest_eq_cons_of_peek (d := d) (by rw [hkind]; decide)
  have hrest₁ : d.next.rest = rest₁ := by rw [Draft.rest_next, hrest]; rfl
  obtain ⟨rest₂, hcons₁⟩ := Draft.rest_eq_cons_of_peek (d := d.next) (by rw [hident]; decide)
  have hrest₂ : d.next.next.rest = rest₂ := by rw [Draft.rest_next, hcons₁]; rfl
  obtain ⟨rest₃, hcons₂⟩ := Draft.rest_eq_cons_of_peek (d := d.next.next) (by rw [hparen]; decide)
  have hrest₃ : d.next.next.next.rest = rest₃ := by rw [Draft.rest_next, hcons₂]; rfl
  obtain ⟨rest₄, hcons₃⟩ := Draft.rest_eq_cons_of_peek (d := d₃) (by rw [hclosed]; decide)
  have htokens : d.rest = d.peek :: d.next.peek :: d.next.next.peek :: rest₃ := by
    rw [hrest, ← hrest₁, hcons₁, ← hrest₂, hcons₂]
  have hinner : d.next.next.next.Skips d₅ :=
    (hskips.trans (skips_expect hclose (by decide) (by decide))).trans (skips_expectLineEnd hline)
  have hnames : d.next.peek.text ≠ topLevel :=
    hnamed d.next.peek (by rw [htokens]; simp) hident
  have hparams : parameterCount? rest₃ = some params.length := by
    rw [← hrest₃, hcount, hcons₃, parameterCount?, if_pos hclosed, hlength]
    simp
  have harity : d₅.arity? = d.arity? := by
    rw [hinner.arity?_eq, Draft.arity?_eq_of_frame (Draft.frame_next _),
      Draft.arity?_eq_of_frame (Draft.frame_next _), Draft.arity?_eq_of_frame d.frame_next]
  have hopened : d.next.next.Skips d₅ :=
    (Draft.skips_next (by rw [hparen]; decide) (by rw [hparen]; intro h; cases h)).trans hinner
  have hparenFunc : d.next.next.peek.kind ≠ .func := by rw [hparen]; decide
  refine ⟨?_, ⟨[], ?_, List.forall_mem_nil _⟩, ?_⟩
  · funext n
    have hdeclared : declared? n d₅.rest = declared? n rest₃ := by
      rw [hinner.declared?_eq, hrest₃]
    unfold Draft.table
    rw [Draft.arity?_enter params hnames, rest_enter, hdeclared, harity, htokens, declared?]
    by_cases hn : n = d.next.peek.text
    · subst hn
      have hnone : d.arity? d.next.peek.text = none := by
        rw [← Draft.arity?_eq_of_frame (d.next.frame_next.trans d.frame_next)]
        exact Option.not_isSome_iff_eq_none.mp hnew
      rw [if_pos rfl, hnone, if_pos (by simp [hkind])]
      exact hparams.symm
    · have hne : d.next.peek.text ≠ n := fun h => hn h.symm
      rw [if_neg hn, if_neg (by simp [hne]),
        Draft.declared?_of_ne (by rw [hident]; decide), Draft.declared?_of_ne hparenFunc]
  · rw [rest_enter, hopened.calls_eq, hrest₂, hrest, ← hrest₁, hcons₁]
    exact calls_func hkind _
  · rw [rest_enter]
    refine List.Subset.trans hopened.rest_subset ?_
    rw [hrest₂, hrest, ← hrest₁, hcons₁]
    exact List.Subset.trans (List.subset_cons_self _ _) (List.subset_cons_self _ _)

/-- The function that is being compiled can be called with its parameters. -/
def Draft.Entered (d : Draft) : Prop :=
  ∃ f, d.functions.get? d.body.name = some f ∧ f.arity = d.body.arity

theorem Draft.entered_enter (d : Draft) {name : String} (params : List String)
    (hname : name ≠ topLevel) : (d.enter name params).Entered := by
  obtain ⟨scope, hnew⟩ := Function.new_eq name params
  rw [enter_eq params hname]
  refine ⟨_, ?_, rfl⟩
  rw [hnew]
  exact Dict.get?_insert_self _ _ _

/-- As long as a function is being compiled, it can be called with its parameters. -/
theorem Draft.entered_step {tokens : List Token} {d d' : Draft}
    (h : d.outer?.isSome = true → d.Entered) (hstep : Draft.Step tokens d d') :
    d'.outer?.isSome = true → d'.Entered := by
  cases hstep with
  | next =>
      unfold Draft.next
      split <;> exact h
  | patchHere hpatch =>
      obtain ⟨body, hbody, rfl⟩ := patchHere_eq_ok hpatch
      rw [Function.eq_of_patchHere hbody]
      exact h
  | declare =>
      unfold Draft.declare Function.declare
      split <;> exact h
  | enter houter hreserved => exact fun _ => d.entered_enter _ hreserved
  | leave =>
      unfold Draft.leave
      split
      · rename_i houter
        rw [houter]
        nofun
      · nofun
  | emit | emitValue | emitName | emitJump | emitJumpTo => exact h

theorem Draft.arity?_leave (h : d.Entered) : d.leave.arity? = d.arity? := by
  obtain ⟨f, hf, harity⟩ := h
  unfold Draft.leave
  split
  · rfl
  · funext n
    unfold Draft.arity?
    dsimp only
    by_cases hn : n = d.body.name
    · subst hn
      rw [Dict.get?_insert_self, hf]
      dsimp only
      rw [harity]
    · rw [Dict.get?_insert_of_ne _ _ hn]

/-! ## Nested statements -/

/-- With the given bound on the depth, statements that are accepted have right calls. -/
structure Accepting (fuel : Nat) : Prop where
  block : ∀ {enders : List TokenKind} {d d' : Draft}, d.Named →
    blockWith fuel enders d = .ok d' → d.Clears d'
  statement : ∀ {d d' : Draft}, d.Named → statement fuel d = .ok d' → d.Clears d'
  conditional : ∀ {d d' : Draft}, d.Named → ifStatement fuel d = .ok d' → d.Clears d'
  arms : ∀ {d : Draft} {branch : Nat} {jumps : List Nat} {r : Draft × List Nat}, d.Named →
    arms fuel d branch jumps = .ok r → d.Clears r.1
  loop : ∀ {d d' : Draft}, d.Named → whileStatement fuel d = .ok d' → d.Clears d'
  function : ∀ {d d' : Draft}, d.Named → d.peek.kind = .func →
    functionDefinition fuel d.next = .ok d' → d.Clears d'

theorem Draft.Clears.named (h : d.Clears d') (hnamed : d.Named) : d'.Named :=
  fun t ht => hnamed t (h.rest_subset ht)

namespace Accepting

variable {fuel : Nat} (accepting : Accepting fuel) (hnamed : d.Named)
include accepting hnamed

theorem block_step {enders : List TokenKind} (h : blockWith (fuel + 1) enders d = .ok d') :
    d.Clears d' := by
  rw [blockWith_succ] at h
  split at h
  · cases h
    exact .refl d
  · obtain ⟨d₁, hstatement, h⟩ := bind_eq_ok h
    have hfirst := accepting.statement hnamed hstatement
    exact hfirst.trans (accepting.block (hfirst.named hnamed) h)

theorem statement_step (h : Compile.statement (fuel + 1) d = .ok d') : d.Clears d' := by
  have hnext : d.peek.kind ≠ .func → d.peek.kind ≠ .identifier → d.Clears d.next :=
    fun hfunc hname => (Draft.skips_next hfunc fun h => absurd h hname).clears
  unfold Compile.statement at h
  dsimp only at h
  cases hkind : d.peek.kind
  all_goals rw [hkind] at h hnext
  case identifier => exact clears_declaration hkind h
  case if_ =>
    have hif := hnext (by decide) (by decide)
    exact hif.trans (accepting.conditional (hif.named hnamed) h)
  case while_ =>
    have hwhile := hnext (by decide) (by decide)
    exact hwhile.trans (accepting.loop (hwhile.named hnamed) h)
  case func =>
    dsimp only at h
    split at h
    · cases h
    · exact accepting.function hnamed hkind h
  case return_ => exact clears_returnStatement hkind h
  case lineBreak =>
    cases h
    exact hnext (by decide) (by decide)
  case end_ | elif | else_ => cases h
  all_goals exact clears_expressionStatement h

theorem loop_step (h : whileStatement (fuel + 1) d = .ok d') : d.Clears d' := by
  unfold whileStatement at h
  obtain ⟨d₁, hcondition, h⟩ := bind_eq_ok h
  obtain ⟨d₂, hline, h⟩ := bind_eq_ok h
  obtain ⟨d₃, hblock, h⟩ := bind_eq_ok h
  obtain ⟨d₄, hpatch, h⟩ := bind_eq_ok h
  obtain ⟨d₅, hend, h⟩ := bind_eq_ok h
  have hbranch : d₂.Skips (d₂.emitJump .branch) := .of_eq rfl rfl
  have hhead := (clears_expression hcondition).trans
    ((skips_expectLineEnd hline).trans hbranch).clears
  have hbody := accepting.block (hhead.named hnamed) hblock
  have hback : d₃.Skips (d₃.emitJumpTo .jump d.address) := .of_eq rfl rfl
  have htail := ((hback.trans (skips_patchHere hpatch)).trans
    (skips_expect hend (by decide) (by decide))).trans (skips_expectLineEnd h)
  exact (hhead.trans hbody).trans htail.clears

theorem arms_step {branch : Nat} {jumps : List Nat} {r : Draft × List Nat}
    (h : Compile.arms (fuel + 1) d branch jumps = .ok r) : d.Clears r.1 := by
  unfold Compile.arms at h
  obtain ⟨d₁, hblock, h⟩ := bind_eq_ok h
  obtain ⟨d₂, hpatch, h⟩ := bind_eq_ok h
  have hbody := accepting.block hnamed hblock
  have hjump : d₁.Skips (d₁.emitJump .jump) := .of_eq rfl rfl
  have harm := hbody.trans (hjump.trans (skips_patchHere hpatch)).clears
  split at h
  · rename_i hsees
    have hkind := Draft.sees_iff.mp hsees
    obtain ⟨d₃, hcondition, h⟩ := bind_eq_ok h
    obtain ⟨d₄, hline, h⟩ := bind_eq_ok h
    have helif : d₂.Skips d₂.next := Draft.skips_next (by rw [hkind]; decide) (by rw [hkind]; intro h; cases h)
    have hbranch : d₃.Skips (d₃.emitJump .branch) := .of_eq rfl rfl
    have hhead := ((harm.trans helif.clears).trans (clears_expression hcondition)).trans
      (hbranch.trans (skips_expectLineEnd hline)).clears
    exact hhead.trans (accepting.arms (hhead.named hnamed) h)
  · cases h
    exact harm

theorem elseBlock_step (h : elseBlock fuel d = .ok d') : d.Clears d' := by
  unfold elseBlock at h
  split at h
  · rename_i hsees
    have hkind := Draft.sees_iff.mp hsees
    obtain ⟨d₁, hline, h⟩ := bind_eq_ok h
    have helse : d.Skips d.next := Draft.skips_next (by rw [hkind]; decide) (by rw [hkind]; nofun)
    have hhead := (helse.trans (skips_expectLineEnd hline)).clears
    exact hhead.trans (accepting.block (hhead.named hnamed) h)
  · cases h
    exact .refl d

theorem conditional_step (h : ifStatement (fuel + 1) d = .ok d') : d.Clears d' := by
  rw [ifStatement_succ] at h
  obtain ⟨d₁, hcondition, h⟩ := bind_eq_ok h
  have hbranch : d₁.Skips (d₁.emitJump .branch) := .of_eq rfl rfl
  have hhead := (clears_expression hcondition).trans hbranch.clears
  split at h
  · rename_i hsees
    have hkind := Draft.sees_iff.mp hsees
    obtain ⟨d₂, hinline, h⟩ := bind_eq_ok h
    have hthen : (d₁.emitJump .branch).Skips (d₁.emitJump .branch).next :=
      Draft.skips_next (by rw [hkind]; decide) (by rw [hkind]; nofun)
    exact ((hhead.trans hthen.clears).trans (clears_inlineStatement hinline)).trans
      (skips_patchHere h).clears
  · obtain ⟨d₂, hline, h⟩ := bind_eq_ok h
    obtain ⟨r, harms, h⟩ := bind_eq_ok h
    obtain ⟨d₄, helse, h⟩ := bind_eq_ok h
    obtain ⟨d₅, hend, h⟩ := bind_eq_ok h
    obtain ⟨d₆, hpatch, h⟩ := bind_eq_ok h
    have hopen := hhead.trans (skips_expectLineEnd hline).clears
    have hbodies := hopen.trans (accepting.arms (hopen.named hnamed) harms)
    have hlast := hbodies.trans (accepting.elseBlock_step (hbodies.named hnamed) helse)
    have htail := ((skips_expect hend (by decide) (by decide)).trans
      (Draft.skips_patchAllHere hpatch)).trans (skips_expectLineEnd h)
    exact hlast.trans htail.clears

theorem function_step (hkind : d.peek.kind = .func)
    (h : functionDefinition (fuel + 1) d.next = .ok d') : d.Clears d' := by
  unfold functionDefinition at h
  obtain ⟨d₁, hheader, h⟩ := bind_eq_ok h
  obtain ⟨d₂, hblock, h⟩ := bind_eq_ok h
  obtain ⟨d₃, hend, h⟩ := bind_eq_ok h
  obtain ⟨d₄, hresolved, h⟩ := bind_eq_ok h
  cases Draft.eq_of_checkResolved hresolved
  have hhead := clears_functionHeader hkind hnamed hheader
  have hnamed₁ := hhead.named hnamed
  have hbody := accepting.block hnamed₁ hblock
  have hret : d₂.Skips ((d₂.emitValue .null).emit .ret) := .of_eq rfl rfl
  -- Inside the function it stays callable, so leaving it changes no arity.
  have hreserved : ∀ t ∈ d.next.rest, t.kind = .identifier → t.text ≠ topLevel :=
    fun t ht => hnamed t (List.mem_of_mem_tail (d.rest_next ▸ ht))
  have hentered : d₃.Entered := by
    obtain ⟨name, params, d₀, hname, hnew, -, -, h₀, rfl⟩ :=
      (reaches_functionHeader (.refl (List.Subset.refl _)) hreserved).of_ok hheader
    have hinside : (d₀.enter name params).Reaches d.next.rest (d₀.enter name params) := by
      refine .refl ?_
      rw [rest_enter]
      exact h₀.rest_subset
    have hreaches := ((reachingStatements hreserved fuel).block [.end_] hinside).of_ok hblock
    have hend := (((hreaches.emitValue (.inl rfl)).emit .ret rfl).expect .end_).of_ok hend
    have houter₃ : d₃.outer? = some d₀.body := by
      rw [hend.outer?_eq, Draft.enter_eq params hname]
    have hkeeps := hend.steps.keeps (fun _ _ h hstep => Draft.entered_step h hstep)
      (fun _ => d₀.entered_enter params hname)
    exact hkeeps (by rw [houter₃]; rfl)
  have hleave : d₃.Skips d₃.leave := .of_eq d₃.rest_leave (Draft.arity?_leave hentered)
  have htail := ((hret.trans (skips_expect hend (by decide) (by decide))).trans hleave).trans
    (skips_expectLineEnd h)
  exact (hhead.trans hbody).trans htail.clears

end Accepting

theorem accepting (fuel : Nat) : Accepting fuel := by
  induction fuel with
  | zero => constructor <;> intros <;> contradiction
  | succ fuel ih =>
      exact {
        block := fun hnamed h => ih.block_step hnamed h
        statement := fun hnamed h => ih.statement_step hnamed h
        conditional := fun hnamed h => ih.conditional_step hnamed h
        arms := fun hnamed h => ih.arms_step hnamed h
        loop := fun hnamed h => ih.loop_step hnamed h
        function := fun hnamed hkind h => ih.function_step hnamed hkind h }

end LineScript.Compile

namespace LineScript.Compiler

open LineScript.Code LineScript.Compile

/-! ## Scripts -/

/-- Whether every call of a script that is still open can get the arguments that it
takes. The arities are those of the host functions, of the earlier program, and of the
functions that the script defines. -/
def callsFit (c : Compiler) (source : String) : Bool :=
  match Token.scan source with
  | .ok tokens => Compile.callsFit (c.draft tokens).table tokens
  | .error _ => true

/-- The calls of tokens that compile are right. -/
theorem right_of_compile (c : Compiler) {tokens : List Token} {p : Program}
    (hnamed : (c.draft tokens).Named) (hreal : ∀ t ∈ tokens, t.kind ≠ .endOfInput)
    (h : c.compile tokens = .ok p) : ∀ call ∈ calls tokens, Right (c.draft tokens).table call := by
  obtain ⟨d, hblock, -⟩ := bind_eq_ok h
  have hclears := (accepting _).block hnamed hblock
  have hend := atEnd_of_blockWith hblock
  have hrest : d.rest = [] := by
    cases hrest : d.rest with
    | nil => rfl
    | cons t rest =>
        have ht : t ∈ tokens := hclears.rest_subset (hrest ▸ List.mem_cons_self)
        rw [← Draft.peek_of_cons hrest] at ht
        exact absurd (of_decide_eq_true hend) (hreal _ ht)
  obtain ⟨before, hbefore, hright⟩ := hclears.calls_eq
  rw [hrest, show calls [] = [] from rfl, List.append_nil] at hbefore
  intro call hcall
  exact hright call (hbefore ▸ hcall)

/-- A script that can be continued to one that compiles has no call that is lost. -/
theorem callsFit_of_continued (c : Compiler) {source more : String} {p : Program}
    (h : c.compileSource (source ++ "\n" ++ more) = .ok p) : c.callsFit source = true := by
  unfold callsFit
  have hcontinued := Token.continued_scan source more
  cases hscan : Token.scan source with
  | error e => rfl
  | ok tokens =>
      rw [hscan] at hcontinued
      obtain ⟨whole, hwhole, hcompile⟩ := bind_eq_ok h
      obtain ⟨e, he⟩ | ⟨rest, hrest⟩ := hcontinued
      · rw [he] at hwhole
        cases hwhole
      · cases hrest.symm.trans hwhole
        obtain ⟨hproper, -, -⟩ := Token.proper_of_scan hrest
        have hright := c.right_of_compile (fun t ht hkind => ((hproper t ht).2 hkind).2)
          (fun t ht => (hproper t ht).1) hcompile
        refine callsFit_of_right rest hright fun name arity hname => ?_
        change ((c.draft []).arity? name).or (declared? name (tokens ++ rest)) = some arity
        change ((c.draft []).arity? name).or (declared? name tokens) = some arity at hname
        cases hknown : (c.draft []).arity? name with
        | some n => rwa [hknown] at hname
        | none =>
            rw [hknown] at hname
            exact declared?_append rest hname

end LineScript.Compiler
