/-
# Statements read as trees

Whenever a script is accepted, there is a well-scoped tree whose words are those of
the script, the compiled functions are those the tree defines, and the code of each
is the code of its statements. Whenever a script is refused, the error is the
script's own fault: no placeholder is ever resolved twice or forgotten, and the bound
on the depth of the compilation is never reached.

Unlike expressions, statements declare names and define functions, so what a
statement does is said by `Wrote`: besides the words and the instructions it tells the
scope and the functions afterwards.
-/

import LineScript.Compile.Statement
import LineScript.Proofs.Conditionals
import LineScript.Proofs.ExpressionTrees
import LineScript.Proofs.OperatorStack

namespace LineScript.Code

/-- What a run sees of a function: its parameters, the variables that are its own, and
its instructions without their lines. -/
structure Shape where
  params : List String
  own : String → Bool
  code : List Instruction

/-- The shape of a compiled function. -/
def Function.shape (f : Function) : Shape :=
  ⟨f.params, f.declares, f.code.toList.map Instruction.unplaced⟩

theorem Function.declares_declare (f : Function) (name : String) :
    (f.declare name).declares = fun n => n = name || f.declares n := by
  funext n
  unfold declare
  split
  · rename_i h
    by_cases hn : n = name
    · simp [hn, h]
    · simp [hn]
  · by_cases hn : n = name
    · subst hn
      simp [declares, Dict.contains]
    · simp [declares, Dict.contains, Dict.get?_insert_of_ne _ _ hn, hn]

theorem Function.declares_foldl_declare (params : List String) (f : Function) :
    (params.foldl Function.declare f).declares = fun n => params.contains n || f.declares n := by
  induction params generalizing f with
  | nil => simp
  | cons param rest ih =>
      funext n
      rw [List.foldl_cons, ih, declares_declare]
      by_cases hn : n = param <;> simp [hn]

/-- A new function declares its parameters. -/
theorem Function.declares_new (name : String) (params : List String) :
    (Function.new name params).declares = params.contains := by
  rw [new, declares_foldl_declare]
  funext n
  exact Bool.or_false _

theorem Function.foldl_declare_eq (params : List String) (f : Function) :
    ∃ scope, params.foldl Function.declare f = { f with scope := scope } := by
  induction params generalizing f with
  | nil => exact ⟨f.scope, rfl⟩
  | cons param rest ih =>
      obtain ⟨scope, h⟩ := ih (f.declare param)
      refine ⟨scope, ?_⟩
      rw [List.foldl_cons, h]
      unfold declare
      split <;> rfl

theorem Function.new_eq (name : String) (params : List String) :
    ∃ scope, Function.new name params = { name := name, params? := some params, scope := scope } :=
  foldl_declare_eq params _

end LineScript.Code

namespace LineScript.Tree

open LineScript.Code

/-- The shape of the function that a definition is compiled to. -/
def Definition.shape (f : Definition) : Shape := ⟨f.params, f.own, functionCode f.body⟩

/-- A table of functions with one more definition. -/
def Definition.install (table : String → Option Shape) (f : Definition) :
    String → Option Shape :=
  fun name => if name = f.name then some f.shape else table name

end LineScript.Tree

namespace LineScript.Compile.Draft

open LineScript.Code LineScript.Tree

/-! ## Writing statements -/

/-- The shapes of the functions declared so far. -/
def shapes (d : Draft) : String → Option Shape :=
  fun name => (d.functions.get? name).map Function.shape

/-- What statements leave alone: everything but tokens, instructions, variables and
functions. -/
def kept (d : Draft) : Draft :=
  { d with
    rest := [], consumed? := none, functions := ∅
    body := { d.body with code? := none, scope := ∅ } }

/-- From one draft to another, the given words went by and the given instructions
were appended, and then the given scope and functions are there. -/
structure Wrote (d : Draft) (words : List Word) (code : List Instruction) (scope : Scope)
    (definitions : List Definition) (d' : Draft) : Prop where
  tokens : ∃ ts, d.rest = ts ++ d'.rest ∧ Word.ofTokens ts = words
  code_eq : d'.code = d.code ++ code
  scope_eq : d'.scope = scope
  shapes_eq : d'.shapes = definitions.foldl Definition.install d.shapes
  kept_eq : d'.kept = d.kept

theorem shapes_eq_of_frame {d d' : Draft} (h : d'.frame = d.frame) : d'.shapes = d.shapes := by
  have hshapes := congrArg (fun x : Draft => x.shapes) h
  exact hshapes

theorem kept_eq_of_frame {d d' : Draft} (h : d'.frame = d.frame) : d'.kept = d.kept := by
  have hkept := congrArg (fun x : Draft => x.kept) h
  exact hkept

theorem Moves.wrote {d d' : Draft} {words : List Word} {code : List Instruction}
    (h : d.Moves words code d') : d.Wrote words code d.scope [] d' :=
  ⟨h.tokens, h.code_eq, h.scope_eq, shapes_eq_of_frame h.frame_eq, kept_eq_of_frame h.frame_eq⟩

namespace Wrote

variable {d d₁ d₂ : Draft} {words words' : List Word} {code code' : List Instruction}
  {scope scope' : Scope} {definitions definitions' : List Definition}

theorem trans (h : d.Wrote words code scope definitions d₁)
    (h' : d₁.Wrote words' code' scope' definitions' d₂) :
    d.Wrote (words ++ words') (code ++ code') scope' (definitions ++ definitions') d₂ := by
  obtain ⟨ts, hrest, hwords⟩ := h.tokens
  obtain ⟨ts', hrest', hwords'⟩ := h'.tokens
  refine ⟨⟨ts ++ ts', ?_, ?_⟩, ?_, h'.scope_eq, ?_, h'.kept_eq.trans h.kept_eq⟩
  · rw [hrest, hrest', List.append_assoc]
  · rw [Word.ofTokens, List.filterMap_append, ← hwords, ← hwords']
    rfl
  · rw [h'.code_eq, h.code_eq, List.append_assoc]
  · rw [h'.shapes_eq, h.shapes_eq, List.foldl_append]

/-- What comes after a statement may move on without changing names. -/
theorem moves (h : d.Wrote words code scope definitions d₁) (h' : d₁.Moves words' code' d₂) :
    d.Wrote (words ++ words') (code ++ code') scope definitions d₂ := by
  have hall := h.trans h'.wrote
  rwa [h.scope_eq, List.append_nil] at hall

theorem address_eq (h : d.Wrote words code scope definitions d₁) :
    d₁.address = d.address + code.length := by
  rw [← length_code, ← length_code, h.code_eq, List.length_append]

theorem mem_of_mem_rest (h : d.Wrote words code scope definitions d₁) {t : Token}
    (ht : t ∈ d₁.rest) : t ∈ d.rest := by
  obtain ⟨ts, hrest, -⟩ := h.tokens
  rw [hrest]
  exact List.mem_append_right ts ht

theorem length_le (h : d.Wrote words code scope definitions d₁) :
    d₁.rest.length ≤ d.rest.length := by
  obtain ⟨ts, hrest, -⟩ := h.tokens
  rw [hrest, List.length_append]
  omega

/-- A word that went by was a token. -/
theorem length_lt (h : d.Wrote words code scope definitions d₁) (hwords : words ≠ []) :
    d₁.rest.length < d.rest.length := by
  obtain ⟨ts, hrest, hts⟩ := h.tokens
  have hne : ts ≠ [] := by
    rintro rfl
    exact hwords hts.symm
  have hpos := List.length_pos_iff.mpr hne
  rw [hrest, List.length_append]
  omega

/-- Resolving placeholders changes the instructions alone. -/
theorem resolved (h : d.Wrote words code scope definitions d₁) (hrest : d₂.rest = d₁.rest)
    (hcode : d₂.code = d.code ++ code') (hframe : d₂.frame = d₁.frame) :
    d.Wrote words code' scope definitions d₂ := by
  refine ⟨?_, hcode, (scope_eq_of_frame hframe).trans h.scope_eq,
    (shapes_eq_of_frame hframe).trans h.shapes_eq, (kept_eq_of_frame hframe).trans h.kept_eq⟩
  rw [hrest]
  exact h.tokens

/-- Resolving a placeholder among the instructions of statements. -/
theorem sound_patchHere (op : Opcode) (address : Nat) (before after : List Instruction)
    (h : d.Wrote words (before ++ jumpTo op unresolvedTarget :: after) scope definitions d₁)
    (hjump : op.isJump = true) (haddress : address = d.address + before.length) :
    Sound (d.Wrote words (before ++ jumpTo op d₁.address :: after) scope definitions ·)
      (d₁.patchHere address) := by
  have hcode : d₁.code = (d.code ++ before) ++ jumpTo op unresolvedTarget :: after := by
    rw [h.code_eq, List.append_assoc]
  obtain ⟨d₂, hpatch, hrest, -, hcode', hframe⟩ := patchHere_of_code_eq hjump hcode
  rw [haddress, ← d.length_code, ← List.length_append, hpatch]
  exact h.resolved hrest (by rw [hcode', List.append_assoc]) hframe

/-- Resolving the exits of the arms of a conditional. -/
theorem sound_patchAllHere {after : List Instruction} {pieces : List (List Instruction)}
    (h : d.Wrote words (withExits unresolvedTarget pieces ++ after) scope definitions d₁) :
    Sound (d.Wrote words (withExits d₁.address pieces ++ after) scope definitions ·)
      (d₁.patchAllHere (exits d.address pieces)) := by
  have hcode : d₁.code = d.code ++ withExits unresolvedTarget pieces ++ after := by
    rw [h.code_eq, List.append_assoc]
  obtain ⟨d₂, hpatch, hrest, -, hcode', hframe⟩ := patchAllHere_exits hcode
  rw [← d.length_code, hpatch]
  exact h.resolved hrest (by rw [hcode', List.append_assoc]) hframe

end Wrote

theorem Moves.andWrote {d d₁ d₂ : Draft} {words words' : List Word}
    {code code' : List Instruction} {scope : Scope} {definitions : List Definition}
    (h : d.Moves words code d₁) (h' : d₁.Wrote words' code' scope definitions d₂) :
    d.Wrote (words ++ words') (code ++ code') scope definitions d₂ :=
  h.wrote.trans h'

theorem wrote_declare (d : Draft) (name : String) (h : d.sees? name = false) :
    d.Wrote [] [] (d.scope.assigned name) [] (d.declare name) := by
  have hdeclare : d.body.declare name =
      { d.body with scope := d.body.scope.insert name (some name) } := by
    have hown : d.body.declares name = false := by
      unfold sees? at h
      exact (Bool.or_eq_false_iff.mp h).1
    unfold Function.declare
    rw [if_neg (by simp [hown])]
  refine ⟨⟨[], rfl, rfl⟩, ?_, ?_, rfl, ?_⟩
  · rw [List.append_nil]
    unfold code declare
    rw [hdeclare]
    rfl
  · rw [sees?_eq_scope] at h
    unfold Scope.assigned
    rw [if_neg (by simp [h])]
    unfold scope declare
    rw [Function.declares_declare]
    rfl
  · unfold kept declare
    rw [hdeclare]

end LineScript.Compile.Draft

namespace LineScript.Compile

open LineScript.Code LineScript.Tree
open LineScript.Compile.Precedence (Reads readable_expression expression_eq)

theorem blockWith_succ (fuel : Nat) (enders : List TokenKind) (d : Draft) :
    blockWith (fuel + 1) enders d =
      if d.atEnd || enders.contains d.peek.kind then .ok d
      else statement fuel d >>= blockWith fuel enders := by
  rw [blockWith]
  split
  · rfl
  · cases statement fuel d <;> rfl

/-! ## Simple statements -/

/-- Between two drafts, a well-scoped simple statement was compiled. -/
structure ReadsSimple (d : Draft) (x : Simple) (d' : Draft) : Prop where
  wrote : d.Wrote x.words (x.code d.address) (x.after d.scope) [] d'
  inScope : x.Scoped d.scope

theorem ReadsSimple.discard {d d₁ d₂ : Draft} {e : Expr} (he : Reads d e d₁)
    (hline : (d₁.emit .pop).Moves [] [] d₂) : ReadsSimple d (.discard e) d₂ := by
  refine ⟨?_, he.inScope⟩
  have hall := (he.moves.trans (d₁.moves_emit .pop)).trans hline
  simpa [Simple.words, Simple.code, Simple.after] using hall.wrote

theorem ReadsSimple.assignElement {d d₁ d₂ d₃ d₄ d₅ : Draft} {position value : Expr}
    (hkind : d.peek.kind = .identifier) (hsecond : d.next.peek.kind = .leftBracket)
    (hsees : d.sees? d.peek.text = true)
    (hposition : Reads (d.next.next.emitName .load d.peek.text).skipLineBreaks position d₁)
    (hclose : d₁.skipLineBreaks.Moves [.symbol .rightBracket] [] d₂)
    (hequal : d₂.Moves [.symbol .equal] [] d₃) (hvalue : Reads d₃ value d₄)
    (hline : (d₄.emit .put).Moves [] [] d₅) :
    ReadsSimple d (.assignElement d.peek.text position value) d₅ := by
  have hopen := (((Draft.moves_name hkind).trans (Draft.moves_symbol hsecond rfl)).trans
    (d.next.next.moves_emitName .load d.peek.text)).trans
      (d.next.next.emitName .load d.peek.text).moves_skipLineBreaks
  have hmiddle := (((hopen.trans hposition.moves).trans d₁.moves_skipLineBreaks).trans hclose).trans
    hequal
  refine ⟨?_, ?_, ?_, ?_⟩
  · have hall := ((hmiddle.trans hvalue.moves).trans (d₄.moves_emit .put)).trans hline
    rw [hmiddle.address_eq, hopen.address_eq] at hall
    simpa [Simple.words, Simple.code, Simple.after, Nat.add_assoc, Nat.add_comm 1] using hall.wrote
  · rw [← d.sees?_eq_scope]
    exact hsees
  · rw [← hopen.scope_eq]
    exact hposition.inScope
  · rw [← hmiddle.scope_eq]
    exact hvalue.inScope

theorem ReadsSimple.assignMember {d d₁ d₂ d₃ d₄ : Draft} {member : String} {value : Expr}
    (hkind : d.peek.kind = .identifier) (hsecond : d.next.peek.kind = .dot)
    (hsees : d.sees? d.peek.text = true)
    (hmember : (d.next.next.emitName .load d.peek.text).Moves [.name member] [] d₁)
    (hequal : d₁.Moves [.symbol .equal] [] d₂) (hvalue : Reads d₂ value d₃)
    (hline : ((d₃.emitName .set member).emit .pop).Moves [] [] d₄) :
    ReadsSimple d (.assignMember d.peek.text member value) d₄ := by
  have hopen := ((Draft.moves_name hkind).trans (Draft.moves_symbol hsecond rfl)).trans
    (d.next.next.moves_emitName .load d.peek.text)
  have hmiddle := (hopen.trans hmember).trans hequal
  refine ⟨?_, ?_, ?_⟩
  · have hall := (((hmiddle.trans hvalue.moves).trans (d₃.moves_emitName .set _)).trans
      (Draft.moves_emit _ .pop)).trans hline
    rw [hmiddle.address_eq] at hall
    simpa [Simple.words, Simple.code, Simple.after] using hall.wrote
  · rw [← d.sees?_eq_scope]
    exact hsees
  · rw [← hmiddle.scope_eq]
    exact hvalue.inScope

/-- A variable that cannot be seen yet is declared behind its value. -/
theorem ReadsSimple.assign {d d₁ d₂ : Draft} {value : Expr} (hkind : d.peek.kind = .identifier)
    (hsecond : d.next.peek.kind = .equal) (hvalue : Reads d.next.next value d₁)
    (hline : ((if d.sees? d.peek.text then d₁ else d₁.declare d.peek.text).emitName .store
      d.peek.text).Moves [] [] d₂) :
    ReadsSimple d (.assign d.peek.text value) d₂ := by
  have hopen := (Draft.moves_name hkind).trans (Draft.moves_symbol hsecond rfl)
  have hmiddle := hopen.trans hvalue.moves
  have hsees : d₁.sees? d.peek.text = d.sees? d.peek.text := by
    rw [Draft.sees?_eq_scope, Draft.sees?_eq_scope, hmiddle.scope_eq]
  have hdeclared : d.Wrote (.name d.peek.text :: .symbol .equal :: value.words)
      (value.code d.address) (d.scope.assigned d.peek.text) []
      (if d.sees? d.peek.text then d₁ else d₁.declare d.peek.text) := by
    rw [hopen.address_eq] at hmiddle
    split
    · rename_i h
      rw [Draft.sees?_eq_scope] at h
      unfold Scope.assigned
      rw [if_pos h]
      simpa using hmiddle.wrote
    · rename_i h
      have hall := hmiddle.wrote.trans (d₁.wrote_declare d.peek.text
        (by rw [hsees]; simpa using h))
      rw [hmiddle.scope_eq] at hall
      simpa using hall
  refine ⟨?_, ?_⟩
  · have hall := (hdeclared.moves (Draft.moves_emitName _ .store d.peek.text)).moves hline
    simpa [Simple.words, Simple.code, Simple.after] using hall
  · rw [Simple.Scoped, ← hopen.scope_eq]
    exact hvalue.inScope

theorem ReadsSimple.giveBackNull {d d₁ : Draft} (hkind : d.peek.kind = .return_)
    (hline : d.next.Moves [] [] d₁) :
    ReadsSimple d (.giveBack none) ((d₁.emitValue .null).emit .ret) := by
  have hreturn : d.Moves _ [] d.next := Draft.moves_symbol hkind rfl
  refine ⟨?_, trivial⟩
  have hall := ((hreturn.trans hline).trans (d₁.moves_emitValue .null)).trans
    (Draft.moves_emit _ .ret)
  simpa [Simple.words, Simple.code, Simple.after] using hall.wrote

theorem ReadsSimple.giveBack {d d₁ d₂ : Draft} {value : Expr} (hkind : d.peek.kind = .return_)
    (hvalue : Reads d.next value d₁) (hline : d₁.Moves [] [] d₂) :
    ReadsSimple d (.giveBack (some value)) (d₂.emit .ret) := by
  have hreturn : d.Moves _ [] d.next := Draft.moves_symbol hkind rfl
  refine ⟨?_, ?_⟩
  · have hall := ((hreturn.trans hvalue.moves).trans hline).trans (d₂.moves_emit .ret)
    rw [hreturn.address_eq] at hall
    simpa [Simple.words, Simple.code, Simple.after] using hall.wrote
  · rw [Simple.Scoped, ← hreturn.scope_eq]
    exact hvalue.inScope

theorem sound_expressionStatement (d : Draft) :
    Sound (fun d' => ∃ x, ReadsSimple d x d') (expressionStatement d) := by
  unfold expressionStatement
  rw [expression_eq]
  apply (readable_expression d).bind
  rintro d₁ - ⟨e, he⟩
  exact (d₁.emit .pop).sound_expectLineEnd.mono fun d₂ hline => ⟨_, .discard he hline⟩

theorem sound_elementAssignment {d : Draft} (hkind : d.peek.kind = .identifier)
    (hsecond : d.next.peek.kind = .leftBracket) (hsees : d.sees? d.peek.text = true) :
    Sound (fun d' => ∃ x, ReadsSimple d x d') (elementAssignment d.next.next d.peek.text) := by
  unfold elementAssignment
  simp only [expression_eq]
  apply (readable_expression _).bind
  rintro d₁ - ⟨position, hposition⟩
  apply (d₁.skipLineBreaks.sound_expectSymbol .rightBracket rfl).bind
  rintro d₂ - hclose
  apply (d₂.sound_expectSymbol .equal rfl).bind
  rintro d₃ - hequal
  apply (readable_expression d₃).bind
  rintro d₄ - ⟨value, hvalue⟩
  exact (d₄.emit .put).sound_expectLineEnd.mono fun d₅ hline =>
    ⟨_, .assignElement hkind hsecond hsees hposition hclose hequal hvalue hline⟩

theorem sound_memberAssignment {d : Draft} (hkind : d.peek.kind = .identifier)
    (hsecond : d.next.peek.kind = .dot) (hsees : d.sees? d.peek.text = true) :
    Sound (fun d' => ∃ x, ReadsSimple d x d') (memberAssignment d.next.next d.peek.text) := by
  unfold memberAssignment
  simp only [expression_eq]
  apply ((d.next.next.emitName .load d.peek.text).sound_expectText .identifier).bind
  rintro ⟨member, d₁⟩ - ⟨hname, heq⟩
  cases heq
  apply (Draft.sound_expectSymbol _ .equal rfl).bind
  rintro d₂ - hequal
  apply (readable_expression d₂).bind
  rintro d₃ - ⟨value, hvalue⟩
  exact (Draft.sound_expectLineEnd _).mono fun d₄ hline =>
    ⟨_, .assignMember hkind hsecond hsees (Draft.moves_name hname) hequal hvalue hline⟩

theorem sound_assignment {d : Draft} (hkind : d.peek.kind = .identifier)
    (hsecond : d.next.peek.kind = .equal) :
    Sound (fun d' => ∃ x, ReadsSimple d x d')
      (assignment d.next.next d.peek.text (d.sees? d.peek.text)) := by
  unfold assignment
  rw [expression_eq]
  apply (readable_expression d.next.next).bind
  rintro d₁ - ⟨value, hvalue⟩
  exact (Draft.sound_expectLineEnd _).mono fun d₂ hline =>
    ⟨_, .assign hkind hsecond hvalue hline⟩

theorem sound_declaration {d : Draft} (hkind : d.peek.kind = .identifier) :
    Sound (fun d' => ∃ x, ReadsSimple d x d') (declaration d) := by
  unfold declaration
  have hsecond := d.peek_next
  dsimp only
  split
  · rename_i h
    exact sound_assignment hkind (by rw [hsecond]; exact h)
  · rename_i h
    split
    · rename_i hsees
      exact sound_elementAssignment hkind (by rw [hsecond]; exact h) hsees
    · exact sound_at _ _ (by simp [CompileCause.kind]) _
  · rename_i h
    split
    · rename_i hsees
      exact sound_memberAssignment hkind (by rw [hsecond]; exact h) hsees
    · exact sound_at _ _ (by simp [CompileCause.kind]) _
  · exact sound_expressionStatement d

theorem sound_returnStatement {d : Draft} (hkind : d.peek.kind = .return_) :
    Sound (fun d' => ∃ x, ReadsSimple d x d') (returnStatement d) := by
  unfold returnStatement
  dsimp only
  rw [expression_eq]
  split
  · exact ⟨_, .giveBackNull hkind (.refl _)⟩
  · split
    · rename_i hsees
      exact ⟨_, .giveBackNull hkind (Draft.moves_silent (Draft.sees_iff.mp hsees) rfl)⟩
    · apply (readable_expression d.next).bind
      rintro d₁ - ⟨value, hvalue⟩
      apply d₁.sound_expectLineEnd.bind
      rintro d₂ - hline
      exact ⟨_, .giveBack hkind hvalue hline⟩

theorem sound_inlineStatement (d : Draft) :
    Sound (fun d' => ∃ x, ReadsSimple d x d') (inlineStatement d) := by
  unfold inlineStatement
  split
  · exact sound_declaration ‹_›
  · exact sound_returnStatement ‹_›
  · exact sound_expressionStatement d

/-! ## Functions -/

theorem nodup_reverse {names : List String} (h : names.Nodup) : names.reverse.Nodup :=
  List.pairwise_reverse.mpr (h.imp Ne.symm)

theorem sound_parameters {fuel : Nat} {d : Draft} {names : List String}
    (hfuel : d.rest.length < fuel) (hnames : names.Nodup) :
    Sound (fun r => ∃ more, r.2 = names.reverse ++ more ∧ r.2.Nodup ∧
      d.Moves (more.map .name) [] r.1) (parameters fuel d names) := by
  induction fuel generalizing d names with
  | zero => omega
  | succ fuel ih =>
      rw [parameters]
      split
      · rename_i hkind
        have hnext := Draft.length_next_lt (d := d) (by rw [hkind]; decide)
        have hname := Draft.moves_name hkind
        split
        · exact sound_at _ _ (by simp [CompileCause.kind]) _
        · rename_i hnew
          have hcons : (d.peek.text :: names).Nodup :=
            List.nodup_cons.mpr ⟨by simpa using hnew, hnames⟩
          split
          · rename_i hsees
            have hcomma := hname.trans ((Draft.moves_silent (Draft.sees_iff.mp hsees) rfl).trans
              d.next.next.moves_skipLineBreaks)
            have hskip := d.next.next.length_skipLineBreaks_le
            have hnext₁ := d.next.length_next_le
            refine (ih (by omega) hcons).mono ?_
            rintro r ⟨more, hmore, hnodup, hmoves⟩
            refine ⟨d.peek.text :: more, ?_, hnodup, hcomma.trans hmoves⟩
            rw [hmore]
            simp
          · exact ⟨[d.peek.text], by simp, nodup_reverse hcons, hname⟩
      · exact ⟨[], (List.append_nil _).symm, nodup_reverse hnames, .refl d⟩

/-- The header of a function is read, and then the function is entered. -/
theorem sound_functionHeader (d : Draft) :
    Sound (fun d' => ∃ params d₁, d.peek.kind = .identifier ∧ d.scope.arity d.peek.text = none ∧
      params.Nodup ∧ d.Moves (.name d.peek.text :: params.map .name) [] d₁ ∧
      d' = d₁.enter d.peek.text params) (functionHeader d) := by
  unfold functionHeader
  apply (d.sound_expect .identifier).bind
  rintro d₁ - ⟨hkind, rfl⟩
  have hname := Draft.moves_name hkind
  split
  · exact sound_at _ _ (by simp [CompileCause.kind]) _
  · rename_i hnew
    have harity : d.scope.arity d.peek.text = none := by
      rw [← hname.scope_eq]
      exact Option.not_isSome_iff_eq_none.mp hnew
    apply (d.next.sound_expectSilent .leftParen rfl).bind
    rintro d₂ - hopen
    apply (sound_parameters (Nat.lt_succ_self d₂.rest.length) List.nodup_nil).bind
    rintro ⟨d₃, params⟩ - ⟨more, hmore, hnodup, hmoves⟩
    dsimp only at hmore hnodup hmoves ⊢
    have hmore : params = more := by simpa using hmore
    subst hmore
    apply (d₃.sound_expectSilent .rightParen rfl).bind
    rintro d₄ - hclose
    apply d₄.sound_expectLineEnd.bind
    rintro d₅ - hline
    refine ⟨params, d₅, hkind, harity, hnodup, ?_, rfl⟩
    have hall := (((hname.trans hopen).trans hmoves).trans hclose).trans hline
    simpa using hall

theorem Draft.arity?_eq_shapes (d : Draft) (name : String) :
    d.arity? name = ((d.shapes name).map (·.params.length)).or
      ((d.natives.get? name).map List.length) := by
  unfold arity? shapes
  cases d.functions.get? name <;> rfl

/-- A function that was entered at the top level begins empty, with its parameters,
and can be called. -/
theorem Draft.enter_eq {d : Draft} {name : String} (params : List String)
    (hname : name ≠ topLevel) :
    d.enter name params = { d with
      body := .new name params, outer? := some d.body
      functions := d.functions.insert name (.new name params) } := by
  unfold enter
  rw [if_neg hname]

theorem Draft.shapes_insert (d : Draft) (name : String) (f : Function) :
    ({ d with functions := d.functions.insert name f } : Draft).shapes =
      fun n => if n = name then some f.shape else d.shapes n := by
  funext n
  unfold shapes
  by_cases hn : n = name
  · simp [hn]
  · simp [hn, Dict.get?_insert_of_ne]

theorem Draft.scope_enter {d : Draft} {name : String} (params : List String)
    (hname : name ≠ topLevel) : (d.enter name params).scope = d.scope.inside name params := by
  obtain ⟨scope, hnew⟩ := Function.new_eq name params
  have harity : ∀ n, (d.enter name params).arity? n =
      if n = name then some params.length else d.arity? n := by
    intro n
    rw [enter_eq params hname, arity?_eq_shapes, arity?_eq_shapes]
    have hshapes := congrFun (d.shapes_insert name (.new name params)) n
    change ((Draft.shapes { d with functions := _ } n).map _).or _ = _
    rw [hshapes]
    split
    · rw [hnew]
      rfl
    · rfl
  unfold Draft.scope Scope.inside Scope.defined
  rw [funext harity, enter_eq params hname]
  simp only [Function.declares_new]
  rfl

theorem Draft.code_enter {d : Draft} {name : String} (params : List String)
    (hname : name ≠ topLevel) : (d.enter name params).code = [] := by
  obtain ⟨scope, hnew⟩ := Function.new_eq name params
  rw [enter_eq params hname]
  unfold Draft.code
  rw [hnew]
  rfl

/-- Leaving a function adds it to the functions of the program and goes back to the
top level as it was. -/
theorem Draft.Wrote.leave {d d₁ : Draft} {name : String} {params : List String} {words : List Word}
    {body : Block} {scope : Scope} (hname : name ≠ topLevel) (houter : d.outer? = none)
    (h : (d.enter name params).Wrote words (functionCode body) scope [] d₁) :
    d.Wrote words [] (d.scope.defined name params) [⟨name, params, scope.own, body⟩] d₁.leave := by
  obtain ⟨own, hnew⟩ := Function.new_eq name params
  have henter := enter_eq (d := d) params hname
  have hkept := h.kept_eq
  have hbodyName : d₁.body.name = name := by
    have := congrArg (fun x : Draft => x.body.name) hkept
    rw [henter, hnew] at this
    exact this
  have hparams : d₁.body.params? = some params := by
    have := congrArg (fun x : Draft => x.body.params?) hkept
    rw [henter, hnew] at this
    exact this
  have houter₁ : d₁.outer? = some d.body := by
    have := congrArg (fun x : Draft => x.outer?) hkept
    rw [henter] at this
    exact this
  have hnatives : d₁.natives = d.natives := by
    have := congrArg (fun x : Draft => x.natives) hkept
    rw [henter] at this
    exact this
  have hlast : d₁.lastLine = d.lastLine := by
    have := congrArg (fun x : Draft => x.lastLine) hkept
    rw [henter] at this
    exact this
  have hshape : d₁.body.shape = (⟨params, scope.own, functionCode body⟩ : Shape) := by
    have hcode : d₁.code = functionCode body := by rw [h.code_eq, code_enter params hname]; rfl
    have hdeclares : d₁.body.declares = scope.own := by rw [← h.scope_eq]; rfl
    unfold Function.shape Function.params
    rw [hparams, hdeclares, ← hcode]
    rfl
  have hleave : d₁.leave = { d₁ with
      body := d.body, outer? := none, functions := d₁.functions.insert name d₁.body } := by
    unfold Draft.leave
    rw [houter₁, hbodyName]
  have hshapes : d₁.leave.shapes = Definition.install d.shapes ⟨name, params, scope.own, body⟩ := by
    rw [hleave]
    have hinsert := d₁.shapes_insert name d₁.body
    have henterShapes : d₁.shapes = fun n =>
        if n = name then some (Function.new name params).shape else d.shapes n := by
      rw [h.shapes_eq, List.foldl_nil, henter]
      exact d.shapes_insert name (.new name params)
    funext n
    have hn := congrFun hinsert n
    change Draft.shapes { d₁ with functions := _ } n = _
    rw [hn, henterShapes, hshape]
    unfold Definition.install
    dsimp only
    split
    · rfl
    · rfl
  have harity : d₁.leave.arity? = (d.scope.defined name params).arity := by
    funext n
    have hnatives' : d₁.leave.natives = d.natives := by rw [hleave]; exact hnatives
    rw [arity?_eq_shapes, hshapes, hnatives']
    unfold Definition.install Scope.defined
    dsimp only
    split
    · rfl
    · exact (d.arity?_eq_shapes n).symm
  refine ⟨?_, ?_, ?_, hshapes, ?_⟩
  · obtain ⟨ts, hrest, hwords⟩ := h.tokens
    refine ⟨ts, ?_, hwords⟩
    rw [hleave]
    rw [henter] at hrest
    exact hrest
  · rw [hleave, List.append_nil]
    rfl
  · unfold Draft.scope
    rw [harity, hleave, houter]
    unfold Scope.defined
    rfl
  · rw [hleave]
    unfold Draft.kept
    dsimp only
    rw [hlast, hnatives, houter]

end LineScript.Compile
