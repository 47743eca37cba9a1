/-
# The instructions of compiled programs

The operands of compiled code come from the source. Every instruction of the code of a
tree is an operation without operand, an operation on a name that is a word of the
tree, the push of null or of a constant that is one, or a jump to a known address. So
what holds of the words of a source holds of the operands of its code.

Together with the heights of the code, which know every jump target and every callee,
this makes every compiled program well formed: names are words, words are never empty,
and no word spells the top level. The main statement says so of all tokens and of all
sources, and that the failures of the compiler are never its own.
-/

import LineScript.Proofs.StackDiscipline
import LineScript.Proofs.WellFormed

namespace LineScript.Tree

open LineScript.Code

/-! ## Where operands come from -/

/-- The instructions whose operands are taken from the given words. -/
inductive Spelled (words : List Word) : Instruction → Prop
  | plain {op : Opcode} (h : op.operand = .none) : Spelled words (plain op)
  | named {op : Opcode} {name : String} (hop : op.operand = .name) (h : Word.name name ∈ words) :
    Spelled words (named op name)
  | null : Spelled words (constant .null)
  | constant {l : Literal} (h : Word.literal l ∈ words) : Spelled words (constant l)
  | jump {op : Opcode} (h : op.isJump = true) (target : Nat) : Spelled words (jumpTo op target)

/-- Code whose operands are taken from the given words. -/
def AllSpelled (words : List Word) (code : List Instruction) : Prop := ∀ i ∈ code, Spelled words i

variable {words : List Word}

theorem AllSpelled.append {code code' : List Instruction} (h : AllSpelled words code)
    (h' : AllSpelled words code') : AllSpelled words (code ++ code') := by
  intro i hi
  exact (List.mem_append.mp hi).elim (h i) (h' i)

theorem AllSpelled.cons {i : Instruction} {code : List Instruction} (hi : Spelled words i)
    (h : AllSpelled words code) : AllSpelled words (i :: code) :=
  List.forall_mem_cons.mpr ⟨hi, h⟩

theorem allSpelled_nil : AllSpelled words [] := fun _ h => nomatch h

theorem Spelled.single {i : Instruction} (h : Spelled words i) : AllSpelled words [i] :=
  .cons h allSpelled_nil

theorem spelled_skipCode (o : BinaryOp) (target : Nat) : AllSpelled words (skipCode o target) := by
  cases o
  case or | and => exact (Spelled.jump rfl _).single
  all_goals exact allSpelled_nil

theorem spelled_unaryCode (o : UnaryOp) : AllSpelled words (unaryCode o) := by
  cases o with
  | plus => exact allSpelled_nil
  | minus | not => exact (Spelled.plain rfl).single

theorem spelled_opcode (o : BinaryOp) : Spelled words (plain o.opcode) := by
  cases o <;> exact .plain rfl

mutual

theorem Expr.spelled : ∀ (e : Expr) (a : Nat), e.words ⊆ words → AllSpelled words (e.code a)
  | .null, _, _ => Spelled.null.single
  | .literal _, _, h => (Spelled.constant (h List.mem_cons_self)).single
  | .name _, _, h => (Spelled.named rfl (h List.mem_cons_self)).single
  | .call function arguments, a, h => by
      simp only [Expr.words, List.cons_subset] at h
      exact (arguments.spelled a h.2).append (Spelled.named rfl h.1).single
  | .list items, a, h => by
      simp only [Expr.words, List.cons_subset, List.cons_append, List.append_subset] at h
      exact .cons (.plain rfl) (items.spelled_append (a + 1) h.2.1)
  | .object members, a, h => by
      simp only [Expr.words, List.cons_subset, List.cons_append, List.append_subset] at h
      exact .cons (.plain rfl) (members.spelled (a + 1) h.2.1)
  | .index container position, a, h => by
      simp only [Expr.words, List.cons_subset, List.append_subset] at h
      exact ((container.spelled a h.1.1).append (position.spelled _ h.1.2.2)).append
        (Spelled.plain rfl).single
  | .member object name, a, h => by
      simp only [Expr.words, List.cons_subset, List.append_subset] at h
      exact (object.spelled a h.1).append (Spelled.named rfl h.2.2.1).single
  | .unary o operand, a, h => by
      simp only [Expr.words, List.cons_subset] at h
      exact (operand.spelled a h.2).append (spelled_unaryCode o)
  | .binary o left right, a, h => by
      simp only [Expr.words, List.cons_subset, List.append_subset] at h
      exact (((left.spelled a h.1).append (spelled_skipCode o _)).append
        (right.spelled _ h.2.2)).append (spelled_opcode o).single

theorem Exprs.spelled : ∀ (es : Exprs) (a : Nat), es.words ⊆ words → AllSpelled words (es.code a)
  | .nil, _, _ => allSpelled_nil
  | .cons first rest, a, h => by
      simp only [Exprs.words, List.append_subset] at h
      exact (first.spelled a h.1).append (rest.spelled _ h.2)

theorem Exprs.spelled_append : ∀ (es : Exprs) (a : Nat), es.words ⊆ words →
    AllSpelled words (es.appendCode a)
  | .nil, _, _ => allSpelled_nil
  | .cons first rest, a, h => by
      simp only [Exprs.words, List.append_subset] at h
      exact (first.spelled a h.1).append (.cons (.plain rfl) (rest.spelled_append _ h.2))

theorem Members.spelled : ∀ (ms : Members) (a : Nat), ms.words ⊆ words →
    AllSpelled words (ms.code a)
  | .nil, _, _ => allSpelled_nil
  | .cons name value rest, a, h => by
      simp only [Members.words, List.cons_subset, List.cons_append, List.append_subset] at h
      exact (value.spelled a h.2.2.1).append (.cons (.named rfl h.1) (rest.spelled _ h.2.2.2))

end

theorem Simple.spelled : ∀ (x : Simple) (a : Nat), x.words ⊆ words → AllSpelled words (x.code a)
  | .assign name value, a, h => by
      simp only [Simple.words, List.cons_subset] at h
      exact (value.spelled a h.2.2).append (Spelled.named rfl h.1).single
  | .assignElement name position value, a, h => by
      simp only [Simple.words, List.cons_subset, List.cons_append, List.append_subset] at h
      exact .append (.append (.cons (.named rfl h.1) (position.spelled _ h.2.2.1))
        (value.spelled _ h.2.2.2.2.2)) (Spelled.plain rfl).single
  | .assignMember name member value, a, h => by
      simp only [Simple.words, List.cons_subset] at h
      exact .append (.cons (.named rfl h.1) (value.spelled _ h.2.2.2.2))
        (.cons (.named rfl h.2.2.1) (Spelled.plain rfl).single)
  | .discard value, a, h => (value.spelled a h).append (Spelled.plain rfl).single
  | .giveBack none, _, _ => .cons .null (Spelled.plain rfl).single
  | .giveBack (some value), a, h => by
      simp only [Simple.words, List.cons_subset] at h
      exact (value.spelled a h.2).append (Spelled.plain rfl).single

mutual

theorem Stmt.spelled : ∀ (x : Stmt) (a : Nat), x.words ⊆ words → AllSpelled words (x.code a)
  | .simple x, a, h => x.spelled a h
  | .when condition x, a, h => by
      simp only [Stmt.words, List.cons_subset, List.cons_append, List.append_subset] at h
      exact (condition.spelled a h.2.1).append (.cons (.jump rfl _) (x.spelled _ h.2.2.2))
  | .choose condition body arms, a, h => by
      simp only [Stmt.words, List.cons_subset, List.cons_append, List.append_subset] at h
      exact .append ((condition.spelled a h.2.1.1.1).append
          (.cons (.jump rfl _) (body.spelled _ h.2.1.1.2)))
        (.cons (.jump rfl _) (arms.spelled _ _ h.2.1.2))
  | .loop condition body, a, h => by
      simp only [Stmt.words, List.cons_subset, List.cons_append, List.append_subset] at h
      exact .append ((condition.spelled a h.2.1.1).append
          (.cons (.jump rfl _) (body.spelled _ h.2.1.2)))
        (Spelled.jump rfl _).single
  | .function _ _ _, _, _ => allSpelled_nil

theorem Block.spelled : ∀ (b : Block) (a : Nat), b.words ⊆ words → AllSpelled words (b.code a)
  | .nil, _, _ => allSpelled_nil
  | .cons first rest, a, h => by
      simp only [Block.words, List.append_subset] at h
      exact (first.spelled a h.1).append (rest.spelled _ h.2)

theorem Arms.spelled : ∀ (arms : Arms) (a ending : Nat), arms.words ⊆ words →
    AllSpelled words (arms.code a ending)
  | .done, _, _, _ => allSpelled_nil
  | .otherwise body, a, _, h => by
      simp only [Arms.words, List.cons_subset] at h
      exact body.spelled a h.2
  | .elif condition body arms, a, ending, h => by
      simp only [Arms.words, List.cons_subset, List.cons_append, List.append_subset] at h
      exact .append ((condition.spelled a h.2.1.1).append
          (.cons (.jump rfl _) (body.spelled _ h.2.1.2)))
        (.cons (.jump rfl _) (arms.spelled _ ending h.2.2))

end

theorem spelled_functionCode {body : Block} (h : body.words ⊆ words) :
    AllSpelled words (functionCode body) :=
  (body.spelled 0 h).append (.cons .null (Spelled.plain rfl).single)

mutual

/-- The words of a function are words of the tree that defines it. -/
theorem Stmt.words_of_definitions : ∀ (x : Stmt) (s : Scope), ∀ f ∈ x.definitions s,
    f.body.words ⊆ x.words
  | .simple _, _, _, hf | .when _ _, _, _, hf => nomatch hf
  | .choose _ body arms, s, f, hf => by
      intro w hw
      rw [Stmt.words]
      obtain hf | hf := List.mem_append.mp hf
      · simp [body.words_of_definitions s f hf hw]
      · simp [arms.words_of_definitions _ f hf hw]
  | .loop _ body, s, f, hf => by
      intro w hw
      rw [Stmt.words]
      simp [body.words_of_definitions s f hf hw]
  | .function name params body, s, f, hf => by
      intro w hw
      cases List.mem_singleton.mp hf
      rw [Stmt.words]
      simp [show w ∈ body.words from hw]

theorem Block.words_of_definitions : ∀ (b : Block) (s : Scope), ∀ f ∈ b.definitions s,
    f.body.words ⊆ b.words
  | .nil, _, _, hf => nomatch hf
  | .cons first rest, s, f, hf => by
      intro w hw
      rw [Block.words]
      obtain hf | hf := List.mem_append.mp hf
      · exact List.mem_append_left _ (first.words_of_definitions s f hf hw)
      · exact List.mem_append_right _ (rest.words_of_definitions _ f hf hw)

theorem Arms.words_of_definitions : ∀ (arms : Arms) (s : Scope), ∀ f ∈ arms.definitions s,
    f.body.words ⊆ arms.words
  | .done, _, _, hf => nomatch hf
  | .otherwise body, s, f, hf => by
      intro w hw
      rw [Arms.words]
      exact List.mem_cons_of_mem _ (body.words_of_definitions s f hf hw)
  | .elif _ body arms, s, f, hf => by
      intro w hw
      rw [Arms.words]
      obtain hf | hf := List.mem_append.mp hf
      · simp [body.words_of_definitions s f hf hw]
      · simp [arms.words_of_definitions _ f hf hw]

end

/-- The name that an instruction carries is a word. -/
theorem Spelled.name_mem {i : Instruction} (h : Spelled words i) (hop : i.op.operand = .name) :
    Word.name i.name ∈ words := by
  cases h with
  | plain h => exact nomatch h.symm.trans hop
  | named _ h => exact h
  | null | constant => cases hop
  | jump h =>
      unfold Opcode.isJump at h
      exact nomatch (of_decide_eq_true h).symm.trans hop

theorem Word.exists_of_name_mem {tokens : List Token} {name : String}
    (h : Word.name name ∈ Word.ofTokens tokens) :
    ∃ t ∈ tokens, t.kind = .identifier ∧ t.text = name := by
  obtain ⟨t, ht, hword⟩ := List.mem_filterMap.mp h
  refine ⟨t, ht, ?_⟩
  unfold Word.ofToken? at hword
  split at hword <;> cases hword
  exact ⟨‹_›, rfl⟩

end LineScript.Tree

namespace LineScript.Code

/-! ## What heights know -/

variable {arity : String → Option Nat} {length address : Nat} {height : Nat → Nat}
  {i : Instruction}

theorem Instruction.Fits.isAssigned (h : i.Fits arity length height address) :
    i.op.isAssigned = true := by
  obtain ⟨op, literal, name, target, line⟩ := i
  cases op
  case unassigned => exact h.elim
  all_goals rfl

theorem Instruction.Fits.target (h : i.Fits arity length height address)
    (hop : i.op.isJump = true) : ∃ target : Nat, i.target = target ∧ target ≤ length := by
  obtain ⟨op, literal, name, target, line⟩ := i
  cases op
  case jump =>
    obtain ⟨t, ht, hle, -⟩ := h
    exact ⟨t, ht, hle⟩
  case branch =>
    obtain ⟨-, t, ht, hle, -⟩ := h
    exact ⟨t, ht, hle⟩
  case skipAnd | skipOr =>
    obtain ⟨-, -, t, ht, hle, -⟩ := h
    exact ⟨t, ht, hle⟩
  all_goals cases hop

theorem Instruction.Fits.callee (h : i.Fits arity length height address) (hop : i.op = .call) :
    ∃ count, arity i.name = some count := by
  obtain ⟨op, literal, name, target, line⟩ := i
  cases hop
  exact ⟨h.choose, h.choose_spec.1⟩

end LineScript.Code

namespace LineScript.Compiler

open LineScript.Code LineScript.Tree LineScript.Compile LineScript.Machine

/-! ## Compiled programs -/

/-- The host functions that a compiler knows, with the number of their parameters. -/
def arities (c : Compiler) : Dict Nat := c.natives.map List.length

/-- Without a prelude, the operands of a compiled program come from its source. -/
theorem Compiles.spelled {c : Compiler} {b : Block} {p : Program} (h : c.Compiles b p)
    (hc : c.prelude? = none) {name : String} {f : Function} (hf : p.functions.get? name = some f) :
    AllSpelled b.words (f.code.toList.map Instruction.unplaced) := by
  by_cases hname : name = topLevel
  · subst hname
    have hmain := h.main
    rw [Program.main?, hf, Option.map_some] at hmain
    have hcode : f.code.toList.map Instruction.unplaced = b.code 0 :=
      congrArg Shape.code (Option.some.inj hmain)
    rw [hcode]
    exact b.spelled 0 (List.Subset.refl _)
  · have hshape := h.functions name hname
    rw [Program.function?, hf, Option.map_some] at hshape
    obtain ⟨g, hg, heq⟩ | hfound := exists_of_install hshape.symm
    · have hcode : f.code.toList.map Instruction.unplaced = functionCode g.body :=
        congrArg Shape.code heq
      rw [hcode]
      exact spelled_functionCode (b.words_of_definitions _ g hg)
    · rw [shapes_of_prelude?_eq_none hc] at hfound
      cases hfound

/-- A name that can be called names a function of the program other than the top level,
or a host function. -/
theorem callee_of_arity? {c : Compiler} {p : Program} {name : String} {count : Nat}
    (h : c.arity? p name = some count) :
    name ≠ topLevel ∧ p.functions.contains name = true ∨ c.arities.contains name = true := by
  unfold arity? at h
  split at h
  · rename_i f hlookup
    split at hlookup
    · cases hlookup
    · rename_i hname
      exact .inl ⟨hname, Dict.contains_iff.mpr ⟨f, hlookup⟩⟩
  · refine .inr (Dict.contains_iff.mpr ⟨count, ?_⟩)
    unfold arities
    rw [Dict.get?_map, h]

/-- The heights around an instruction of a compiled program. -/
theorem Compiles.fits {c : Compiler} {b : Block} {p : Program} (h : c.Compiles b p)
    (hc : c.prelude? = none) {name : String} {f : Function} (hf : p.functions.get? name = some f)
    {i : Instruction} (hi : i ∈ f.code) :
    ∃ address, i.unplaced.Fits (c.arity? p) f.length (height c p f) address := by
  obtain ⟨address, hget⟩ := List.mem_iff_getElem?.mp (Array.mem_toList_iff.mpr hi)
  obtain ⟨_, hfitted⟩ := h.fitting (traced_of_prelude?_eq_none hc) name f hf
  have hfits := hfitted.fits address i.unplaced (by rw [List.getElem?_map, hget, Option.map_some])
  rw [List.length_map, Array.length_toList] at hfits
  exact ⟨address, hfits⟩

/-- A compiled program is well formed when no word of its source is an empty name. -/
theorem Compiles.wellFormed {c : Compiler} {b : Block} {p : Program} (h : c.Compiles b p)
    (hc : c.prelude? = none) (hwords : ∀ name, Word.name name ∈ b.words → name ≠ "") :
    p.WellFormed c.arities := by
  obtain ⟨main, hmain, -⟩ := Option.map_eq_some_iff.mp h.main
  refine ⟨⟨main, hmain⟩, fun name f hf i hi => ?_⟩
  obtain ⟨address, hfits⟩ := h.fits hc hf hi
  have hspelled := h.spelled hc hf i.unplaced
    (List.mem_map_of_mem (Array.mem_toList_iff.mpr hi))
  exact {
    assigned := hfits.isAssigned
    target := hfits.target
    name := fun hop => hwords _ (hspelled.name_mem hop)
    callee := fun hop => by
      obtain ⟨count, hcount⟩ := hfits.callee hop
      exact (callee_of_arity? hcount).imp_left And.right }

/-- What the compiler delivers: a program in which the check finds nothing, and which
calls its own functions and those of the host only, never its top level. -/
structure Checked (c : Compiler) (p : Program) : Prop where
  passes : p.invalid? c.arities = none
  wellFormed : p.WellFormed c.arities
  callee : ∀ name f, p.functions.get? name = some f → ∀ i ∈ f.code, i.op = .call →
    i.name ≠ topLevel ∧ p.functions.contains i.name = true ∨ c.arities.contains i.name = true

theorem Compiles.checked {c : Compiler} {b : Block} {p : Program} (h : c.Compiles b p)
    (hc : c.prelude? = none) {tokens : List Token} (hwords : b.words = Word.ofTokens tokens)
    (hnames : ∀ t ∈ tokens, t.kind = .identifier → t.text ≠ "") : c.Checked p := by
  have hwellFormed : p.WellFormed c.arities := by
    refine h.wellFormed hc fun name hname => ?_
    rw [hwords] at hname
    obtain ⟨t, ht, hkind, rfl⟩ := Word.exists_of_name_mem hname
    exact hnames t ht hkind
  refine ⟨Program.invalid?_eq_none_iff.mpr hwellFormed, hwellFormed, fun name f hf i hi hop => ?_⟩
  obtain ⟨address, hfits⟩ := h.fits hc hf hi
  obtain ⟨count, hcount⟩ := hfits.callee hop
  exact callee_of_arity? hcount

/-- Every compiled program is well formed, and no compilation fails by a fault of the
compiler: no jump is left open or closed twice. This holds of all tokens whose names are
not empty and not that of the top level, and the scanner gives no others. -/
theorem compiled_checked (c : Compiler) (hc : c.prelude? = none) :
    (∀ tokens : List Token,
      (∀ t ∈ tokens, t.kind = .identifier → t.text ≠ "" ∧ t.text ≠ topLevel) →
        Sound c.Checked (c.compile tokens)) ∧
    ∀ source : String, Sound c.Checked (c.compileSource source) := by
  have htokens : ∀ tokens : List Token,
      (∀ t ∈ tokens, t.kind = .identifier → t.text ≠ "" ∧ t.text ≠ topLevel) →
        Sound c.Checked (c.compile tokens) := by
    intro tokens hnames
    refine (c.sound_compile_upTo fun t ht hkind => (hnames t ht hkind).2).mono ?_
    rintro p ⟨b, read, rest, hread, -, hwords, hcompiles⟩
    refine hcompiles.checked hc hwords fun t ht hkind => (hnames t ?_ hkind).1
    rw [hread]
    exact List.mem_append_left _ ht
  refine ⟨htokens, fun source => ?_⟩
  unfold compileSource
  cases hscan : Token.scan source with
  | error e => exact Token.kind_of_scan hscan
  | ok tokens => exact htokens tokens fun t ht => ((Token.proper_of_scan hscan).1 t ht).2

/-- A function with a conditional, called in the condition of a loop: every jump is
resolved and every callee known. -/
theorem compiled_checked_loop :
    ∃ p, Compiler.compileSource { natives := Dict.insert ∅ "log" ["value"] }
        "func f(x)\nif x\nlog(x)\nend\nend\nwhile f(true) and f(null)\nend" = .ok p ∧
      Checked { natives := Dict.insert ∅ "log" ["value"] } p := by
  have hok : (Compiler.compileSource { natives := Dict.insert ∅ "log" ["value"] }
      "func f(x)\nif x\nlog(x)\nend\nend\nwhile f(true) and f(null)\nend").isOk = true := by cbv
  obtain ⟨p, hcompile⟩ := Registry.exists_of_isOk hok
  exact ⟨p, hcompile, ((compiled_checked _ rfl).2 _).of_ok hcompile⟩

end LineScript.Compiler
