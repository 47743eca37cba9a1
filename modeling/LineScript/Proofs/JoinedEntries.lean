/-
# Entries compiled together

The entries of a session are compiled one after another, each on top of the program of the one
before: its functions and the variables of its top level are known. Joined, the entries are one
script. Where each entry compiles, so does this script, and it is made of the same parts: it has the
functions of the last entry's program, and the code of its top level is that of the entries, one
behind the other.
-/

import LineScript.Proofs.Behaviour
import LineScript.Proofs.RepeatedStatements
import LineScript.Proofs.WireRoundTrip

namespace LineScript.Compile.Draft

open LineScript.Code

/-! ## Names -/

/-- What every compilation keeps: each function stands under its own name, and the top level under
none of them. -/
structure Keyed (natives : Dict (List String)) (d : Draft) : Prop where
  natives : d.natives = natives
  top : (d.outer?.getD d.body).name = topLevel ∧ (d.outer?.getD d.body).params? = some []
  inner : d.outer?.isSome = true → d.body.name ≠ topLevel
  functions : ∀ name f, d.functions.get? name = some f → f.name = name ∧ name ≠ topLevel

namespace Keyed

variable {natives : Dict (List String)} {d d' : Draft} {tokens : List Token}

theorem withBody (h : d.Keyed natives) {body : Function} (hname : body.name = d.body.name)
    (hparams : body.params? = d.body.params?) : ({ d with body := body } : Draft).Keyed natives := by
  obtain ⟨hnatives, htop, hinner, hfunctions⟩ := h
  refine ⟨hnatives, ?_, fun houter => hname ▸ hinner houter, hfunctions⟩
  dsimp only
  cases houter : d.outer? with
  | none =>
      rw [houter] at htop
      exact ⟨hname.trans htop.1, hparams.trans htop.2⟩
  | some top =>
      rw [houter] at htop
      exact htop

theorem functions_insert (h : d.Keyed natives) {f : Function} {name : String} (hname : f.name = name)
    (hreserved : name ≠ topLevel) : ∀ other g, (d.functions.insert name f).get? other = some g →
      g.name = other ∧ other ≠ topLevel :=
  Dict.forall_get?_insert ⟨hname, hreserved⟩ h.functions

theorem step (h : d.Keyed natives) (hstep : Draft.Step tokens d d') : d'.Keyed natives := by
  cases hstep with
  | next =>
      unfold Draft.next
      split
      · exact h
      · exact ⟨h.natives, h.top, h.inner, h.functions⟩
  | patchHere hpatch =>
      obtain ⟨body, hbody, rfl⟩ := patchHere_eq_ok hpatch
      have hpatched := Function.eq_of_patchHere hbody
      exact h.withBody (by rw [hpatched]) (by rw [hpatched])
  | declare name =>
      unfold Draft.declare Function.declare
      split
      · exact h.withBody rfl rfl
      · exact h.withBody rfl rfl
  | enter houter hreserved =>
      rename_i name params _ _ _
      have hnew : (Function.new name params).name = name := Function.name_declareAll _ _
      have htop := h.top
      rw [houter] at htop
      unfold Draft.enter
      rw [if_neg hreserved]
      have hinner : (Function.new name params).name ≠ topLevel := by
        rw [hnew]
        exact hreserved
      exact ⟨h.natives, htop, fun _ => hinner, h.functions_insert hnew hreserved⟩
  | leave =>
      unfold Draft.leave
      split
      · exact h
      · rename_i top houter
        have htop := h.top
        rw [houter] at htop
        have hinner := h.inner (by rw [houter]; rfl)
        exact ⟨h.natives, htop, nofun, h.functions_insert rfl hinner⟩
  | emit | emitValue | emitName | emitJump | emitJumpTo => exact h.withBody rfl rfl

end Keyed

end LineScript.Compile.Draft

namespace LineScript.Code

/-- Each function of a program stands under its own name. -/
def Program.Keyed (p : Program) : Prop := ∀ name f, p.functions.get? name = some f → f.name = name

namespace Function

/-- The variables of a function are declared anew from their names. -/
theorem scope_declareAll {f : Function}
    (hmarked : ∀ name marker, f.scope.get? name = some marker → marker = some name) (name : String) :
    (f.scope.keys.foldl declare (.new name [])).scope = f.scope := by
  have hcopies := (copies_new name []).declareAll f.scope.keys
  have hdeclares : (f.scope.keys.foldl declare (.new name [])).declares = f.declares := by
    rw [declares_foldl_declare, declares_new]
    funext n
    rw [Bool.eq_iff_iff]
    simp [declares, Dict.contains_iff, Dict.keys, Dict.get?_eq_some_iff]
  apply Dict.ext_get?
  intro n
  have hsome : ((f.scope.keys.foldl declare (.new name [])).scope.get? n).isSome =
      (f.scope.get? n).isSome := congrFun hdeclares n
  cases hn : f.scope.get? n with
  | none =>
      rw [hn] at hsome
      exact Option.isNone_iff_eq_none.mp (Option.isSome_eq_false_iff.mp hsome)
  | some marker =>
      rw [hn] at hsome
      obtain ⟨marker', hn'⟩ := Option.isSome_iff_exists.mp hsome
      rw [hn', hmarked n marker hn, hcopies.marked n marker' hn']

end Function

end LineScript.Code

namespace LineScript.Compile

open LineScript.Code

/-- The program of a compilation that has come to its end. -/
theorem Draft.Keyed.program {natives : Dict (List String)} {d : Draft} (h : d.Keyed natives)
    (houter : d.outer? = none) : d.program.Keyed := by
  have htop := h.top.1
  rw [houter] at htop
  exact Dict.forall_get?_insert htop fun name f hf => (h.functions name f hf).1

end LineScript.Compile

namespace LineScript.Compiler

open LineScript.Code LineScript.Compile LineScript.Tree

variable {c : Compiler} {tokens : List Token} {d : Draft}

theorem keyed_draft (hc : ∀ p, c.prelude? = some p → p.Keyed) (tokens : List Token) :
    (c.draft tokens).Keyed c.natives := by
  refine ⟨rfl, ⟨Function.name_declareAll _ _, (c.draft_code tokens).2⟩, nofun, fun name f hf => ?_⟩
  unfold draft at hf
  dsimp only at hf
  by_cases hname : name = topLevel
  · subst hname
    rw [Dict.get?_erase_self] at hf
    cases hf
  · rw [Dict.get?_erase_of_ne _ hname] at hf
    cases hprelude : c.prelude? with
    | none =>
        rw [hprelude] at hf
        cases hf
    | some p =>
        rw [hprelude] at hf
        exact ⟨hc p hprelude name f hf, hname⟩

/-- How a compilation of a script ends: all tokens are read, and each function stands under its
name. -/
theorem ends_of_block {source : String} (hc : ∀ p, c.prelude? = some p → p.Keyed)
    (hscan : Token.scan source = .ok tokens) (hblock : block (c.draft tokens) = .ok d) :
    d.rest = [] ∧ d.outer? = none ∧ d.Keyed c.natives := by
  obtain ⟨hproper, -, -⟩ := Token.proper_of_scan hscan
  obtain ⟨hsteps, houter⟩ := steps_of_block (fun t ht h => ((hproper t ht).2 h).2)
    (List.Subset.refl tokens) hblock
  refine ⟨?_, houter, hsteps.keeps (fun _ _ h hstep => h.step hstep) (keyed_draft hc tokens)⟩
  have hkept : ∀ d₁ d₂ : Draft, d₁.rest ⊆ tokens → d₁.Step tokens d₂ → d₂.rest ⊆ tokens :=
    fun _ _ h hstep => List.Subset.trans hstep.rest_subset h
  have hsubset : d.rest ⊆ tokens := hsteps.keeps hkept (List.Subset.refl tokens)
  cases hrest : d.rest with
  | nil => rfl
  | cons t rest =>
      have hend : d.peek.kind = .endOfInput := of_decide_eq_true (atEnd_of_blockWith hblock)
      rw [Draft.peek_of_cons hrest] at hend
      exact absurd hend (hproper t (hsubset (by rw [hrest]; exact List.mem_cons_self))).1

/-! ## A script that goes on where a session stands -/

/-- The compilation of a longer script has come to where a session stands: the same names are known,
the functions are copies, and only the code of the top level was written before. -/
structure Continues (c : Compiler) (d : Draft) : Prop where
  declared : (c.prelude?.getD .new).main?.map (·.scope) = some d.body.scope
  body : (c.draft []).body.Copies d.code d.body
  outer : d.outer? = none
  functions : ∀ name, ((c.draft []).functions.get? name).Rel (Function.Copies [])
    (d.functions.get? name)
  natives : d.natives = c.natives

namespace Continues

/-- Nothing was entered yet. -/
theorem draft (hc : c.prelude? = none) (tokens : List Token) : c.Continues (c.draft tokens) := by
  obtain ⟨natives, prelude?⟩ := c
  dsimp only at hc
  subst hc
  exact ⟨rfl, Function.copies_new topLevel [], rfl, fun _ => .none, rfl⟩

/-- What is entered next is compiled in the same way in the longer script. -/
theorem echoes (h : c.Continues d) {more : List Token}
    (hrest : (tokens ++ more).map Token.unplaced = d.rest.map Token.unplaced)
    (hnamed : ∀ t ∈ tokens ++ more, t.kind = .identifier → t.text ≠ topLevel) :
    (c.draft tokens).Echoes d.code none more d := by
  refine ⟨hrest, hnamed, h.body, ?_, h.functions, h.natives⟩
  rw [h.outer]
  trivial

/-- After an entry both stand behind it. -/
theorem of_echoes {a a' : Draft} {own : List Instruction} {more : List Token}
    (h : a.Echoes own none more a') (hkeyed : a.Keyed c.natives) (houter : a.outer? = none) :
    ({ c with prelude? := some a.program } : Compiler).Continues a' := by
  have htop := hkeyed.top
  rw [houter] at htop
  have hmain : a.program.functions.get? topLevel = some a.body := Dict.get?_insert_self _ _ _
  have hscope := Function.scope_declareAll h.body.marked topLevel
  have hbody : (({ c with prelude? := some a.program } : Compiler).draft []).body =
      a.body.scope.keys.foldl Function.declare (.new topLevel []) := by
    unfold Compiler.draft
    dsimp only [Option.map_some, Option.getD_some]
    rw [hmain]
    rfl
  refine ⟨?_, ?_, ?_, fun name => ?_, h.natives.trans hkeyed.natives⟩
  · change (a.program.functions.get? topLevel).map (·.scope) = some a'.body.scope
    rw [hmain, h.body.scope]
    rfl
  · obtain ⟨scope, hfold⟩ := Function.foldl_declare_eq a.body.scope.keys (.new topLevel [])
    have hnew : Function.new topLevel [] = { name := topLevel } := rfl
    rw [hfold, hnew] at hscope
    rw [hbody, hfold, hnew]
    dsimp only at hscope
    subst hscope
    refine ⟨h.body.name.trans htop.1, h.body.params.trans htop.2, h.body.scope, h.body.marked,
      ⟨rfl, h.body.written.2⟩, ?_⟩
    exact (List.append_nil _).symm
  · have haside := h.outer
    rw [houter] at haside
    cases ha' : a'.outer? with
    | none => rfl
    | some f =>
        rw [ha'] at haside
        exact haside.elim
  · have hfunctions := h.functions name
    unfold Compiler.draft
    dsimp only [Option.map_some, Option.getD_some]
    by_cases hname : name = topLevel
    · have hnone : a.functions.get? name = none := by
        rw [Option.eq_none_iff_forall_ne_some]
        intro f hf
        exact (hkeyed.functions name f hf).2 hname
      rw [hnone] at hfunctions
      rw [hname, Dict.get?_erase_self, ← hname]
      exact hfunctions
    · rw [Dict.get?_erase_of_ne _ hname, Draft.program, Dict.get?_insert_of_ne _ _ hname]
      exact hfunctions

end Continues

/-! ## One entry -/

/-- Tokens with the same names. -/
theorem named_of_unplaced {tokens tokens' : List Token}
    (h : tokens.map Token.unplaced = tokens'.map Token.unplaced)
    (hnamed : ∀ t ∈ tokens', t.kind = .identifier → t.text ≠ topLevel) :
    ∀ t ∈ tokens, t.kind = .identifier → t.text ≠ topLevel := by
  intro t ht hkind
  have hmem : t.unplaced ∈ tokens'.map Token.unplaced := by
    rw [← h]
    exact List.mem_map_of_mem ht
  obtain ⟨t', ht', hsame⟩ := List.mem_map.mp hmem
  have hkind' : t'.unplaced.kind = t.unplaced.kind := by rw [hsame]
  have htext' : t'.unplaced.text = t.unplaced.text := by rw [hsame]
  have hne := hnamed t' ht' (hkind'.trans hkind)
  rwa [show t'.text = t.text from htext'] at hne

/-- A line break between statements is passed over. -/
theorem blockWith_lineBreak (h : d.peek.kind = .lineBreak) (fuel : Nat) :
    blockWith (fuel + 2) [] d = blockWith (fuel + 1) [] d.next := by
  have hend : d.atEnd = false := by
    unfold Draft.atEnd
    rw [h]
    rfl
  have hstatement : statement (fuel + 1) d = .ok d.next := by
    rw [statement]
    simp only [h]
  rw [blockWith_succ, hend, if_neg (by simp), hstatement]
  rfl

/-- The compilation of a longer script has come past an entry: it stands where the session stands now,
and the code of the entry was written. -/
structure Entered (c : Compiler) (p : Program) (more : List Token) (d d' : Draft) : Prop where
  continues : ({ c with prelude? := some p } : Compiler).Continues d'
  rest : d'.rest.map Token.unplaced = more.map Token.unplaced
  code : ∃ main, p.main? = some main ∧
    d'.code = d.code ++ main.code.toList.map (Instruction.moved d.code.length)

/-- An entry that compiles on top of the session is compiled in the longer script. -/
theorem Continues.entered (h : c.Continues d) (hc : ∀ p, c.prelude? = some p → p.Keyed)
    {source : String} (hscan : Token.scan source = .ok tokens) {p : Program}
    (hcompile : c.compile tokens = .ok p) {tokens' more : List Token}
    (htrimmed : Token.Trimmed tokens tokens')
    (hrest : d.rest.map Token.unplaced = (tokens' ++ more).map Token.unplaced)
    (hnamed : ∀ t ∈ d.rest, t.kind = .identifier → t.text ≠ topLevel) (fuel : Nat) :
    (∃ fuel' d', blockWith fuel [] d = blockWith fuel' [] d' ∧ Entered c p more d d') ∨
      ∃ e, blockWith fuel [] d = .error e ∧ e.kind = .internalError := by
  obtain ⟨a, hblock, rfl⟩ := exists_of_compile hcompile
  obtain ⟨hend, houter, hkeyed⟩ := ends_of_block hc hscan hblock
  have hlive := c.live_draft hscan
  -- The first line break is left out where another entry ends with one.
  obtain ⟨first, fuel₀, hfinishes, hfirst⟩ : ∃ first fuel₀, first.Finishes d.code none more d ∧
      blockWith fuel₀ [] first = .ok a := by
    obtain hsame | ⟨t, hbreak, hsame⟩ := htrimmed
    · have hrest' : (tokens ++ more).map Token.unplaced = d.rest.map Token.unplaced := by
        rw [hrest, List.map_append, List.map_append, hsame]
      exact ⟨_, _, ⟨.inl hlive, h.echoes hrest' (named_of_unplaced hrest' hnamed)⟩, hblock⟩
    · obtain ⟨t₀, tokens₀, rfl, rfl, hrest₀⟩ := List.map_eq_cons_iff.mp hsame
      have hrest' : (tokens₀ ++ more).map Token.unplaced = d.rest.map Token.unplaced := by
        rw [hrest, List.map_append, List.map_append, hrest₀]
      have hechoes := h.echoes hrest' (named_of_unplaced hrest' hnamed)
      refine ⟨(c.draft (t₀ :: tokens₀)).next, _, ⟨?_, hechoes.rest, hechoes.named, hechoes.body,
        hechoes.outer, hechoes.functions, hechoes.natives⟩,
        (blockWith_lineBreak (d := c.draft (t₀ :: tokens₀)) hbreak
          (4 * (tokens₀.length + 1) + 2)).symm.trans hblock⟩
      obtain hgone | ⟨hlive, -⟩ := hlive.next_cases [] 0
      · exact .inr hgone
      · exact .inl hlive
  obtain ⟨fuel', d', hblock', hechoes⟩ | hinternal := repeated_block hfinishes hfirst fuel
  · refine .inl ⟨fuel', d', hblock', .of_echoes hechoes hkeyed houter, ?_, a.body,
      Dict.get?_insert_self _ _ _, hechoes.body.code⟩
    rw [← hechoes.rest, hend, List.nil_append]
  · exact .inr hinternal

/-! ## What an entry keeps -/

theorem arity_scope (c : Compiler) (name : String) : c.scope.arity name =
    ((c.shapes name).map (·.params.length)).or ((c.natives.get? name).map List.length) :=
  Draft.arity?_eq_shapes (c.draft []) name

/-- What a name stood for before an entry, it stands for behind it. -/
theorem Compiles.shapes_of_callable {b : Block} {p : Program} (h : c.Compiles b p) {name : String}
    (hname : name ≠ topLevel) (hcallable : c.scope.arity name ≠ none) :
    ({ c with prelude? := some p } : Compiler).shapes name = c.shapes name := by
  have hnew : ∀ f ∈ b.definitions c.scope, f.name ≠ name := by
    rintro f hf rfl
    exact hcallable (b.arity_of_definitions _ h.inScope f hf)
  rw [shapes_prelude, if_neg hname, ← install_of_ne c.shapes hnew]
  exact h.functions name hname

/-- The functions entered before keep their names and their code. -/
theorem Compiles.shapes_of_prelude {b : Block} {p : Program} (h : c.Compiles b p) {name : String}
    {shape : Shape} (hshape : c.shapes name = some shape) :
    ({ c with prelude? := some p } : Compiler).shapes name = some shape := by
  have hname : name ≠ topLevel := by
    rintro rfl
    rw [shapes_topLevel] at hshape
    cases hshape
  rw [← hshape]
  apply h.shapes_of_callable hname
  rw [arity_scope, hshape]
  exact Option.some_ne_none _

/-- No function of the session has the name of a host function. -/
def Apart (c : Compiler) : Prop := ∀ name, c.natives.contains name = true → c.shapes name = none

theorem apart_of_prelude?_eq_none (hc : c.prelude? = none) : c.Apart :=
  fun name _ => shapes_of_prelude?_eq_none hc name

theorem Compiles.apart {b : Block} {p : Program} (h : c.Compiles b p) (hc : c.Apart) :
    ({ c with prelude? := some p } : Compiler).Apart := by
  intro name hnative
  by_cases hname : name = topLevel
  · rw [hname]
    exact shapes_topLevel _
  obtain ⟨params, hparams⟩ := Dict.contains_iff.mp hnative
  rw [h.shapes_of_callable hname, hc name hnative]
  rw [arity_scope, hc name hnative, hparams]
  exact Option.some_ne_none _

end LineScript.Compiler
