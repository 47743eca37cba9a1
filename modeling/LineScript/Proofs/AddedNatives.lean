/-
# Adding host functions

A script is not disturbed by host functions that are added, unless it defines a function under one of
their names. What it compiles to stays the same, since calls are found where they were found before; and
what is wrong with it stays wrong in the same way, unless it called a function that was missing.

The compilations before and after run in lockstep. They look host functions up at calls, where more of
them only help, and at the headers of functions, where the condition on the names is needed.
-/

import LineScript.Proofs.CompiledCode
import LineScript.Proofs.LockstepStatements

namespace LineScript.Compile

open LineScript.Code

/-- The names that stand where a function is defined: identifiers right behind `func`. -/
def definitions : List Token → List String
  | t :: u :: rest =>
    if t.kind = .func ∧ u.kind = .identifier then u.text :: definitions (u :: rest)
    else definitions (u :: rest)
  | _ => []

theorem definitions_tail_subset (tokens : List Token) :
    definitions tokens.tail ⊆ definitions tokens := by
  match tokens with
  | [] | [_] => exact List.Subset.refl _
  | t :: u :: rest =>
      rw [definitions]
      split
      · exact List.subset_cons_self _ _
      · exact List.Subset.refl _

theorem mem_definitions {d : Draft} (hfunc : d.peek.kind = .func)
    (hname : d.next.peek.kind = .identifier) : d.next.peek.text ∈ definitions d.rest := by
  obtain ⟨rest, hrest⟩ := Draft.rest_eq_cons_of_peek (d := d) (by rw [hfunc]; decide)
  obtain ⟨rest', hrest'⟩ := Draft.rest_eq_cons_of_peek (d := d.next) (by rw [hname]; decide)
  have htail : rest = d.next.peek :: rest' := by
    rw [← hrest', Draft.rest_next, hrest]
    rfl
  rw [hrest, htail, definitions, if_pos ⟨hfunc, hname⟩]
  exact List.mem_cons_self

/-- The host functions of one dictionary are those of another one and maybe more. -/
def Extends (natives' natives : Dict (List String)) : Prop :=
  ∀ name params, natives.get? name = some params → natives'.get? name = some params

/-- A script defines no function under the name of a host function that has been added. -/
def Spares (natives' natives : Dict (List String)) (tokens : List Token) : Prop :=
  ∀ name ∈ definitions tokens, natives'.contains name = true → natives.contains name = true

theorem Draft.natives_next (d : Draft) : d.next.natives = d.natives := by
  unfold next
  split <;> rfl

/-- A compilation beside the one with more host functions. They part where the function that is called
is missing here. -/
def adding {natives natives' : Dict (List String)} (hextends : Extends natives' natives) :
    Lockstep where
  natives := natives'
  Inv d := d.natives = natives ∧ Spares natives' natives d.rest
  Good _ := True
  Parts e := e.kind = .undefinedFunction
  next := by
    rintro d ⟨hnatives, hspares⟩
    refine ⟨(Draft.natives_next d).trans hnatives, fun name hname => hspares name ?_⟩
    rw [Draft.rest_next] at hname
    exact definitions_tail_subset _ hname
  emit h _ := h
  patch h _ := h
  declare _ h := h
  enter name params h := by
    unfold Draft.enter
    split <;> exact h
  leave {d} h := by
    unfold Draft.leave
    cases d.outer? <;> exact h
  seen h := h
  atNext _ _ := trivial
  atLast _ _ := trivial
  called := by
    rintro d ⟨rfl, -⟩ name
    unfold Draft.arity? Draft.hostedBy
    dsimp only
    cases d.functions.get? name with
    | some f => exact .inl rfl
    | none =>
        cases hparams : d.natives.get? name with
        | none => exact .inr ⟨rfl, fun _ => rfl⟩
        | some params =>
            refine .inl ?_
            dsimp only
            rw [hextends name params hparams]
  defined := by
    rintro d ⟨rfl, hspares⟩ hfunc hname
    have hnatives : d.next.next.natives = d.natives := by
      rw [Draft.natives_next, Draft.natives_next]
    have hspared := hspares _ (mem_definitions hfunc hname)
    unfold Draft.arity? Draft.hostedBy
    dsimp only
    rw [hnatives]
    cases d.next.next.functions.get? d.next.peek.text with
    | some f => rfl
    | none =>
        dsimp only
        rw [Option.isSome_map, Option.isSome_map, Bool.eq_iff_iff]
        refine ⟨hspared, fun h => ?_⟩
        obtain ⟨params, hparams⟩ := Option.isSome_iff_exists.mp h
        rw [hextends _ _ hparams]
        rfl

end LineScript.Compile

namespace LineScript.Compiler

open LineScript.Code LineScript.Compile

/-- With host functions added, a script that defines none of them compiles to the same program, or fails
with the same error unless it called a function that was missing. -/
theorem undisturbed_by_natives (c : Compiler) (natives : Dict (List String))
    (hextends : Extends natives c.natives) (source : String)
    (hspares : ∀ tokens, Token.scan source = .ok tokens → Spares natives c.natives tokens) :
    (∀ p, c.compileSource source = .ok p →
      ({ c with natives := natives } : Compiler).compileSource source = .ok p) ∧
    (∀ e, c.compileSource source = .error e → e.kind ≠ .undefinedFunction →
      ({ c with natives := natives } : Compiler).compileSource source = .error e) := by
  unfold compileSource
  cases hscan : Token.scan source with
  | error e => exact ⟨nofun, fun _ h _ => h⟩
  | ok tokens =>
      have hinv : (adding hextends).Inv (c.draft tokens) := ⟨rfl, hspares tokens hscan⟩
      have hagree := agree_compile hinv
      change (∀ p, c.compile tokens = .ok p →
          ({ c with natives := natives } : Compiler).compile tokens = .ok p) ∧
        (∀ e, c.compile tokens = .error e → e.kind ≠ .undefinedFunction →
          ({ c with natives := natives } : Compiler).compile tokens = .error e)
      constructor
      · intro p hp
        rw [hp] at hagree
        obtain ⟨p', hp', rfl, -⟩ := hagree
        exact hp'
      · intro e he hkind
        rw [he] at hagree
        obtain hparts | ⟨-, hsame⟩ := hagree
        · exact absurd hparts hkind
        · exact hsame

/-- With a second host function, a script that defines a function of its own, and one that is wrong. -/
theorem undisturbed_by_natives_log :
    let before : Dict (List String) := Dict.insert ∅ "len" ["value"]
    let after : Dict (List String) := before.insert "log" ["value"]
    (∃ p, compileSource { natives := before } "func f(x)\nreturn len(x)\nend\ny = f(null)" = .ok p ∧
      compileSource { natives := after } "func f(x)\nreturn len(x)\nend\ny = f(null)" = .ok p) ∧
    (∃ e, e.kind = .arityMismatch ∧
      compileSource { natives := before } "func f(x)\nreturn len(x, x)\nend" = .error e ∧
      compileSource { natives := after } "func f(x)\nreturn len(x, x)\nend" = .error e) := by
  intro before after
  have hextends : Extends after before := by
    intro name params h
    rwa [Dict.get?_insert_of_ne]
    rintro rfl
    cases h
  have hspares : ∀ source, (Token.scan source).toOption.map definitions = some ["f"] →
      ∀ tokens, Token.scan source = .ok tokens → Spares after before tokens := by
    intro source hdefinitions tokens hscan name hname hcontains
    rw [hscan] at hdefinitions
    rw [Option.some.inj hdefinitions, List.mem_singleton] at hname
    subst hname
    exact absurd hcontains (by decide)
  constructor
  · have hok : (compileSource { natives := before }
        "func f(x)\nreturn len(x)\nend\ny = f(null)").isOk = true := by cbv
    obtain ⟨p, hp⟩ := Registry.exists_of_isOk hok
    exact ⟨p, hp, (undisturbed_by_natives { natives := before } after hextends _
      (hspares _ (by decide +kernel))).1 p hp⟩
  · have hfails : compileSource { natives := before } "func f(x)\nreturn len(x, x)\nend" =
        .error { cause := .arityMismatch "len" 1 2, line := 2, token := "identifier(len)" } := by cbv
    exact ⟨_, rfl, hfails, (undisturbed_by_natives { natives := before } after hextends _
      (hspares _ (by decide +kernel))).2 _ hfails (by decide)⟩

end LineScript.Compiler
