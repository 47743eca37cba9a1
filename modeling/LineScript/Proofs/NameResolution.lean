/-
# Where names are found

A variable is looked for twice. The compiler looks for it in the function that it compiles and then
at the top level, at a time when more variables may still be declared in both; the machine looks
again, in the finished function. Both find it in the same scope.

That is so because of the order in which a compilation goes: a variable is declared only where it is
not visible, and the top level declares nothing while a function is compiled. A name that was found
in a function stays there, and a name that was found at the top level never becomes one of the
function's own.
-/

import LineScript.Proofs.JoinedEntries

namespace LineScript.Code

/-- The scopes in which a variable is looked for. -/
inductive Place where
  | own
  | top
  deriving DecidableEq

/-- The scope that a call of the function uses for a variable. -/
def Function.place (f : Function) (name : String) : Place :=
  if f.declares name then .own else .top

/-- An instruction whose target is set keeps its operation and its name. -/
theorem Function.exists_of_modify {f : Function} {patched : Nat} {target : Int} {address : Nat}
    {i : Instruction} (h : ({ f with code? := some (f.code.modify patched (fun i => { i with
      target := target })) } : Function).code[address]? = some i) :
    ∃ j, f.code[address]? = some j ∧ j.op = i.op ∧ j.name = i.name := by
  unfold Function.code at h ⊢
  rw [Option.getD_some, Array.getElem?_modify] at h
  split at h
  · obtain ⟨j, hj, rfl⟩ := Option.map_eq_some_iff.mp h
    exact ⟨j, hj, rfl, rfl⟩
  · exact ⟨i, h, rfl, rfl⟩

theorem Function.place_eq_of_scope {f g : Function} (h : g.scope = f.scope) (name : String) :
    g.place name = f.place name := by
  unfold place declares
  rw [h]

end LineScript.Code

namespace LineScript.Compile

open LineScript.Code

namespace Draft

/-- The scope in which the compiler finds a variable: that of the function it compiles, or else that
of the top level. -/
def place? (d : Draft) (name : String) : Option Place :=
  if d.body.declares name then some .own
  else if d.outer?.any (·.declares name) then some .top
  else none

/-- A compilation from one draft to another goes by the draft `d`, where it appends the reading or
the assignment of a variable that is visible there. -/
structure Accesses (tokens : List Token) (first last : Draft) (d : Draft) (op : Opcode)
    (name : String) : Prop where
  before : first.Steps tokens d
  access : op.accesses = true
  named : NameOf tokens name
  visible : d.sees? name = true
  after : (d.emitName op name).Steps tokens last

/-! ## Single steps -/

section

variable {tokens : List Token} {d d' : Draft}

/-- A step declares a variable that was not visible, enters a new function from the top level or leaves
one, or it leaves the scopes as they are. -/
theorem Step.scope_cases (h : Step tokens d d') :
    (d'.outer? = d.outer? ∧ d'.functions = d.functions ∧ d'.body.name = d.body.name ∧
      d'.body.scope = d.body.scope) ∨
    (∃ name, d.sees? name = false ∧ d' = d.declare name) ∨
    (∃ name params, d.outer? = none ∧ d.functions.get? name = none ∧ d' = { d with
      body := .new name params, outer? := some d.body
      functions := d.functions.insert name (.new name params) }) ∨
    ∃ top, d.outer? = some top ∧ d' = { d with
      body := top, outer? := none, functions := d.functions.insert d.body.name d.body } := by
  cases h with
  | next =>
      unfold Draft.next
      split <;> exact .inl ⟨rfl, rfl, rfl, rfl⟩
  | patchHere hpatch =>
      obtain ⟨body, hbody, rfl⟩ := patchHere_eq_ok hpatch
      rw [Function.eq_of_patchHere hbody]
      exact .inl ⟨rfl, rfl, rfl, rfl⟩
  | declare _ hnew => exact .inr (.inl ⟨_, hnew, rfl⟩)
  | enter houter hreserved hnew =>
      exact .inr (.inr (.inl ⟨_, _, houter, hnew, enter_eq _ hreserved⟩))
  | leave =>
      unfold Draft.leave
      split
      · exact .inl ⟨rfl, rfl, rfl, rfl⟩
      · rename_i top houter
        exact .inr (.inr (.inr ⟨top, houter, rfl⟩))
  | emit | emitValue | emitName | emitJump | emitJumpTo => exact .inl ⟨rfl, rfl, rfl, rfl⟩

/-- The top level, also while another function is compiled. -/
def outermost (d : Draft) : Function := d.outer?.getD d.body

/-- What the top level has declared stays declared. -/
theorem Step.declares_outermost (h : Step tokens d d') {name : String}
    (hname : d.outermost.declares name = true) : d'.outermost.declares name = true := by
  unfold outermost at hname ⊢
  obtain ⟨houter, -, -, hscope⟩ | ⟨other, -, rfl⟩ | ⟨_, _, houter, -, rfl⟩ | ⟨top, houter, rfl⟩ :=
    h.scope_cases
  · rw [houter]
    cases hd : d.outer? with
    | none =>
        rw [hd] at hname
        unfold Function.declares at hname ⊢
        rw [Option.getD_none, hscope]
        exact hname
    | some top =>
        rw [hd] at hname
        exact hname
  · cases hd : d.outer? with
    | none =>
        rw [hd, Option.getD_none] at hname
        change ((d.outer?).getD (d.body.declare other)).declares name = true
        rw [hd, Option.getD_none, Function.declares_declare]
        dsimp only
        rw [hname, Bool.or_true]
    | some top =>
        rw [hd] at hname
        change ((d.outer?).getD (d.body.declare other)).declares name = true
        rw [hd]
        exact hname
  · rw [houter] at hname
    exact hname
  · rw [houter] at hname
    exact hname

end

/-! ## Settled names -/

/-- It is settled in which scope a function finds a variable: while the function is compiled, since a
variable of the top level is there to be found, and when it is finished. -/
inductive Settled (function name : String) (place : Place) (d : Draft) : Prop
  | compiled {top : Function} (houter : d.outer? = some top) (hbody : d.body.name = function)
      (hplace : d.body.place name = place)
      (hvisible : d.body.declares name = true ∨ top.declares name = true)
      (hentered : (d.functions.get? function).isSome = true)
  | finished {f : Function} (hfound : d.functions.get? function = some f)
      (hplace : f.place name = place) (hother : d.outer? ≠ none → d.body.name ≠ function)

section

variable {tokens : List Token} {d d' last : Draft} {function name : String} {place : Place}

theorem Settled.step (h : d.Settled function name place) (hstep : Step tokens d d') :
    d'.Settled function name place := by
  obtain ⟨hsame, hfunctions, hbodyName, hscope⟩ | ⟨other, hnew, rfl⟩ |
    ⟨entered, params, hnone, hnew, rfl⟩ | ⟨outer, hsome, rfl⟩ := hstep.scope_cases
  · cases h with
    | compiled houter hbody hplace hvisible hentered =>
        refine .compiled (hsame.trans houter) (hbodyName.trans hbody)
          ((Function.place_eq_of_scope hscope name).trans hplace) ?_ (by rwa [hfunctions])
        unfold Function.declares at hvisible ⊢
        rwa [hscope]
    | finished hfound hplace hother =>
        refine .finished (by rwa [hfunctions]) hplace fun houter => ?_
        rw [hbodyName]
        exact hother (hsame ▸ houter)
  · cases h with
    | @compiled top houter hbody hplace hvisible hentered =>
        -- What is declared was not visible, so it is another variable.
        have hne : name ≠ other := by
          rintro rfl
          unfold sees? at hnew
          rw [houter, Bool.or_eq_false_iff] at hnew
          obtain hown | htop := hvisible
          · exact absurd (hown.symm.trans hnew.1) nofun
          · exact absurd (htop.symm.trans hnew.2) nofun
        have hdeclares : (d.body.declare other).declares name = d.body.declares name := by
          rw [Function.declares_declare]
          simp [hne]
        have hkeeps : (d.body.declare other).name = d.body.name := by
          unfold Function.declare
          split <;> rfl
        refine .compiled houter (hkeeps.trans hbody) ?_ ?_ hentered
        · unfold Function.place at hplace ⊢
          unfold declare
          rwa [hdeclares]
        · unfold declare
          rwa [hdeclares]
    | finished hfound hplace hother =>
        refine .finished hfound hplace fun houter => ?_
        have hkeeps : (d.body.declare other).name = d.body.name := by
          unfold Function.declare
          split <;> rfl
        exact hkeeps ▸ hother houter
  · cases h with
    | compiled houter => exact absurd (houter.symm.trans hnone) nofun
    | finished hfound hplace hother =>
        have hne : function ≠ entered := by
          rintro rfl
          exact absurd (hfound.symm.trans hnew) nofun
        refine .finished ((Dict.get?_insert_of_ne _ _ hne).trans hfound) hplace fun _ => ?_
        obtain ⟨scope, heq⟩ := Function.new_eq entered params
        rw [heq]
        exact hne.symm
  · cases h with
    | compiled houter hbody hplace hvisible hentered =>
        refine .finished (f := d.body) ?_ hplace (fun hnone => absurd rfl hnone)
        rw [← hbody]
        exact Dict.get?_insert_self _ _ _
    | finished hfound hplace hother =>
        have hne : function ≠ d.body.name := (hother (by rw [hsome]; nofun)).symm
        exact .finished ((Dict.get?_insert_of_ne _ _ hne).trans hfound) hplace
          (fun hnone => absurd rfl hnone)

/-- Where the compiler finds a variable, a call of the finished function finds it. -/
theorem Accesses.place_eq {first : Draft} {natives : Dict (List String)} {op : Opcode}
    (h : Accesses tokens first last d op name) (hd : d.Keyed natives) (hend : last.outer? = none)
    (hentered : d.outer? ≠ none → (d.functions.get? d.body.name).isSome = true) :
    ∃ f, last.program.functions.get? d.body.name = some f ∧ d.place? name = some (f.place name) ∧
      (f.place name = .top → last.body.declares name = true) := by
  have hvisible := h.visible
  have htop : d.outermost.declares name = true → last.body.declares name = true := by
    intro hdeclared
    have hstep : ∀ d₁ d₂ : Draft, d₁.outermost.declares name = true → Step tokens d₁ d₂ →
        d₂.outermost.declares name = true := fun _ _ h hstep => hstep.declares_outermost h
    have hkept : last.outermost.declares name = true := h.after.keeps hstep
      (hstep d _ hdeclared (.emitName d op h.named fun _ => h.visible))
    unfold outermost at hkept
    rwa [hend] at hkept
  cases houter : d.outer? with
  | none =>
      have hname : d.body.name = topLevel := by
        have := hd.top.1
        rwa [houter] at this
      have hdeclared : d.body.declares name = true := by
        unfold sees? at hvisible
        rwa [houter, Option.any_none, Bool.or_false] at hvisible
      have hfinal := htop (by unfold outermost; rwa [houter])
      refine ⟨last.body, by rw [hname]; exact Dict.get?_insert_self _ _ _, ?_, fun _ => hfinal⟩
      unfold place? Function.place
      rw [if_pos hdeclared, if_pos hfinal]
  | some top =>
      have hname : d.body.name ≠ topLevel := hd.inner (by rw [houter]; rfl)
      have hsees : d.body.declares name = true ∨ top.declares name = true := by
        unfold sees? at hvisible
        rw [houter] at hvisible
        exact (Bool.or_eq_true _ _).mp hvisible
      have hsettled : (d.emitName op name).Settled d.body.name name (d.body.place name) :=
        .compiled houter rfl rfl hsees (hentered (by rw [houter]; nofun))
      have hstep : ∀ d₁ d₂ : Draft, d₁.Settled d.body.name name (d.body.place name) →
          Step tokens d₁ d₂ → d₂.Settled d.body.name name (d.body.place name) :=
        fun _ _ h hstep => h.step hstep
      cases h.after.keeps hstep hsettled with
      | compiled hsome => exact absurd (hsome.symm.trans hend) nofun
      | @finished f hfound hplace _ =>
          refine ⟨f, (Dict.get?_insert_of_ne _ _ hname).trans hfound, ?_, fun htopPlace => ?_⟩
          · rw [hplace]
            unfold place? Function.place
            cases hown : d.body.declares name with
            | true => rfl
            | false =>
                rw [hown] at hsees
                have hdeclared := hsees.resolve_left nofun
                rw [houter, Option.any_some, hdeclared]
                rfl
          · refine htop ?_
            rw [hplace] at htopPlace
            unfold Function.place at htopPlace
            unfold outermost
            rw [houter]
            obtain hown | hdeclared := hsees
            · rw [if_pos hown] at htopPlace
              cases htopPlace
            · exact hdeclared

/-- A function that is compiled can be called. -/
theorem Steps.entered {first : Draft} (hfirst : first.outer? = none) (h : first.Steps tokens d) :
    d.outer? ≠ none → (d.functions.get? d.body.name).isSome = true := by
  suffices hkept : ∀ d₁ d₂ : Draft, (d₁.outer? ≠ none → (d₁.functions.get? d₁.body.name).isSome = true) →
      Step tokens d₁ d₂ → d₂.outer? ≠ none → (d₂.functions.get? d₂.body.name).isSome = true from
    h.keeps hkept fun hinner => absurd hfirst hinner
  intro d₁ d₂ hentered hstep
  obtain ⟨hsame, hfunctions, hbodyName, -⟩ | ⟨other, -, rfl⟩ | ⟨entered, params, -, -, rfl⟩ |
    ⟨outer, -, rfl⟩ := hstep.scope_cases
  · rw [hsame, hfunctions, hbodyName]
    exact hentered
  · intro hinner
    have hkeeps : (d₁.body.declare other).name = d₁.body.name := by
      unfold Function.declare
      split <;> rfl
    exact hkeeps ▸ hentered hinner
  · obtain ⟨scope, heq⟩ := Function.new_eq entered params
    intro _
    have hname : (Function.new entered params).name = entered := by rw [heq]
    rw [hname, Dict.get?_insert_self]
    rfl
  · exact fun hinner => absurd rfl hinner

end

/-! ## Where instructions come from -/

/-- Every reading and every assignment of a variable in a function was appended on the way from the
first draft to the last one. -/
def Stems (tokens : List Token) (first last : Draft) (f : Function) : Prop :=
  ∀ (address : Nat) (i : Instruction), f.code[address]? = some i → i.op.accesses = true →
    ∃ d, Accesses tokens first last d i.op i.name ∧ d.body.name = f.name ∧ d.address = address

section

variable {tokens : List Token} {first d d' : Draft} {f g : Function}

theorem Stems.step (h : Stems tokens first d f) (hstep : Step tokens d d') :
    Stems tokens first d' f := by
  intro address i hi haccess
  obtain ⟨d₁, ⟨hbefore, -, hnamed, hvisible, hafter⟩, hplace⟩ := h address i hi haccess
  exact ⟨d₁, ⟨hbefore, haccess, hnamed, hvisible, hafter.tail hstep⟩, hplace⟩

/-- Resolved placeholders read and assign no more variables than before. -/
theorem Stems.congr (h : Stems tokens first d f) (hname : g.name = f.name)
    (hcode : ∀ (address : Nat) (i : Instruction), g.code[address]? = some i →
      ∃ j, f.code[address]? = some j ∧ j.op = i.op ∧ j.name = i.name) : Stems tokens first d g := by
  intro address i hi haccess
  obtain ⟨j, hj, hop, hjname⟩ := hcode address i hi
  rw [← hop] at haccess ⊢
  rw [← hjname, hname]
  exact h address j hj haccess

theorem Stems.of_code_eq (h : Stems tokens first d f) (hname : g.name = f.name)
    (hcode : g.code = f.code) : Stems tokens first d g :=
  h.congr hname fun _ i hi => ⟨i, hcode ▸ hi, rfl, rfl⟩

/-- One more instruction stems from the step that appends it. -/
theorem Stems.emit (h : Stems tokens first d' d.body) {i : Instruction}
    (hi : i.op.accesses = true → Accesses tokens first d' d i.op i.name) :
    Stems tokens first d' (d.body.emit i) := by
  intro address j hj haccess
  have hpush : (d.body.emit i).code[address]? =
      if address = d.body.code.size then some i else d.body.code[address]? := by
    unfold Function.emit
    exact Array.getElem?_push
  rw [hpush] at hj
  split at hj
  · rename_i haddress
    cases hj
    exact ⟨d, hi haccess, rfl, haddress.symm⟩
  · exact h address j hj haccess

/-- All instructions of a draft stem from steps before it. -/
structure AllStem (tokens : List Token) (first d : Draft) : Prop where
  body : Stems tokens first d d.body
  outer : ∀ top, d.outer? = some top → Stems tokens first d top
  functions : ∀ name f, d.functions.get? name = some f → Stems tokens first d f

theorem AllStem.withBody (h : AllStem tokens first d) {body : Function}
    (hstep : Step tokens d { d with body := body })
    (hbody : Stems tokens first { d with body := body } body) :
    AllStem tokens first { d with body := body } :=
  ⟨hbody, fun top houter => (h.outer top houter).step hstep,
    fun name f hf => (h.functions name f hf).step hstep⟩

theorem AllStem.functions_insert (h : AllStem tokens first d) (hstep : Step tokens d d')
    {name : String} (hf : Stems tokens first d' f) :
    ∀ other g, (d.functions.insert name f).get? other = some g → Stems tokens first d' g :=
  Dict.forall_get?_insert hf fun other g hg => (h.functions other g hg).step hstep

/-- An instruction without access to a variable needs no origin. -/
theorem AllStem.emit (h : AllStem tokens first d) {i : Instruction}
    (hstep : Step tokens d { d with body := d.body.emit i }) (hi : i.op.accesses = false) :
    AllStem tokens first { d with body := d.body.emit i } :=
  h.withBody hstep ((h.body.step hstep).emit fun haccess => absurd (haccess.symm.trans hi) nofun)

theorem accesses_of_operand {op : Opcode} (h : op.operand ≠ .name) : op.accesses = false := by
  cases op <;> first | rfl | exact absurd rfl h

theorem AllStem.step (h : AllStem tokens first d) (hbefore : first.Steps tokens d)
    (hstep : Step tokens d d') : AllStem tokens first d' := by
  cases hstep with
  | next =>
      have hbody := h.body.step (.next d)
      unfold Draft.next at hbody ⊢
      split
      · exact h
      · rename_i t rest hrest
        have hnext : Step tokens d { d with rest := rest, consumed? := some t.line } := by
          have hnext : Step tokens d d.next := .next d
          rwa [next_of_cons hrest] at hnext
        exact ⟨h.body.step hnext, fun top houter => (h.outer top houter).step hnext,
          fun name f hf => (h.functions name f hf).step hnext⟩
  | emit hop => exact h.emit (.emit d hop) (accesses_of_operand (by rw [hop]; nofun))
  | emitValue hl => exact h.emit (.emitValue d hl) rfl
  | emitJump hop =>
      refine h.emit (.emitJump d hop) (accesses_of_operand ?_)
      rw [of_decide_eq_true hop]
      nofun
  | emitJumpTo hop htarget =>
      refine h.emit (.emitJumpTo d hop htarget) (accesses_of_operand ?_)
      rw [of_decide_eq_true hop]
      nofun
  | emitName op hname hvisible =>
      have hstep := Step.emitName d op hname hvisible
      refine h.withBody hstep ((h.body.step hstep).emit fun haccess => ?_)
      exact ⟨hbefore, haccess, hname, hvisible haccess, .refl⟩
  | patchHere hpatch =>
      have hstep : Step tokens d d' := .patchHere hpatch
      obtain ⟨body, hbody, rfl⟩ := patchHere_eq_ok hpatch
      refine h.withBody hstep ((h.body.step hstep).congr ?_ fun address i hi => ?_)
      · rw [Function.eq_of_patchHere hbody]
      · rw [Function.eq_of_patchHere hbody] at hi
        exact Function.exists_of_modify hi
  | declare hname hnew =>
      have hstep := Step.declare d hname hnew
      refine h.withBody hstep ((h.body.step hstep).of_code_eq ?_ ?_)
      · unfold Function.declare
        split <;> rfl
      · unfold Function.declare
        split <;> rfl
  | @enter name params houter hreserved hnew hname hparams =>
      have hstep := Step.enter d houter hreserved hnew hname hparams
      rw [enter_eq params hreserved] at hstep ⊢
      have hempty : Stems tokens first { d with
          body := .new name params, outer? := some d.body
          functions := d.functions.insert name (.new name params) } (.new name params) := by
        intro address i hi
        obtain ⟨scope, heq⟩ := Function.new_eq name params
        rw [heq] at hi
        cases hi
      refine ⟨hempty, ?_, h.functions_insert hstep hempty⟩
      rintro top ⟨⟩
      exact h.body.step hstep
  | leave =>
      have hstep : Step tokens d d.leave := .leave d
      unfold leave at hstep ⊢
      split at hstep
      · exact h
      · rename_i top hsome
        exact ⟨(h.outer top hsome).step hstep, nofun, h.functions_insert hstep (h.body.step hstep)⟩

/-- Where a compilation begins without code, all its readings and assignments are its own. -/
theorem AllStem.steps {last : Draft} (h : AllStem tokens first first)
    (hsteps : first.Steps tokens last) : AllStem tokens first last := by
  induction hsteps with
  | refl => exact h
  | tail hbefore hstep ih => exact ih.step hbefore hstep

end

end Draft

end LineScript.Compile

namespace LineScript.Compiler

open LineScript.Code LineScript.Compile

/-! ## Whole compilations -/

/-- In a compilation that began without an earlier program, all that reads or assigns a variable comes
from steps that do so where the variable is visible, and where the compiler found it then, a call of the
finished function finds it. -/
structure Resolved (tokens : List Token) (first last : Draft) (p : Program) : Prop where
  steps : first.Steps tokens last
  origin : ∀ name f, p.functions.get? name = some f → ∀ (address : Nat) (i : Instruction),
    f.code[address]? = some i → i.op.accesses = true →
      ∃ d, Draft.Accesses tokens first last d i.op i.name ∧ d.body.name = name ∧ d.address = address
  agreement : ∀ d op name, Draft.Accesses tokens first last d op name →
    ∃ f main, p.functions.get? d.body.name = some f ∧ p.main? = some main ∧
      d.place? name = some (f.place name) ∧
      (f.declares name = true ∨ main.declares name = true)

/-- The compilation of a script is one in which all names are resolved. -/
theorem resolved_of_compileSource {c : Compiler} {source : String} {p : Program}
    (hprelude : c.prelude? = none) (h : c.compileSource source = .ok p) :
    ∃ tokens last, Token.scan source = .ok tokens ∧ block (c.draft tokens) = .ok last ∧
      p = last.program ∧ Resolved tokens (c.draft tokens) last p := by
  unfold compileSource at h
  cases hscan : Token.scan source with
  | error e =>
      rw [hscan] at h
      cases h
  | ok tokens =>
      rw [hscan, ok_bind] at h
      obtain ⟨last, hblock, rfl⟩ := exists_of_compile h
      have hkeyedPrelude : ∀ q, c.prelude? = some q → q.Keyed := by
        rw [hprelude]
        nofun
      obtain ⟨-, hend, hkeyed⟩ := ends_of_block hkeyedPrelude hscan hblock
      obtain ⟨hproper, -, -⟩ := Token.proper_of_scan hscan
      obtain ⟨hsteps, -⟩ := steps_of_block (fun t ht h => ((hproper t ht).2 h).2)
        (List.Subset.refl tokens) hblock
      have hfirst := keyed_draft hkeyedPrelude tokens
      have hempty : (c.draft tokens).AllStem tokens (c.draft tokens) := by
        refine ⟨fun address i hi => ?_, nofun, fun name f hf => ?_⟩
        · have hcode : (c.draft tokens).body.code.toList = [] :=
            List.map_eq_nil_iff.mp (c.draft_code tokens).1
          rw [← Array.getElem?_toList, hcode] at hi
          cases hi
        · unfold draft at hf
          rw [hprelude] at hf
          cases hf
      have hstems := hempty.steps hsteps
      refine ⟨tokens, last, rfl, hblock, rfl, hsteps, fun name f hf address i hi haccess => ?_,
        fun d op name haccess => ?_⟩
      · by_cases hname : name = topLevel
        · rw [hname] at hf ⊢
          cases (Dict.get?_insert_self _ _ _).symm.trans hf
          have htop := hkeyed.top.1
          rw [hend] at htop
          rw [← htop]
          exact hstems.body address i hi haccess
        · have hf' : last.functions.get? name = some f :=
            (Dict.get?_insert_of_ne _ _ hname).symm.trans hf
          rw [← (hkeyed.functions name f hf').1]
          exact hstems.functions name f hf' address i hi haccess
      · have hd := haccess.before.keeps (fun _ _ h hstep => h.step hstep) hfirst
        obtain ⟨f, hf, hplace, htop⟩ :=
          haccess.place_eq hd hend (haccess.before.entered rfl)
        refine ⟨f, last.body, hf, Dict.get?_insert_self _ _ _, hplace, ?_⟩
        unfold Function.place at htop
        cases hown : f.declares name with
        | true => exact .inl rfl
        | false =>
            rw [hown] at htop
            exact .inr (htop rfl)

end LineScript.Compiler
