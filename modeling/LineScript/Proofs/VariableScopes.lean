/-
# Variables of a run

Each call has variables of its own, and all calls share those of the top level. An instruction reads or
assigns a variable in one of the two, by what the running function declares. For a compiled program
this is the scope in which the compiler found the variable when it wrote the instruction.

So no run assigns a variable that the top level does not declare. A step changes the variables of the
running call or those of the top level, one at a time; a new call begins with its arguments, and the
calls that wait keep what they have.
-/

import LineScript.Proofs.JoinedRuns
import LineScript.Proofs.Limits
import LineScript.Proofs.NameResolution

namespace LineScript.Machine

open LineScript.Code

/-! ## Scopes of a state -/

namespace State

/-- The variables of a scope; the running call's own are those of the top level when it is the top
level that runs. -/
def scope (s : State) : Place → Dict Value
  | .own => s.locals
  | .top => s.globals

/-- Assigns a variable of a scope. -/
def assign (s : State) (place : Place) (name : String) (v : Value) : State :=
  match place, s.frame.locals? with
  | .own, some locals => { s with frame := { s.frame with locals? := some (locals.insert name v) } }
  | _, _ => { s with globals := s.globals.insert name v }

/-- The variables of the active calls, innermost first; the top level has none of its own. -/
def activations (s : State) : List (Option (Dict Value)) := (s.frame :: s.callers).map Frame.locals?

end State

section

variable {p : Program} {limits : Limits} {s s' t : State} {i : Instruction} {main : Function}

theorem load_eq_scope (s : State) (name : String) :
    s.load name = ((s.scope (s.frame.function.place name)).get? name).getD .null := by
  unfold State.load Function.place
  cases s.frame.function.declares name <;> rfl

theorem store_eq_assign (s : State) (name : String) (v : Value) :
    s.store name v = s.assign (s.frame.function.place name) name v := by
  unfold State.store State.assign Function.place
  cases s.frame.function.declares name <;> cases s.frame.locals? <;> rfl

/-! ## What a step does to the variables -/

/-- What a step from one state to another does to the variables. -/
inductive Touches (main : Function) (s s' : State) : Prop
  | nothing (hactivations : s'.activations = s.activations) (hglobals : s'.globals = s.globals)
  | own {name : String} {v : Value} {locals : Dict Value} {waiting : List (Option (Dict Value))}
      (hplace : s.frame.function.place name = .own) (hbefore : s.activations = some locals :: waiting)
      (hafter : s'.activations = some (locals.insert name v) :: waiting)
      (hglobals : s'.globals = s.globals)
  | top {name : String} {v : Value} (hdeclared : main.declares name = true)
      (hactivations : s'.activations = s.activations) (hglobals : s'.globals = s.globals.insert name v)
  | enter {f : Function} {args : List Value}
      (hafter : s'.activations = some (State.arguments f.params args) :: s.activations)
      (hglobals : s'.globals = s.globals)
  | leave {locals? : Option (Dict Value)} (hbefore : s.activations = locals? :: s'.activations)
      (hglobals : s'.globals = s.globals)

/-- What a transition does to the variables; the end of a run does nothing to those of the top level. -/
def Transition.Touches (main : Function) (s : State) : Transition → Prop
  | .next s' => Machine.Touches main s s'
  | t => t.state.globals = s.globals

/-- A step is the same for states with the same function, variables and calls. -/
theorem Transition.Touches.of_same {r : Transition} (h : r.Touches main t)
    (hfunction : t.frame.function = s.frame.function) (hactivations : t.activations = s.activations)
    (hglobals : t.globals = s.globals) : r.Touches main s := by
  cases r with
  | next s' =>
      cases h with
      | nothing hafter hkept => exact .nothing (hafter.trans hactivations) (hkept.trans hglobals)
      | own hplace hbefore hafter hkept =>
          exact .own (hfunction ▸ hplace) (hactivations.symm.trans hbefore) hafter
            (hkept.trans hglobals)
      | top hdeclared hafter hkept =>
          exact .top hdeclared (hafter.trans hactivations) (hglobals ▸ hkept)
      | enter hafter hkept => exact .enter (hactivations ▸ hafter) (hkept.trans hglobals)
      | leave hbefore hkept => exact .leave (hactivations.symm.trans hbefore) (hkept.trans hglobals)
  | finished | failed | breakdown => exact Eq.trans h hglobals

theorem touches_of_state_eq {t : Transition}
    (h : (t.state.globals, t.state.activations) = (s.globals, s.activations)) : t.Touches main s := by
  obtain ⟨hglobals, hactivations⟩ := Prod.mk.inj h
  cases t with
  | next s' => exact .nothing hactivations hglobals
  | finished | failed | breakdown => exact hglobals

theorem untouched_variables : Untouched fun s => (s.globals, s.activations) :=
  ⟨fun _ => rfl, fun _ _ => rfl, fun _ _ => rfl, fun _ _ => rfl, fun _ _ => rfl⟩

theorem touches_leave (s : State) (v : Value) : (s.leave v).Touches main s := by
  obtain ⟨stack, frame, callers, globals, world, natives, steps, trace?⟩ := s
  cases callers with
  | nil => rfl
  | cons caller callers => exact .leave rfl rfl

theorem touches_enter (s : State) (limits : Limits) (name : String) (f : Function) :
    (s.enter limits name f).Touches main s := by
  unfold State.enter
  dsimp only
  split
  · rfl
  · split
    · rfl
    · exact .enter rfl rfl

theorem touches_ask (s : State) (name : String) (bound : Bound) :
    (s.ask name bound).Touches main s := by
  unfold State.ask
  split
  · rfl
  · split
    · rfl
    · obtain ⟨stack, frame, callers, globals, world, natives, steps, trace?⟩ := s
      unfold State.answer
      dsimp only
      split
      · exact .nothing rfl rfl
      · rfl
      · rfl

theorem touches_call (s : State) (p : Program) (limits : Limits) (name : String) :
    (s.call p limits name).Touches main s := by
  unfold State.call
  split
  · exact touches_enter s limits name _
  · split
    · exact touches_ask s name _
    · rfl

/-- An assignment changes one variable in the scope that the running function says. -/
theorem touches_store (name : String) (v : Value)
    (hdeclared : s.frame.locals? = none ∨ s.frame.function.place name = .top →
      main.declares name = true) : Machine.Touches main s (s.store name v) := by
  rw [store_eq_assign]
  cases hplace : s.frame.function.place name with
  | own =>
      cases hlocals : s.frame.locals? with
      | none =>
          have hassigned : s.assign .own name v =
              { s with globals := s.globals.insert name v } := by
            unfold State.assign
            rw [hlocals]
          rw [hassigned]
          exact .top (hdeclared (.inl hlocals)) rfl rfl
      | some locals =>
          have hassigned : s.assign .own name v =
              { s with frame := { s.frame with locals? := some (locals.insert name v) } } := by
            unfold State.assign
            rw [hlocals]
          have hbefore : s.activations = some locals :: s.callers.map Frame.locals? := by
            unfold State.activations
            rw [List.map_cons, hlocals]
          rw [hassigned]
          exact .own hplace hbefore rfl rfl
  | top => exact .top (hdeclared (.inr hplace)) rfl rfl

/-- Carrying out an instruction. -/
theorem touches_execute (p : Program) (limits : Limits) (s : State) (i : Instruction)
    (hdeclared : i.op = .store → s.frame.locals? = none ∨ s.frame.function.place i.name = .top →
      main.declares i.name = true) : (s.execute p limits i).Touches main s := by
  by_cases hcall : i.op = .call
  · unfold State.execute
    rw [hcall]
    exact touches_call s p limits i.name
  by_cases hret : i.op = .ret
  · unfold State.execute
    rw [hret]
    dsimp only
    unfold State.popping
    split
    · exact (touches_leave s.drop s.top).of_same rfl rfl rfl
    · rfl
  by_cases hstore : i.op = .store
  · have hassigned := hdeclared hstore
    unfold State.execute
    rw [hstore]
    dsimp only
    unfold State.popping
    split
    · have htouches : (Transition.next (s.drop.store i.name s.top)).Touches main s.drop :=
        touches_store i.name s.top hassigned
      exact htouches.of_same rfl rfl rfl
    · rfl
  · exact touches_of_state_eq (untouched_variables.execute p limits s hcall hret hstore)

/-- One step, when the assignment that comes next, if one does, is of a variable that is there. -/
theorem touches_step (p : Program) (limits : Limits) (cancelled : Bool) (s : State)
    (hdeclared : ∀ i, s.instruction? = some i → i.op = .store →
      s.frame.locals? = none ∨ s.frame.function.place i.name = .top → main.declares i.name = true) :
    (s.step p limits cancelled).Touches main s := by
  unfold State.step
  unfold State.instruction? at hdeclared
  split
  · rfl
  · rename_i hip
    rw [if_neg hip] at hdeclared
    dsimp only
    split
    · exact touches_leave s .null
    · rename_i i hi
      split
      · rfl
      · split
        · rfl
        · obtain ⟨trace?, hrecorded⟩ := recorded_eq s.begin s.frame.ip.toNat i
          rw [hrecorded]
          have htouches := touches_execute p limits { s.begin with trace? := trace? } i (hdeclared i hi)
          exact htouches.of_same rfl rfl rfl

/-! ## The calls of a run -/

/-- A call of the top level, which has no variables of its own, or of another function of the program,
which has some. -/
def Frame.Placed (p : Program) (main : Function) (f : Frame) : Prop :=
  (f.function = main ∧ f.locals? = none) ∨
    (∃ name, name ≠ topLevel ∧ p.functions.get? name = some f.function) ∧ f.locals?.isSome = true

/-- All calls of a state are such calls. -/
def AllPlaced (p : Program) (main : Function) (s : State) : Prop :=
  ∀ f ∈ s.frame :: s.callers, f.Placed p main

theorem AllPlaced.step {cancelled : Bool} (h : AllPlaced p main s)
    (hstep : s.step p limits cancelled = .next s') : AllPlaced p main s' := by
  obtain ⟨hframe, hcallers⟩ := List.forall_mem_cons.mp h
  obtain ⟨-, hlocals⟩ := keepsSetting_of_step hstep
  obtain hremains | ⟨f, args, henters⟩ | ⟨v, hreturns⟩ := step_cases hstep
  · have hsame := hlocals hremains.callers
    refine List.forall_mem_cons.mpr ⟨?_, hremains.callers ▸ hcallers⟩
    obtain ⟨hmain, hnone⟩ | ⟨hfound, hsome⟩ := hframe
    · rw [hnone] at hsame
      exact .inl ⟨hremains.function.trans hmain, by simpa using hsame⟩
    · exact .inr ⟨hremains.function ▸ hfound, hsame.trans hsome⟩
  · unfold AllPlaced
    rw [henters.frame, henters.callers]
    exact List.forall_mem_cons.mpr ⟨.inr ⟨henters.function, rfl⟩,
      List.forall_mem_cons.mpr ⟨hframe, hcallers⟩⟩
  · unfold AllPlaced
    rw [← hreturns.callers]
    exact hcallers

theorem AllPlaced.reachable {m : Machine} (h : Reachable p limits (m.start main) s) :
    AllPlaced p main s := by
  induction h with
  | first => exact List.forall_mem_cons.mpr ⟨.inl ⟨rfl, rfl⟩, List.forall_mem_nil _⟩
  | next cancelled _ hstep ih => exact ih.step hstep

end

/-! ## Compiled programs -/

section

open LineScript.Compile

variable {tokens : List Token} {first last : Draft} {p : Program} {limits : Limits} {s s' : State}
  {main : Function}

/-- What comes next in a call of a program whose names are resolved, if it reads or assigns a variable,
was written where the compiler found the variable in the scope that the machine uses. -/
theorem place_of_instruction? (hp : Compiler.Resolved tokens first last p) (hs : AllPlaced p main s)
    (hmain : p.main? = some main) {i : Instruction} (hi : s.instruction? = some i)
    (haccess : i.op.accesses = true) :
    ∃ name d, p.functions.get? name = some s.frame.function ∧
      Draft.Accesses tokens first last d i.op i.name ∧ d.body.name = name ∧
      d.address = s.frame.ip ∧ d.place? i.name = some (s.frame.function.place i.name) := by
  unfold State.instruction? at hi
  split at hi
  · cases hi
  · rename_i hip
    obtain ⟨name, hname⟩ : ∃ name, p.functions.get? name = some s.frame.function := by
      obtain ⟨heq, -⟩ | ⟨⟨name, -, hname⟩, -⟩ := (List.forall_mem_cons.mp hs).1
      · exact ⟨topLevel, heq ▸ hmain⟩
      · exact ⟨name, hname⟩
    obtain ⟨d, hd, hbody, haddress⟩ := hp.origin name _ hname _ i hi haccess
    obtain ⟨f, -, hf, -, hplace, -⟩ := hp.agreement d i.op i.name hd
    rw [hbody] at hf
    cases hf.symm.trans hname
    exact ⟨name, d, hname, hd, hbody, by omega, hplace⟩

/-- An assignment outside the variables of the running call is of one that the top level declares. -/
theorem declares_of_store (hp : Compiler.Resolved tokens first last p) (hs : AllPlaced p main s)
    (hmain : p.main? = some main) {i : Instruction} (hi : s.instruction? = some i)
    (hstore : i.op = .store) (houtside : s.frame.locals? = none ∨ s.frame.function.place i.name = .top) :
    main.declares i.name = true := by
  obtain ⟨name, d, hname, hd, hbody, -, -⟩ :=
    place_of_instruction? hp hs hmain hi (by rw [hstore]; rfl)
  obtain ⟨f, top, hf, htop, -, hdeclared⟩ := hp.agreement d i.op i.name hd
  rw [hbody] at hf
  cases hf.symm.trans hname
  cases htop.symm.trans hmain
  obtain hown | hdeclared := hdeclared
  · obtain ⟨heq, -⟩ | ⟨-, hlocals⟩ := (List.forall_mem_cons.mp hs).1
    · exact heq ▸ hown
    · obtain hnone | htop := houtside
      · rw [hnone] at hlocals
        cases hlocals
      · unfold Function.place at htop
        rw [if_pos hown] at htop
        cases htop
  · exact hdeclared

/-- A step of a run of a program whose names are resolved. -/
theorem touches_of_resolved (hp : Compiler.Resolved tokens first last p) (hs : AllPlaced p main s)
    (hmain : p.main? = some main) (limits : Limits) (cancelled : Bool) :
    (s.step p limits cancelled).Touches main s :=
  touches_step p limits cancelled s fun _ hi hstore => declares_of_store hp hs hmain hi hstore

/-- What the top level does not declare keeps its value. -/
theorem Touches.globals_eq {name : String} (h : Touches main s s') (hname : main.declares name = false) :
    s'.globals.get? name = s.globals.get? name := by
  cases h with
  | nothing _ hglobals | own _ _ _ hglobals | enter _ hglobals | leave _ hglobals => rw [hglobals]
  | top hdeclared _ hglobals =>
      rw [hglobals]
      refine Dict.get?_insert_of_ne _ _ ?_
      rintro rfl
      exact absurd (hdeclared.symm.trans hname) nofun

theorem globals_proceed (hp : Compiler.Resolved tokens first last p) (hs : AllPlaced p main s)
    (hmain : p.main? = some main) (limits : Limits) (cancelled : Bool) {name : String}
    (hname : main.declares name = false) (patience : Nat) :
    (proceed p limits cancelled patience s).2.globals.get? name = s.globals.get? name := by
  induction patience generalizing s with
  | zero => rfl
  | succ patience ih =>
      have htouches := touches_of_resolved hp hs hmain limits cancelled
      rw [proceed]
      cases hstep : s.step p limits cancelled with
      | next s' =>
          rw [hstep] at htouches
          exact (ih (hs.step hstep)).trans (Touches.globals_eq htouches hname)
      | finished v s' =>
          rw [hstep] at htouches
          exact congrArg (·.get? name) htouches
      | failed e s' =>
          rw [hstep] at htouches
          exact congrArg (·.get? name) htouches
      | breakdown detail s' =>
          rw [hstep] at htouches
          exact congrArg (·.get? name) htouches

/-- The compiler and the machine find every variable in the same scope. Take a script that is compiled
without an earlier program. Each instruction of the program that reads or assigns a variable names one
that its function or the top level declares, and it was written at a point of the compilation at which
the compiler found the variable in the scope that the finished function has for it. This is so for all
points of the compilation at which a variable is read or assigned, so a name is never a function's own at
one place of it and the top level's at another. In every run the machine reads and assigns the
variable in the scope in which the compiler had found it. A step changes one variable of the running
call or one that the top level declares, it begins a call with nothing but its arguments, or it ends one;
the calls that wait keep their variables. What the top level does not declare is as it was before the
run. -/
theorem scopes_agree {c : Compiler} (hprelude : c.prelude? = none) {source : String}
    (h : c.compileSource source = .ok p) :
    ∃ tokens last main, Token.scan source = .ok tokens ∧ block (c.draft tokens) = .ok last ∧
      p = last.program ∧ p.main? = some main ∧ (c.draft tokens).Steps tokens last ∧
      (∀ name f address (i : Instruction), p.functions.get? name = some f → f.code[address]? = some i →
        i.op.accesses = true →
        (f.declares i.name = true ∨ main.declares i.name = true) ∧
        ∃ d, Draft.Accesses tokens (c.draft tokens) last d i.op i.name ∧ d.body.name = name ∧
          d.address = address) ∧
      (∀ d op name, Draft.Accesses tokens (c.draft tokens) last d op name →
        ∃ f, p.functions.get? d.body.name = some f ∧ d.place? name = some (f.place name)) ∧
      (∀ d d' op op' name, Draft.Accesses tokens (c.draft tokens) last d op name →
        Draft.Accesses tokens (c.draft tokens) last d' op' name → d.body.name = d'.body.name →
        d.place? name = d'.place? name) ∧
      ∀ m : Machine,
        (∀ s i, Reachable p m.limits (m.start main) s → s.instruction? = some i →
          i.op.accesses = true →
          ∃ d place, p.functions.get? d.body.name = some s.frame.function ∧
            Draft.Accesses tokens (c.draft tokens) last d i.op i.name ∧ d.address = s.frame.ip ∧
            d.place? i.name = some place ∧
            s.load i.name = ((s.scope place).get? i.name).getD .null ∧
            ∀ v, s.store i.name v = s.assign place i.name v) ∧
        (∀ s s' cancelled, Reachable p m.limits (m.start main) s →
          s.step p m.limits cancelled = .next s' → Touches main s s') ∧
        ∀ patience cancelled name, main.declares name = false →
          (m.runFor patience p cancelled).machine.globals.get? name = m.globals.get? name := by
  obtain ⟨tokens, last, hscan, hblock, rfl, hp⟩ := Compiler.resolved_of_compileSource hprelude h
  have hmain : last.program.main? = some last.body := Dict.get?_insert_self _ _ _
  have hagree : ∀ d op name, Draft.Accesses tokens (c.draft tokens) last d op name →
      ∃ f, last.program.functions.get? d.body.name = some f ∧
        d.place? name = some (f.place name) := by
    intro d op name hd
    obtain ⟨f, -, hf, -, hplace, -⟩ := hp.agreement d op name hd
    exact ⟨f, hf, hplace⟩
  refine ⟨tokens, last, last.body, hscan, hblock, rfl, hmain, hp.steps, ?_, hagree, ?_, fun m =>
    ⟨?_, ?_, ?_⟩⟩
  · intro name f address i hf hi haccess
    obtain ⟨d, hd, hbody, haddress⟩ := hp.origin name f hf address i hi haccess
    obtain ⟨g, top, hg, htop, -, hdeclared⟩ := hp.agreement d i.op i.name hd
    rw [hbody] at hg
    cases hg.symm.trans hf
    cases htop.symm.trans hmain
    exact ⟨hdeclared, d, hd, hbody, haddress⟩
  · intro d d' op op' name hd hd' hbody
    obtain ⟨f, hf, hplace⟩ := hagree d op name hd
    obtain ⟨f', hf', hplace'⟩ := hagree d' op' name hd'
    rw [← hbody] at hf'
    cases hf.symm.trans hf'
    rw [hplace, hplace']
  · intro s i hs hi haccess
    obtain ⟨name, d, hname, hd, hbody, haddress, hplace⟩ :=
      place_of_instruction? hp (.reachable hs) hmain hi haccess
    exact ⟨d, _, hbody ▸ hname, hd, haddress, hplace, load_eq_scope s i.name,
      store_eq_assign s i.name⟩
  · intro s s' cancelled hs hstep
    have htouches := touches_of_resolved hp (.reachable hs) hmain m.limits cancelled
    rw [hstep] at htouches
    exact htouches
  · intro patience cancelled name hname
    have hfirst : Reachable last.program m.limits (m.start last.body) (m.start last.body) := .first
    have hstart : AllPlaced last.program last.body (m.start last.body) := .reachable hfirst
    unfold runFor
    rw [hmain]
    exact globals_proceed hp hstart hmain m.limits cancelled hname patience

/-- A function with a variable of its own that assigns one of the top level as well: no run of the
script assigns a global of the name of the former. -/
theorem scopes_agree_assigned :
    ∃ p, Compiler.compileSource {} "g = 1\nfunc f(x)\ny = x\ng = y\nend\nf(g)" = .ok p ∧
      ∀ m : Machine, ∀ patience cancelled,
        (m.runFor patience p cancelled).machine.globals.get? "y" = m.globals.get? "y" := by
  have hok : (Compiler.compileSource {} "g = 1\nfunc f(x)\ny = x\ng = y\nend\nf(g)").toOption.any
      (fun p => p.main?.any fun main => !main.declares "y") = true := by decide +kernel
  cases hcompile : Compiler.compileSource {} "g = 1\nfunc f(x)\ny = x\ng = y\nend\nf(g)" with
  | error e =>
      rw [hcompile] at hok
      cases hok
  | ok p =>
      obtain ⟨tokens, last, main, -, -, -, hmain, -, -, -, -, hruns⟩ := scopes_agree rfl hcompile
      rw [hcompile] at hok
      change p.main?.any (fun main => !main.declares "y") = true at hok
      rw [hmain, Option.any_some, Bool.not_eq_true'] at hok
      exact ⟨p, rfl, fun m patience cancelled => (hruns m).2.2 patience cancelled "y" hok⟩

end

end LineScript.Machine
