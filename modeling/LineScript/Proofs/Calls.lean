/-
# Calls do what their definitions mean

A call of a function of the script moves the arguments into variables, runs the code of
the body on top of the stack of the caller and hands the value back. Calls of one depth
meet their evaluation as soon as calls one less deep do, so all of them do.
-/

import LineScript.Proofs.Simulation

namespace LineScript.Machine

open LineScript.Code LineScript.Tree

/-! ## Functions of the script -/

/-- The call of a function from an address of another call. -/
def Site.calling (site : Site) (f : Function) (st : Store) (ip base : Nat) : Site :=
  ⟨f, base, ⟨site.function, ip, site.base, st.locals?⟩ :: site.callers⟩

section

variable {c : Compiler} {p : Program} {limits : Limits} {count : Nat} {site : Site} {st : Store}
  {ip : Nat} {stack : List Value} {s : State}

theorem Shows.size_eq (h : Shows c site st ip stack s) : s.stack.size = stack.length := by
  rw [← Array.length_toList, h.stack_eq]

/-- The values on top of a stack. -/
theorem toList_extract_top {xs : Array Value} {stack values : List Value}
    (h : xs.toList = stack ++ values) : (xs.extract stack.length xs.size).toList = values := by
  rw [Array.toList_extract, h, List.extract_eq_take_drop, ← Array.length_toList, h]
  simp

/-- The values below the top of a stack. -/
theorem toList_shrink_top {xs : Array Value} {stack values : List Value}
    (h : xs.toList = stack ++ values) : (xs.shrink stack.length).toList = stack := by
  rw [Array.shrink_eq_take, Array.take, Array.toList_extract, h, List.extract_eq_take_drop]
  simp

/-- A call begins with its arguments as variables and nothing of its own on the stack. -/
theorem Shows.enter {f : Function} {name : String} {values : List Value}
    (h : Shows c site st ip (stack ++ values) s) (hfree : limits.Free)
    (hbase : site.base ≤ stack.length) (harity : f.arity = values.length) :
    ∃ t, s.enter limits name f = .next t ∧
      Shows c (site.calling f st ip stack.length)
        { st with locals? := some (State.arguments f.params values) } 0 stack t := by
  have hsize := h.size_eq
  rw [List.length_append] at hsize
  have hframe : s.frame.base = site.base := by rw [h.frame_eq]
  have hdepth := hfree.depth
  have hstart : s.stack.size - f.arity = stack.length := by omega
  unfold State.enter
  dsimp only
  rw [if_neg (by omega), if_neg (by omega), hstart, toList_extract_top h.stack_eq]
  refine ⟨_, rfl, ⟨h.globals_eq, h.world_eq, h.natives_eq⟩, toList_shrink_top h.stack_eq, rfl, ?_,
    h.served⟩
  dsimp only [Site.calling]
  rw [h.frame_eq, h.callers_eq]

/-- A call ends with its value on the stack of the caller, who has the old variables. -/
theorem Shows.meets_ret {f : Function} {v : Value} {outer : Store} {address : Nat}
    (h : Shows c (site.calling f outer ip stack.length) st address (stack ++ [v]) s)
    (hfree : limits.Free)
    (hi : (site.calling f outer ip stack.length).code[address]? = some (plain .ret)) :
    Meets p limits count (Pushed c site ip stack) s
      (.done v, { st with locals? := outer.locals? }) := by
  refine h.meets_next hfree hi fun t ht => ?_
  have hdrop := ht.drop
  unfold State.execute plain
  dsimp only
  rw [ht.popping_eq (Nat.le_refl _)]
  obtain ⟨⟨hglobals, hworld, hnatives⟩, hstack, hframe, hcallers, hserved⟩ := hdrop
  generalize t.drop = t at *
  obtain ⟨tstack, frame, callers, globals, world, natives, steps, trace?⟩ := t
  dsimp only [Site.calling] at hframe hcallers hglobals hworld hnatives hstack
  subst hframe hcallers
  refine ⟨_, rfl, ⟨hglobals, hworld, hnatives⟩, ?_, rfl, rfl, hserved⟩
  have hbelow : tstack.toList = stack ++ [] := by rw [List.append_nil, hstack]
  dsimp only
  rw [Array.toList_push, toList_shrink_top hbelow]

/-- Statements evaluated with variables of their own, when a call runs them. -/
theorem Meets.within {m : Eval Flow} {locals : Dict Value} {good : Flow → Store → State → Prop}
    {good' : Value → Store → State → Prop}
    (h : Meets p limits count good s (m { st with locals? := some locals }))
    (hgood : ∀ flow after t, good flow after t →
      Meets p limits count good' t (.done flow.value, { after with locals? := st.locals? })) :
    Meets p limits count good' s (within locals m st) := by
  unfold Tree.within
  generalize m { st with locals? := some locals } = r at h
  obtain ⟨ending, after⟩ := r
  cases ending with
  | done flow =>
      obtain ⟨k, t, hsteps, ht⟩ := h
      exact (hgood flow after t ht).after hsteps
  | failed cause =>
      obtain ⟨k, t, e, t', hsteps, hfails, hcause, hkeeping⟩ := h
      exact ⟨k, t, e, t', hsteps, hfails, hcause, hkeeping.globals_eq, hkeeping.world_eq,
        hkeeping.natives_eq⟩
  | broken detail =>
      obtain ⟨k, t, t', hsteps, hbreaks, hkeeping⟩ := h
      exact ⟨k, t, t', hsteps, hbreaks, hkeeping.globals_eq, hkeeping.world_eq,
        hkeeping.natives_eq⟩
  | spent => exact h

/-- The body of a function, run from its beginning, hands its value back. -/
theorem Definition.meets (g : Definition) {f : Function} {invoke : String → List Value → Eval Value}
    {values : List Value} (hfree : limits.Free) (hanswers : Answers c p limits count invoke)
    (hshape : f.shape = g.shape) (hwithin : g.Within (c.arity? p))
    (h : Shows c (site.calling f st ip stack.length)
      { st with locals? := some (State.arguments f.params values) } 0 stack s) :
    Meets p limits count (Pushed c site ip stack) s
      (within (State.arguments g.params values) (g.body.eval g.own invoke count) st) := by
  obtain ⟨-, scope, hscoped, hafter⟩ := hwithin
  have hparams : f.params = g.params := congrArg Shape.params hshape
  have hown : f.declares = g.own := congrArg Shape.own hshape
  have hcode : (site.calling f st ip stack.length).code = functionCode g.body :=
    congrArg Shape.code hshape
  have hplaced : Placed (site.calling f st ip stack.length).code 0 (functionCode g.body) :=
    ⟨[], [], by rw [hcode, List.append_nil, List.nil_append], rfl⟩
  have hend := hplaced.right (b := g.body.size) (by rw [g.body.length_code, Nat.zero_add])
  rw [← hparams, ← hown]
  refine (Block.meets hfree hanswers g.body hscoped hafter hplaced.left (Nat.zero_add _).symm h
    (Nat.le_refl _)).within fun flow after t ht => ?_
  cases flow with
  | next =>
      have hnull : Meets p limits count
          (Pushed c (site.calling f st ip stack.length) (g.body.size + 1) stack) t
          (.done .null, after) := ht.meets_push hfree hend.head fun _ _ => rfl
      obtain ⟨k, t', hsteps, ht'⟩ := hnull
      exact (ht'.meets_ret hfree hend.tail.head).after hsteps
  | back v =>
      obtain ⟨address, hret, ht⟩ := ht
      exact ht.meets_ret hfree hret

/-! ## Host functions -/

/-- A host function takes its arguments off the stack and is asked once. -/
theorem Shows.from_ask {go : State → Transition} {inside lost : State → Prop} {bound : Bound}
    {name : String} {values : List Value} (h : Shows c site st ip (stack ++ values) s)
    (hbase : site.base ≤ stack.length) (hbound : st.natives.get? name = some bound)
    (harity : bound.arity = values.length) :
    Passes.From go inside lost (Pushed c site ip stack) (s.ask name bound) (host name values st) := by
  have hsize := h.size_eq
  rw [List.length_append] at hsize
  have hframe : s.frame.base = site.base := by rw [h.frame_eq]
  have hstart : s.stack.size - bound.arity.toNat = stack.length := by omega
  unfold State.ask host
  dsimp only
  rw [if_neg (by omega), if_neg (by omega), hstart, toList_extract_top h.stack_eq, hbound]
  have hbelow := toList_shrink_top h.stack_eq
  obtain ⟨sstack, frame, callers, globals, world, natives, steps, trace?⟩ := s
  obtain ⟨locals?, stGlobals, stWorld, stNatives⟩ := st
  obtain ⟨⟨hglobals, hworld, hnatives⟩, -, hframe, hcallers, hserved⟩ := h
  dsimp only at hglobals hworld hnatives hframe hcallers hbelow hbound
  subst hglobals hworld hnatives
  unfold State.answer
  dsimp only
  generalize bound.native.run (bound.calls + 1) values world = answer
  obtain ⟨reply, world'⟩ := answer
  cases reply with
  | value v =>
      refine Passes.From.done ⟨⟨rfl, rfl, rfl⟩, ?_, hframe, hcallers, hserved.insert _ hbound⟩
      rw [Array.toList_push, hbelow]
  | failure detail => exact ⟨rfl, rfl, rfl, rfl⟩
  | breakdown detail => exact ⟨rfl, rfl, rfl, rfl⟩

end

/-! ## All calls -/

/-- The functions of a program are what the given definitions are compiled to. -/
structure Knows (c : Compiler) (p : Program) (functions : List Definition) : Prop where
  shape_eq : ∀ name, ((if name = topLevel then none else p.functions.get? name) :
    Option Function).map Function.shape = (Definition.find? name functions).map Definition.shape
  within : ∀ f ∈ functions, f.Within (c.arity? p)

theorem mem_of_find? {name : String} {f : Definition} {functions : List Definition}
    (h : Definition.find? name functions = some f) : f ∈ functions ∧ f.name = name := by
  induction functions with
  | nil => cases h
  | cons g rest ih =>
      unfold Definition.find? at h
      obtain hfound | ⟨-, hfirst⟩ := Option.or_eq_some_iff.mp h
      · exact ⟨List.mem_cons_of_mem _ (ih hfound).1, (ih hfound).2⟩
      · split at hfirst
        · cases hfirst
          exact ⟨List.mem_cons_self, Eq.symm ‹_›⟩
        · cases hfirst

/-- Calls of every depth meet their evaluation. -/
theorem answers {c : Compiler} {p : Program} {limits : Limits} {functions : List Definition}
    (hfree : limits.Free) (hknows : Knows c p functions) (count : Nat) :
    Answers c p limits count (invoke functions count) := by
  induction count with
  | zero =>
      intro site st ip stack values name s _ _ _ _
      exact ⟨0, s, Nat.le_refl 0, .refl s⟩
  | succ count ih =>
      intro site st ip stack values name s harity hi h hbase
      have hshape := hknows.shape_eq name
      refine h.meets hfree hi fun t ht => ?_
      change Leads p limits count _ (t.call p limits name) _
      unfold Compiler.arity? at harity
      unfold State.call Tree.invoke
      cases hlookup : (if name = topLevel then none else p.functions.get? name) with
      | none =>
          rw [hlookup] at hshape harity
          have hnone : Definition.find? name functions = none := by
            simpa using hshape.symm
          obtain ⟨params, hparams, hlength⟩ := Option.map_eq_some_iff.mp harity
          obtain ⟨bound, hbound, hcount⟩ := ht.served name params hparams
          rw [hnone]
          dsimp only
          rw [ht.natives_eq, hbound]
          exact leads_iff_from.mpr (ht.from_ask hbase hbound (by rw [hcount, hlength]))
      | some f =>
          rw [hlookup] at hshape harity
          obtain ⟨g, hg, hshape⟩ := Option.map_eq_some_iff.mp hshape.symm
          rw [hg]
          obtain ⟨t', henter, ht'⟩ := ht.enter (f := f) hfree hbase (Option.some.inj harity)
          dsimp only
          rw [henter]
          exact Definition.meets g hfree ih hshape.symm (hknows.within g (mem_of_find? hg).1) ht'

end LineScript.Machine
