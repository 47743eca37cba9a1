/-
# Runs that do what an evaluation says

An evaluation ends with a value, with a failure, with a breakdown of the host, or it
spends its count. A run meets it when it comes to a state with the value, or fails or
breaks down in the same way, or at least takes as many steps as the count. Meeting is
closed under going on, which is how the simulation of a tree is put together from
those of its parts.

The states of a run are described by what matters: the running call, the next address,
the stack and the store. The number of steps so far and the record of a run do not
matter, and without limits they change nothing.
-/

import LineScript.Proofs.Evaluator
import LineScript.Proofs.StackDiscipline

namespace LineScript.Machine

open LineScript.Code LineScript.Tree

/-! ## Steps -/

/-- A run goes from one state to another in a number of steps. -/
inductive Steps (p : Program) (limits : Limits) : Nat → State → State → Prop
  | refl (s : State) : Steps p limits 0 s s
  | step {count : Nat} {s s' s'' : State} (hstep : s.step p limits false = .next s')
      (h : Steps p limits count s' s'') : Steps p limits (count + 1) s s''

/-- A state holds the store of an evaluation, its locals aside. -/
structure Keeping (st : Store) (s : State) : Prop where
  globals_eq : s.globals = st.globals
  world_eq : s.world = st.world
  natives_eq : s.natives = st.natives

section

variable {p : Program} {limits : Limits}

theorem Steps.trans {count count' : Nat} {s s' s'' : State} (h : Steps p limits count s s')
    (h' : Steps p limits count' s' s'') : Steps p limits (count + count') s s'' := by
  induction h with
  | refl s => rwa [Nat.zero_add]
  | step hstep _ ih =>
      rw [Nat.add_right_comm]
      exact .step hstep (ih h')

/-- A run from a state meets an evaluation. -/
def Meets {α : Type} (p : Program) (limits : Limits) (count : Nat)
    (good : α → Store → State → Prop) (s : State) : Ending α × Store → Prop
  | (.done a, st) => ∃ k s', Steps p limits k s s' ∧ good a st s'
  | (.failed cause, st) => ∃ k s' e s'', Steps p limits k s s' ∧
      s'.step p limits false = .failed e s'' ∧ e.cause = cause ∧ Keeping st s''
  | (.broken detail, st) => ∃ k s' s'', Steps p limits k s s' ∧
      s'.step p limits false = .breakdown detail s'' ∧ Keeping st s''
  | (.spent, _) => ∃ k s', count ≤ k ∧ Steps p limits k s s'

namespace Meets

variable {α β : Type} {count : Nat} {good : α → Store → State → Prop}
  {good' : β → Store → State → Prop} {s s' : State}

/-- A run that goes to a state and meets an evaluation from there meets it from the
start; its steps are added to those it takes at least. -/
theorem prepend {k : Nat} (h : Steps p limits k s s') {r : Ending α × Store}
    (h' : Meets p limits count good s' r) : Meets p limits (k + count) good s r := by
  obtain ⟨ending, st⟩ := r
  cases ending with
  | done a =>
      obtain ⟨k', s'', hsteps, hgood⟩ := h'
      exact ⟨_, s'', h.trans hsteps, hgood⟩
  | failed cause =>
      obtain ⟨k', t, e, t', hsteps, hfails⟩ := h'
      exact ⟨_, t, e, t', h.trans hsteps, hfails⟩
  | broken detail =>
      obtain ⟨k', t, t', hsteps, hbreaks⟩ := h'
      exact ⟨_, t, t', h.trans hsteps, hbreaks⟩
  | spent =>
      obtain ⟨k', t, hle, hsteps⟩ := h'
      exact ⟨_, t, Nat.add_le_add_left hle k, h.trans hsteps⟩

theorem of_le {count' : Nat} {r : Ending α × Store} (h : Meets p limits count good s r)
    (hle : count' ≤ count) : Meets p limits count' good s r := by
  obtain ⟨ending, st⟩ := r
  cases ending with
  | spent =>
      obtain ⟨k, t, hk, hsteps⟩ := h
      exact ⟨k, t, Nat.le_trans hle hk, hsteps⟩
  | _ => exact h

theorem after {k : Nat} (h : Steps p limits k s s') {r : Ending α × Store}
    (h' : Meets p limits count good s' r) : Meets p limits count good s r :=
  (h'.prepend h).of_le (Nat.le_add_left _ _)

theorem done {a : α} {st : Store} (h : good a st s) :
    Meets p limits count good s (.done a, st) :=
  ⟨0, s, .refl s, h⟩

/-- Where an evaluation goes on with the value of another, the run goes on too. -/
theorem bind {m : Eval α} {f : α → Eval β} {st : Store} (h : Meets p limits count good s (m st))
    (hf : ∀ a st s, good a st s → Meets p limits count good' s (f a st)) :
    Meets p limits count good' s ((m >>= f) st) := by
  change Meets p limits count good' s (Eval.andThen m f st)
  unfold Eval.andThen
  generalize m st = r at h
  obtain ⟨ending, st'⟩ := r
  cases ending with
  | done a =>
      obtain ⟨k, t, hsteps, ht⟩ := h
      exact (hf a st' t ht).after hsteps
  | _ => exact h

end Meets

end

/-! ## States of a run -/

/-- The running call, apart from what changes from step to step. -/
structure Site where
  function : Function
  base : Nat
  callers : List Frame

/-- The instructions of the running call, without their lines. -/
def Site.code (site : Site) : List Instruction := site.function.code.toList.map Instruction.unplaced

/-- A state in which a call stands at an address with the given stack and store. -/
structure Shows (c : Compiler) (site : Site) (st : Store) (ip : Nat) (stack : List Value)
    (s : State) : Prop extends Keeping st s where
  stack_eq : s.stack.toList = stack
  frame_eq : s.frame = ⟨site.function, ip, site.base, st.locals?⟩
  callers_eq : s.callers = site.callers
  served : Served c st.natives

namespace Shows

variable {c : Compiler} {p : Program} {limits : Limits} {site : Site} {st : Store} {ip : Nat}
  {stack : List Value} {s : State} {v : Value}

/-- One step carries out the instruction at the address. -/
theorem step_eq (h : Shows c site st ip stack s) (hlimits : limits.steps ≤ 0) {i : Instruction}
    (hi : site.code[ip]? = some i) :
    ∃ t, s.step p limits false = t.execute p limits i ∧ Shows c site st (ip + 1) stack t := by
  have hip : s.frame.ip = ip := by rw [h.frame_eq]
  have hcode : s.frame.function.code = site.function.code := by rw [h.frame_eq]
  obtain ⟨j, hj, rfl⟩ : ∃ j, site.function.code[ip]? = some j ∧ j.unplaced = i := by
    simpa [Site.code] using hi
  obtain ⟨trace?, hrecorded⟩ := recorded_eq s.begin ip j
  refine ⟨s.begin.recorded ip j, ?_, ?_⟩
  · unfold State.step
    rw [hip, if_neg (by omega), Int.toNat_natCast]
    dsimp only
    rw [hcode, hj]
    dsimp only
    rw [if_neg (by omega), if_neg (by simp)]
    rfl
  · rw [hrecorded]
    refine ⟨⟨h.globals_eq, h.world_eq, h.natives_eq⟩, h.stack_eq, ?_, h.callers_eq, h.served⟩
    change Frame.mk s.frame.function (s.frame.ip + 1) s.frame.base s.frame.locals? = _
    rw [h.frame_eq]
    rfl

theorem push (h : Shows c site st ip stack s) (v : Value) :
    Shows c site st ip (stack ++ [v]) (s.push v) := by
  refine ⟨⟨h.globals_eq, h.world_eq, h.natives_eq⟩, ?_, h.frame_eq, h.callers_eq, h.served⟩
  have hpush : (s.push v).stack.toList = s.stack.toList ++ [v] := Array.toList_push
  rw [hpush, h.stack_eq]

theorem drop (h : Shows c site st ip (stack ++ [v]) s) : Shows c site st ip stack s.drop := by
  refine ⟨⟨h.globals_eq, h.world_eq, h.natives_eq⟩, ?_, h.frame_eq, h.callers_eq, h.served⟩
  have hpop : s.drop.stack.toList = s.stack.toList.dropLast := Array.toList_pop
  rw [hpop, h.stack_eq, List.dropLast_concat]

theorem top_eq (h : Shows c site st ip (stack ++ [v]) s) : s.top = v := by
  unfold State.top
  rw [← Array.getLast?_toList, h.stack_eq, List.getLast?_concat]
  rfl

theorem hasTop (h : Shows c site st ip (stack ++ [v]) s) (hbase : site.base ≤ stack.length) :
    s.hasTop = true := by
  have hsize : s.stack.size = stack.length + 1 := by
    rw [← Array.length_toList, h.stack_eq, List.length_append]
    rfl
  unfold State.hasTop
  rw [h.frame_eq, hsize]
  exact decide_eq_true (Nat.lt_succ_of_le hbase)

theorem popping_eq (h : Shows c site st ip (stack ++ [v]) s) (hbase : site.base ≤ stack.length)
    (k : Value → State → Transition) : s.popping k = k v s.drop := by
  unfold State.popping
  rw [if_pos (h.hasTop hbase), h.top_eq]

theorem withTop_eq (h : Shows c site st ip (stack ++ [v]) s) (hbase : site.base ≤ stack.length)
    (k : Value → State → Transition) : s.withTop k = k v s := by
  unfold State.withTop
  rw [if_pos (h.hasTop hbase), h.top_eq]

theorem popping2_eq {a b : Value} (h : Shows c site st ip (stack ++ [a] ++ [b]) s)
    (hbase : site.base ≤ stack.length) (k : Value → Value → State → Transition) :
    s.popping2 k = k a b s.drop.drop := by
  unfold State.popping2
  rw [h.popping_eq (by simp; omega), h.drop.popping_eq hbase]

theorem heap_eq (h : Shows c site st ip stack s) : s.heap = st.heap := by
  unfold State.heap Store.heap
  rw [h.world_eq]

theorem mapHeap (h : Shows c site st ip stack s) (f : Heap → Heap) :
    Shows c site (st.mapHeap f) ip stack (s.mapHeap f) := by
  refine ⟨⟨h.globals_eq, ?_, h.natives_eq⟩, h.stack_eq, h.frame_eq, h.callers_eq, h.served⟩
  change World.mk (f s.world.heap) s.world.output = _
  rw [h.world_eq]
  rfl

theorem jump (h : Shows c site st ip stack s) (target : Nat) :
    Shows c site st target stack (s.jump target) := by
  refine ⟨⟨h.globals_eq, h.world_eq, h.natives_eq⟩, h.stack_eq, ?_, h.callers_eq, h.served⟩
  change { s.frame with ip := (target : Int) } = _
  rw [h.frame_eq]

theorem load_eq (h : Shows c site st ip stack s) (name : String) :
    s.load name = st.load site.function.declares name := by
  unfold State.load State.locals Store.load
  rw [h.frame_eq, h.globals_eq]

theorem store (h : Shows c site st ip stack s) (name : String) (v : Value) :
    Shows c site (st.assign site.function.declares name v) ip stack (s.store name v) := by
  have hglobal : Shows c site { st with globals := st.globals.insert name v } ip stack
      { s with globals := s.globals.insert name v } := by
    refine ⟨⟨?_, h.world_eq, h.natives_eq⟩, h.stack_eq, h.frame_eq, h.callers_eq, h.served⟩
    rw [h.globals_eq]
  obtain ⟨locals?, globals, world, natives⟩ := st
  have hdeclares : s.frame.function.declares = site.function.declares := by rw [h.frame_eq]
  have hlocals : s.frame.locals? = locals? := by rw [h.frame_eq]
  unfold State.store Store.assign
  rw [hdeclares, hlocals]
  cases site.function.declares name with
  | false => exact hglobal
  | true =>
      cases locals? with
      | none => exact hglobal
      | some locals =>
          refine ⟨⟨h.globals_eq, h.world_eq, h.natives_eq⟩, h.stack_eq, ?_, h.callers_eq, h.served⟩
          dsimp only
          rw [h.frame_eq]

end Shows

/-! ## One instruction -/

/-- No limit on steps or on the depth of calls. -/
structure Limits.Free (limits : Limits) : Prop where
  steps : limits.steps ≤ 0
  depth : limits.depth ≤ 0

/-- What a step leads to meets an evaluation. -/
def Leads {α : Type} (p : Program) (limits : Limits) (count : Nat)
    (good : α → Store → State → Prop) : Transition → Ending α × Store → Prop
  | .next s, r => Meets p limits count good s r
  | .failed e s, (.failed cause, st) => e.cause = cause ∧ Keeping st s
  | .breakdown detail s, (.broken detail', st) => detail = detail' ∧ Keeping st s
  | _, _ => False

/-- A state with a value on top of a stack. -/
def Pushed (c : Compiler) (site : Site) (ip : Nat) (stack : List Value) :
    Value → Store → State → Prop :=
  fun v st s => Shows c site st ip (stack ++ [v]) s

section

variable {α : Type} {c : Compiler} {p : Program} {limits : Limits} {count : Nat}
  {good : α → Store → State → Prop} {site : Site} {st : Store} {ip : Nat} {stack : List Value}
  {s : State} {v : Value}

theorem Leads.done {a : α} (h : good a st s) :
    Leads p limits count good (.next s) (.done a, st) :=
  ⟨0, s, .refl s, h⟩

theorem Meets.of_step {transition : Transition} {r : Ending α × Store}
    (hstep : s.step p limits false = transition) (h : Leads p limits count good transition r) :
    Meets p limits (count + 1) good s r := by
  obtain ⟨ending, st⟩ := r
  cases transition with
  | next s' =>
      have hone : Steps p limits 1 s s' := .step hstep (.refl s')
      rw [Nat.add_comm]
      exact Meets.prepend hone h
  | failed e s' =>
      cases ending with
      | failed cause => exact ⟨0, s, e, s', .refl s, hstep, h⟩
      | _ => exact h.elim
  | breakdown detail s' =>
      cases ending with
      | broken detail' =>
          obtain ⟨rfl, hkeeping⟩ := h
          exact ⟨0, s, s', .refl s, hstep, hkeeping⟩
      | _ => exact h.elim
  | finished v s' => exact h.elim

/-- An instruction meets an evaluation when what it does leads there. -/
theorem Shows.meets (h : Shows c site st ip stack s) (hfree : limits.Free) {i : Instruction}
    (hi : site.code[ip]? = some i) {r : Ending α × Store}
    (hexecute : ∀ t, Shows c site st (ip + 1) stack t →
      Leads p limits count good (t.execute p limits i) r) :
    Meets p limits (count + 1) good s r := by
  obtain ⟨t, hstep, ht⟩ := h.step_eq (p := p) hfree.steps hi
  exact .of_step hstep (hexecute t ht)

theorem Shows.leads_fail (h : Shows c site st ip stack s) (cause : Cause) :
    Leads p limits count good (s.fail cause) (.failed cause, st) :=
  ⟨rfl, h.globals_eq, h.world_eq, h.natives_eq⟩

/-- An instruction that pushes a value. -/
theorem Shows.meets_push (h : Shows c site st ip stack s) (hfree : limits.Free) {i : Instruction}
    (hi : site.code[ip]? = some i)
    (hexecute : ∀ t, Shows c site st (ip + 1) stack t → t.execute p limits i = .next (t.push v)) :
    Meets p limits count (Pushed c site (ip + 1) stack) s (.done v, st) := by
  have hmeets : Meets p limits (count + 1) (Pushed c site (ip + 1) stack) s (.done v, st) := by
    refine h.meets hfree hi fun t ht => ?_
    rw [hexecute t ht]
    exact Leads.done (ht.push v)
  exact hmeets.of_le (Nat.le_succ _)

end

/-! ## Operators -/

section

variable (t : State) (p : Program) (limits : Limits)

theorem execute_binary (o : BinaryOp) :
    t.execute p limits (plain o.opcode) =
      t.popping2 fun a b s => s.pushing (o.apply s.heap a b) := by
  cases o <;> rfl

theorem execute_unary {o : UnaryOp} {op : Opcode} (h : o.opcode? = some op) :
    t.execute p limits (plain op) = t.popping fun v s => s.pushing (o.apply v) := by
  cases o with
  | plus => cases h
  | minus =>
      cases h
      unfold State.execute plain
      dsimp only
      congr 1
      funext v s
      cases v <;> rfl
  | not =>
      cases h
      rfl

theorem execute_get (name : String) :
    t.execute p limits (named .get name) =
      t.popping fun v s => s.pushing (memberOf name v s.heap) := by
  unfold State.execute named
  dsimp only
  congr 1
  funext v s
  cases v with
  | ref r => cases r <;> rfl
  | _ => rfl

theorem execute_set (name : String) :
    t.execute p limits (named .set name) =
      t.popping fun v s => s.withTop fun owner s =>
        match ownerOf name owner with
        | .ok place => .next (s.mapHeap (·.setMember place name v))
        | .error cause => s.fail cause := by
  unfold State.execute named
  dsimp only
  congr 1
  funext v s
  congr 1
  funext owner s
  cases owner with
  | ref r => cases r <;> rfl
  | _ => rfl

/-- The jump past a right operand is taken when the left operand settles the value. -/
theorem execute_skip {o : BinaryOp} {op : Opcode} (h : o.skip? = some op) (target : Int) :
    t.execute p limits (jumpTo op target) =
      t.withTop fun v s => .next (if o.settles v then s.jump target else s) := by
  cases o <;> cases h
  · rfl
  · unfold State.execute jumpTo
    dsimp only
    congr 1
    funext v s
    change _ = Transition.next (if (!v.truthy) = true then s.jump target else s)
    cases v.truthy <;> rfl

theorem settles_of_skip?_eq_none {o : BinaryOp} (h : o.skip? = none) (v : Value) :
    o.settles v = false := by
  cases o <;> first | (cases h; done) | rfl

end

end LineScript.Machine
