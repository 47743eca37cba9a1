/-
# Runs through the code of an expression

A run that carries out the code of an expression goes through this code and nowhere else, the
calls that it makes apart. So the description of such a run has to say more than where it comes to:
a path is a run of which every state that it leaves lies inside, and a path passes through an
evaluation when it comes to a state with the value, or fails or breaks down in the same way while it
is still inside, or is lost in a call.

What inside means and when a run is lost is left open, so that one induction over the expression
serves both: runs that are only counted, and runs that may not leave a stretch of code.
-/

import LineScript.Proofs.Runs

namespace LineScript.Machine

open LineScript.Code LineScript.Tree

/-! ## Pieces of code -/

/-- A piece of code stands at an address. -/
def Placed (code : List Instruction) (a : Nat) (piece : List Instruction) : Prop :=
  ∃ before after, code = before ++ piece ++ after ∧ before.length = a

namespace Placed

variable {code piece piece' : List Instruction} {a b : Nat} {i : Instruction}

theorem left (h : Placed code a (piece ++ piece')) : Placed code a piece := by
  obtain ⟨before, after, rfl, hlength⟩ := h
  exact ⟨before, piece' ++ after, by simp, hlength⟩

theorem right (h : Placed code a (piece ++ piece')) (hb : b = a + piece.length) :
    Placed code b piece' := by
  obtain ⟨before, after, rfl, hlength⟩ := h
  exact ⟨before ++ piece, after, by simp, by rw [List.length_append, hlength, hb]⟩

theorem head (h : Placed code a (i :: piece)) : code[a]? = some i := by
  obtain ⟨before, after, rfl, rfl⟩ := h
  simp

theorem tail (h : Placed code a (i :: piece)) : Placed code (a + 1) piece := by
  obtain ⟨before, after, rfl, hlength⟩ := h
  exact ⟨before ++ [i], after, by simp, by rw [List.length_append, hlength]; rfl⟩

/-- The last instruction of a piece. -/
theorem last (h : Placed code a (piece ++ [i])) (hb : b = a + piece.length) : code[b]? = some i :=
  (h.right hb).head

end Placed

/-! ## Paths -/

/-- A run goes from one state to another, and every state that it leaves on the way lies
inside. -/
inductive Path (go : State → Transition) (inside : State → Prop) : State → State → Prop
  | refl (s : State) : Path go inside s s
  | step {s s' s'' : State} (hinside : inside s) (hstep : go s = .next s')
      (h : Path go inside s' s'') : Path go inside s s''

theorem Path.trans {go : State → Transition} {inside : State → Prop} {s s' s'' : State}
    (h : Path go inside s s') (h' : Path go inside s' s'') : Path go inside s s'' := by
  induction h with
  | refl s => exact h'
  | step hinside hstep _ ih => exact .step hinside hstep (ih h')

theorem Path.mono {go : State → Transition} {inside inside' : State → Prop} {s s' : State}
    (h : Path go inside s s') (hinside : ∀ s, inside s → inside' s) : Path go inside' s s' := by
  induction h with
  | refl s => exact .refl s
  | step hs hstep _ ih => exact .step (hinside _ hs) hstep ih

/-- A run from a state passes through an evaluation. A state is lost when the run never comes back
from it, or not before a count is spent. -/
def Passes {α : Type} (go : State → Transition) (inside lost : State → Prop)
    (good : α → Store → State → Prop) (s : State) : Ending α × Store → Prop
  | (.done a, st) => ∃ s', Path go inside s s' ∧ good a st s'
  | (.failed cause, st) => ∃ s' e s'', Path go inside s s' ∧ inside s' ∧ go s' = .failed e s'' ∧
      e.cause = cause ∧ Keeping st s''
  | (.broken detail, st) => ∃ s' s'', Path go inside s s' ∧ inside s' ∧
      go s' = .breakdown detail s'' ∧ Keeping st s''
  | (.spent, _) => ∃ s', Path go inside s s' ∧ lost s'

namespace Passes

variable {α β : Type} {go : State → Transition} {inside lost : State → Prop}
  {good : α → Store → State → Prop} {good' : β → Store → State → Prop} {s s' : State}

theorem prepend (h : Path go inside s s') {r : Ending α × Store}
    (h' : Passes go inside lost good s' r) : Passes go inside lost good s r := by
  obtain ⟨ending, st⟩ := r
  cases ending with
  | done a =>
      obtain ⟨t, hpath, ht⟩ := h'
      exact ⟨t, h.trans hpath, ht⟩
  | failed cause =>
      obtain ⟨t, e, t', hpath, hfails⟩ := h'
      exact ⟨t, e, t', h.trans hpath, hfails⟩
  | broken detail =>
      obtain ⟨t, t', hpath, hbreaks⟩ := h'
      exact ⟨t, t', h.trans hpath, hbreaks⟩
  | spent =>
      obtain ⟨t, hpath, ht⟩ := h'
      exact ⟨t, h.trans hpath, ht⟩

theorem done {a : α} {st : Store} (h : good a st s) :
    Passes go inside lost good s (.done a, st) :=
  ⟨s, .refl s, h⟩

theorem mono {inside' lost' : State → Prop} {good' : α → Store → State → Prop}
    {r : Ending α × Store} (h : Passes go inside lost good s r) (hinside : ∀ s, inside s → inside' s)
    (hlost : ∀ s, lost s → lost' s) (hgood : ∀ a s, good a r.2 s → good' a r.2 s) :
    Passes go inside' lost' good' s r := by
  obtain ⟨ending, st⟩ := r
  cases ending with
  | done a =>
      obtain ⟨t, hpath, ht⟩ := h
      exact ⟨t, hpath.mono hinside, hgood a t ht⟩
  | failed cause =>
      obtain ⟨t, e, t', hpath, ht, hfails⟩ := h
      exact ⟨t, e, t', hpath.mono hinside, hinside t ht, hfails⟩
  | broken detail =>
      obtain ⟨t, t', hpath, ht, hbreaks⟩ := h
      exact ⟨t, t', hpath.mono hinside, hinside t ht, hbreaks⟩
  | spent =>
      obtain ⟨t, hpath, ht⟩ := h
      exact ⟨t, hpath.mono hinside, hlost t ht⟩

/-- Where an evaluation goes on with the value of another, the run goes on too. -/
theorem bind {m : Eval α} {f : α → Eval β} {st : Store} (h : Passes go inside lost good s (m st))
    (hf : ∀ a st s, good a st s → Passes go inside lost good' s (f a st)) :
    Passes go inside lost good' s ((m >>= f) st) := by
  change Passes go inside lost good' s (Eval.andThen m f st)
  unfold Eval.andThen
  generalize m st = r at h
  obtain ⟨ending, st'⟩ := r
  cases ending with
  | done a =>
      obtain ⟨t, hpath, ht⟩ := h
      exact (hf a st' t ht).prepend hpath
  | _ => exact h

/-- What a transition leads to passes through an evaluation. -/
def From (go : State → Transition) (inside lost : State → Prop) (good : α → Store → State → Prop) :
    Transition → Ending α × Store → Prop
  | .next s, r => Passes go inside lost good s r
  | .failed e s, (.failed cause, st) => e.cause = cause ∧ Keeping st s
  | .breakdown detail s, (.broken detail', st) => detail = detail' ∧ Keeping st s
  | _, _ => False

theorem From.done {a : α} {st : Store} (h : good a st s) :
    From go inside lost good (.next s) (.done a, st) :=
  ⟨s, .refl s, h⟩

theorem of_step {transition : Transition} {r : Ending α × Store} (hinside : inside s)
    (hstep : go s = transition) (h : From go inside lost good transition r) :
    Passes go inside lost good s r := by
  obtain ⟨ending, st⟩ := r
  cases transition with
  | next s' => exact prepend (.step hinside hstep (.refl s')) h
  | failed e s' =>
      cases ending with
      | failed cause => exact ⟨s, e, s', .refl s, hinside, hstep, h⟩
      | _ => exact h.elim
  | breakdown detail s' =>
      cases ending with
      | broken detail' =>
          obtain ⟨rfl, hkeeping⟩ := h
          exact ⟨s, s', .refl s, hinside, hstep, hkeeping⟩
      | _ => exact h.elim
  | finished v s' => exact h.elim

end Passes

/-- One step of a run that nobody cancels. -/
def going (p : Program) (limits : Limits) (s : State) : Transition := s.step p limits false

section

variable {p : Program} {limits : Limits} {s s' : State}

theorem Steps.path {k : Nat} (h : Steps p limits k s s') :
    Path (going p limits) (fun _ => True) s s' := by
  induction h with
  | refl s => exact .refl s
  | step hstep _ ih => exact .step trivial hstep ih

theorem Path.steps {inside : State → Prop} (h : Path (going p limits) inside s s') :
    ∃ k, Steps p limits k s s' := by
  induction h with
  | refl s => exact ⟨0, .refl s⟩
  | step _ hstep _ ih =>
      obtain ⟨k, hk⟩ := ih
      exact ⟨k + 1, .step hstep hk⟩

/-- A run that is only counted may go anywhere, and it is lost where it takes so many steps. -/
theorem meets_iff_passes {α : Type} {count : Nat} {good : α → Store → State → Prop}
    {r : Ending α × Store} :
    Meets p limits count good s r ↔
      Passes (going p limits) (fun _ => True) (fun s => ∃ k s', count ≤ k ∧ Steps p limits k s s')
        good s r := by
  obtain ⟨ending, st⟩ := r
  cases ending with
  | done a =>
      refine ⟨fun ⟨k, t, h, ht⟩ => ⟨t, h.path, ht⟩, fun ⟨t, h, ht⟩ => ?_⟩
      obtain ⟨k, hk⟩ := h.steps
      exact ⟨k, t, hk, ht⟩
  | failed cause =>
      refine ⟨fun ⟨k, t, e, t', h, ht⟩ => ⟨t, e, t', h.path, trivial, ht⟩,
        fun ⟨t, e, t', h, _, ht⟩ => ?_⟩
      obtain ⟨k, hk⟩ := h.steps
      exact ⟨k, t, e, t', hk, ht⟩
  | broken detail =>
      refine ⟨fun ⟨k, t, t', h, ht⟩ => ⟨t, t', h.path, trivial, ht⟩,
        fun ⟨t, t', h, _, ht⟩ => ?_⟩
      obtain ⟨k, hk⟩ := h.steps
      exact ⟨k, t, t', hk, ht⟩
  | spent =>
      refine ⟨fun ⟨k, t, hle, h⟩ => ⟨s, .refl s, k, t, hle, h⟩, fun ⟨t, h, k, t', hle, h'⟩ => ?_⟩
      obtain ⟨j, hj⟩ := h.steps
      exact ⟨j + k, t', Nat.le_add_left_of_le hle, hj.trans h'⟩

/-- What a transition leads to meets an evaluation when it passes through it. -/
theorem leads_iff_from {α : Type} {count : Nat} {good : α → Store → State → Prop}
    {transition : Transition} {r : Ending α × Store} :
    Leads p limits count good transition r ↔
      Passes.From (going p limits) (fun _ => True)
        (fun s => ∃ k s', count ≤ k ∧ Steps p limits k s s') good transition r := by
  obtain ⟨ending, st⟩ := r
  cases transition with
  | next s' => exact meets_iff_passes
  | _ => cases ending <;> exact Iff.rfl

end

/-! ## Runs for ever -/

/-- A run goes on for ever, and all of its states lie inside. -/
def Endless (go : State → Transition) (inside : State → Prop) (s : State) : Prop :=
  ∃ run : Nat → State, run 0 = s ∧ ∀ n, inside (run n) ∧ go (run n) = .next (run (n + 1))

theorem Endless.mono {go : State → Transition} {inside inside' : State → Prop} {s : State}
    (h : Endless go inside s) (hinside : ∀ s, inside s → inside' s) : Endless go inside' s := by
  obtain ⟨run, hfirst, hrun⟩ := h
  exact ⟨run, hfirst, fun n => ⟨hinside _ (hrun n).1, (hrun n).2⟩⟩

theorem Endless.of_invariant {go : State → Transition} {inside : State → Prop}
    (invariant : State → Prop) {s : State} (h : invariant s)
    (hinvariant : ∀ s, invariant s → inside s ∧ ∃ s', go s = .next s' ∧ invariant s') :
    Endless go inside s := by
  have : Nonempty State := ⟨s⟩
  choose! next hnext using fun s hs => (hinvariant s hs).2
  have hrun : ∀ n, invariant (next^[n] s) := by
    intro n
    induction n with
    | zero => exact h
    | succ n ih =>
        rw [Function.iterate_succ_apply']
        exact (hnext _ ih).2
  refine ⟨fun n => next^[n] s, rfl, fun n => ⟨(hinvariant _ (hrun n)).1, ?_⟩⟩
  exact (hnext _ (hrun n)).1.trans (congrArg _ (Function.iterate_succ_apply' next n s).symm)

/-! ## One instruction -/

/-- What the code of a function between two addresses needs for its expressions to be carried out:
it lies inside, and calls pass through their evaluation. -/
structure Stretch (c : Compiler) (p : Program) (limits : Limits) (site : Site) (start ending : Nat)
    (inside lost : State → Prop) (invoke : String → List Value → Eval Value) : Prop where
  free : limits.Free
  covers : ∀ {st : Store} {ip : Nat} {stack : List Value} {s : State}, start ≤ ip → ip < ending →
    Shows c site st ip stack s → inside s
  calls : ∀ {st : Store} {ip : Nat} {stack values : List Value} {name : String} {s : State},
    start ≤ ip → ip < ending → c.arity? p name = some values.length →
    site.code[ip]? = some (named .call name) → Shows c site st ip (stack ++ values) s →
    site.base ≤ stack.length →
    Passes (going p limits) inside lost (Pushed c site (ip + 1) stack) s (invoke name values st)

/-- A new container goes on the stack. -/
theorem Shows.pushNew {c : Compiler} {site : Site} {st : Store} {ip : Nat} {stack : List Value}
    {s : State} (h : Shows c site st ip stack s) (make : Heap → Value × Heap) :
    Shows c site (st.mapHeap fun h => (make h).2) ip (stack ++ [(make st.heap).1])
      (s.pushNew make) := by
  obtain ⟨sstack, frame, callers, globals, world, natives, steps, trace?⟩ := s
  obtain ⟨locals?, _, _, _⟩ := st
  obtain ⟨⟨rfl, rfl, rfl⟩, rfl, hframe, hcallers, hserved⟩ := h
  exact ⟨⟨rfl, rfl, rfl⟩, Array.toList_push, hframe, hcallers, hserved⟩

namespace Stretch

variable {α : Type} {c : Compiler} {p : Program} {limits : Limits} {site : Site}
  {start ending ip : Nat} {inside lost : State → Prop} {invoke : String → List Value → Eval Value}
  {good : α → Store → State → Prop} {st st' : Store} {stack : List Value} {s : State}
  {i : Instruction} (g : Stretch c p limits site start ending inside lost invoke)
  (hstart : start ≤ ip) (hending : ip < ending)
include g hstart hending

/-- An instruction passes through an evaluation when what it does leads there. -/
theorem passes (h : Shows c site st ip stack s) (hi : site.code[ip]? = some i)
    {r : Ending α × Store}
    (hexecute : ∀ t, Shows c site st (ip + 1) stack t →
      Passes.From (going p limits) inside lost good (t.execute p limits i) r) :
    Passes (going p limits) inside lost good s r := by
  obtain ⟨t, hstep, ht⟩ := h.step_eq (p := p) g.free.steps hi
  exact .of_step (g.covers hstart hending h) hstep (hexecute t ht)

/-- An instruction that does something and goes on. -/
theorem next {a : α} (h : Shows c site st ip stack s) (hi : site.code[ip]? = some i)
    (hexecute : ∀ t, Shows c site st (ip + 1) stack t →
      ∃ t', t.execute p limits i = .next t' ∧ good a st' t') :
    Passes (going p limits) inside lost good s (.done a, st') := by
  refine g.passes hstart hending h hi fun t ht => ?_
  obtain ⟨t', heq, hgood⟩ := hexecute t ht
  rw [heq]
  exact Passes.From.done hgood

/-- An instruction that pushes a value. -/
theorem push {v : Value} (h : Shows c site st ip stack s) (hi : site.code[ip]? = some i)
    (hexecute : ∀ t, Shows c site st (ip + 1) stack t → t.execute p limits i = .next (t.push v)) :
    Passes (going p limits) inside lost (Pushed c site (ip + 1) stack) s (.done v, st) :=
  g.next hstart hending h hi fun t ht => ⟨t.push v, hexecute t ht, ht.push v⟩

omit g hstart hending in
/-- The result of an operator, pushed or failed, is that of the evaluation. -/
theorem from_pushing (h : Shows c site st ip stack s) (f : Heap → Except Cause Value) :
    Passes.From (going p limits) inside lost (Pushed c site ip stack) (s.pushing (f s.heap))
      (Eval.operate f st) := by
  unfold Eval.operate
  rw [h.heap_eq]
  cases f st.heap with
  | ok v => exact Passes.From.done (h.push v)
  | error cause => exact ⟨rfl, h.globals_eq, h.world_eq, h.natives_eq⟩

/-- An operator on the topmost value. -/
theorem operate {v : Value} (f : Value → Heap → Except Cause Value)
    (h : Shows c site st ip (stack ++ [v]) s) (hbase : site.base ≤ stack.length)
    (hi : site.code[ip]? = some i)
    (hexecute : ∀ t : State, t.execute p limits i = t.popping fun v s => s.pushing (f v s.heap)) :
    Passes (going p limits) inside lost (Pushed c site (ip + 1) stack) s
      (Eval.operate (f v) st) := by
  refine g.passes hstart hending h hi fun t ht => ?_
  rw [hexecute, ht.popping_eq hbase]
  exact from_pushing ht.drop (f v)

/-- An operator on the two topmost values. -/
theorem operate2 {v w : Value} (f : Value → Value → Heap → Except Cause Value)
    (h : Shows c site st ip (stack ++ [v] ++ [w]) s) (hbase : site.base ≤ stack.length)
    (hi : site.code[ip]? = some i)
    (hexecute : ∀ t : State,
      t.execute p limits i = t.popping2 fun v w s => s.pushing (f v w s.heap)) :
    Passes (going p limits) inside lost (Pushed c site (ip + 1) stack) s
      (Eval.operate (f v w) st) := by
  refine g.passes hstart hending h hi fun t ht => ?_
  rw [hexecute, ht.popping2_eq hbase]
  exact from_pushing ht.drop.drop (f v w)

theorem newList (h : Shows c site st ip stack s) (hi : site.code[ip]? = some (plain .list)) :
    Passes (going p limits) inside lost
      (fun place st s => Shows c site st (ip + 1) (stack ++ [.list place]) s) s (Eval.newList st) :=
  g.next hstart hending h hi fun _ ht => ⟨_, rfl, ht.pushNew (·.newList #[])⟩

theorem newObject (h : Shows c site st ip stack s) (hi : site.code[ip]? = some (plain .object)) :
    Passes (going p limits) inside lost
      (fun place st s => Shows c site st (ip + 1) (stack ++ [.object place]) s) s
      (Eval.newObject st) :=
  g.next hstart hending h hi fun _ ht => ⟨_, rfl, ht.pushNew (·.newObject {})⟩

/-- The jump past a right operand is taken when the left operand settles the value. -/
theorem skip {o : BinaryOp} {op : Opcode} {v : Value} {target : Nat} {r : Ending α × Store}
    (ho : o.skip? = some op) (h : Shows c site st ip (stack ++ [v]) s)
    (hbase : site.base ≤ stack.length) (hi : site.code[ip]? = some (jumpTo op target))
    (hsettled : o.settles v = true → ∀ t, Shows c site st target (stack ++ [v]) t →
      Passes (going p limits) inside lost good t r)
    (hopen : o.settles v = false → ∀ t, Shows c site st (ip + 1) (stack ++ [v]) t →
      Passes (going p limits) inside lost good t r) :
    Passes (going p limits) inside lost good s r := by
  refine g.passes hstart hending h hi fun t ht => ?_
  rw [execute_skip t p limits ho, ht.withTop_eq hbase]
  cases hsettles : o.settles v with
  | true => exact hsettled hsettles _ (ht.jump target)
  | false => exact hopen hsettles t ht

/-- A value is appended to the list below it. -/
theorem append {place : Nat} {v : Value}
    (h : Shows c site st ip (stack ++ [.list place] ++ [v]) s) (hbase : site.base ≤ stack.length)
    (hi : site.code[ip]? = some (plain .append)) :
    Passes (going p limits) inside lost
      (fun _ st s => Shows c site st (ip + 1) (stack ++ [.list place]) s) s
      (Eval.change (Store.mapHeap (·.append place v)) st) := by
  refine g.next hstart hending h hi fun t ht =>
    ⟨t.drop.mapHeap (·.append place v), ?_, ht.drop.mapHeap _⟩
  unfold State.execute plain
  dsimp only
  rw [ht.popping_eq (by simp; omega), ht.drop.withTop_eq hbase]

/-- A value is set in the object below it. -/
theorem set {place : Nat} {name : String} {v : Value}
    (h : Shows c site st ip (stack ++ [.object place] ++ [v]) s) (hbase : site.base ≤ stack.length)
    (hi : site.code[ip]? = some (named .set name)) :
    Passes (going p limits) inside lost
      (fun _ st s => Shows c site st (ip + 1) (stack ++ [.object place]) s) s
      (Eval.change (Store.mapHeap (·.setMember place name v)) st) := by
  refine g.next hstart hending h hi fun t ht =>
    ⟨t.drop.mapHeap (·.setMember place name v), ?_, ht.drop.mapHeap _⟩
  unfold State.execute named
  dsimp only
  rw [ht.popping_eq (by simp; omega), ht.drop.withTop_eq hbase]

end Stretch

/-! ## Expressions -/

/-- A state with the values of arguments on top of a stack. -/
def PushedAll (c : Compiler) (site : Site) (ip count : Nat) (stack : List Value) :
    List Value → Store → State → Prop :=
  fun values st s => values.length = count ∧ Shows c site st ip (stack ++ values) s

section

variable {c : Compiler} {p : Program} {limits : Limits} {site : Site} {start ending : Nat}
  {inside lost : State → Prop} {invoke : String → List Value → Eval Value}

mutual

/-- The code of an expression pushes its value. -/
theorem Expr.passes (g : Stretch c p limits site start ending inside lost invoke) :
    ∀ (e : Expr) {scope : Scope} {a b : Nat} {st : Store} {stack : List Value} {s : State},
      e.Scoped scope → scope.Within (c.arity? p) → Placed site.code a (e.code a) → start ≤ a →
      b = a + e.size → b ≤ ending → Shows c site st a stack s → site.base ≤ stack.length →
      Passes (going p limits) inside lost (Pushed c site b stack) s
        (e.eval site.function.declares invoke st)
  | .null, scope, a, b, st, stack, s, _, _, hcode, ha, hb, hend, h, _ => by
      subst hb
      exact g.push ha hend h hcode.head fun _ _ => rfl
  | .literal value, scope, a, b, st, stack, s, _, _, hcode, ha, hb, hend, h, _ => by
      subst hb
      exact g.push ha hend h hcode.head fun _ _ => rfl
  | .name text, scope, a, b, st, stack, s, _, _, hcode, ha, hb, hend, h, _ => by
      subst hb
      refine g.push ha hend h hcode.head fun t ht => ?_
      rw [← ht.load_eq]
      rfl
  | .call function arguments, scope, a, b, st, stack, s, hscoped, hwithin, hcode, ha, hb, hend, h,
      hbase => by
      have hcall : site.code[a + arguments.size]? = some (named .call function) :=
        hcode.last (by rw [arguments.length_code])
      have harity := hwithin _ _ hscoped.1
      have hnext : b = a + arguments.size + 1 := hb
      subst hnext
      refine (Exprs.passes g arguments hscoped.2 hwithin hcode.left ha rfl (by omega) h hbase).bind ?_
      rintro values st' s' ⟨hlength, h'⟩
      exact g.calls (by omega) hend (by rw [harity, hlength]) hcall h' hbase
  | .list items, scope, a, b, st, stack, s, hscoped, hwithin, hcode, ha, hb, hend, h, hbase => by
      have hb : b = a + 1 + items.size + items.count := by rw [hb, Expr.size]; omega
      refine (g.newList ha (by omega) h hcode.head).bind fun place st' s' h' => ?_
      refine (Exprs.passes_fill g items hscoped hwithin hcode.tail (by omega) hb hend h' hbase).bind
        fun _ st'' s'' h'' => ?_
      exact .done h''
  | .object members, scope, a, b, st, stack, s, hscoped, hwithin, hcode, ha, hb, hend, h, hbase => by
      have hb : b = a + 1 + members.size := by rw [hb, Expr.size]; omega
      refine (g.newObject ha (by omega) h hcode.head).bind fun place st' s' h' => ?_
      refine (Members.passes_fill g members hscoped hwithin hcode.tail (by omega) hb hend h' hbase).bind
        fun _ st'' s'' h'' => ?_
      exact .done h''
  | .index container position, scope, a, b, st, stack, s, hscoped, hwithin, hcode, ha, hb, hend, h,
      hbase => by
      have hlast : site.code[a + container.size + position.size]? = some (plain .index) :=
        hcode.last (by simp; omega)
      have hnext : b = a + container.size + position.size + 1 := by rw [hb, Expr.size]; omega
      subst hnext
      refine (Expr.passes g container hscoped.1 hwithin hcode.left.left ha rfl (by omega) h hbase).bind
        fun v st' s' h' => ?_
      refine (Expr.passes g position hscoped.2 hwithin
        (hcode.left.right (by rw [container.length_code])) (by omega) rfl (by omega) h'
        (by simp; omega)).bind fun w st'' s'' h'' => ?_
      exact g.operate2 (by omega) hend (fun v w h => element h v w) h'' hbase hlast fun _ => rfl
  | .member owner name, scope, a, b, st, stack, s, hscoped, hwithin, hcode, ha, hb, hend, h, hbase => by
      have hlast : site.code[a + owner.size]? = some (named .get name) :=
        hcode.last (by rw [owner.length_code])
      have hnext : b = a + owner.size + 1 := hb
      subst hnext
      refine (Expr.passes g owner hscoped hwithin hcode.left ha rfl (by omega) h hbase).bind
        fun v st' s' h' => ?_
      exact g.operate (by omega) hend (memberOf name) h' hbase hlast
        fun t => execute_get t p limits name
  | .unary o operand, scope, a, b, st, stack, s, hscoped, hwithin, hcode, ha, hb, hend, h, hbase => by
      have hle : a + operand.size ≤ ending := by rw [hb, Expr.size] at hend; omega
      refine (Expr.passes g operand hscoped hwithin hcode.left ha rfl hle h hbase).bind
        fun v st' s' h' => ?_
      cases ho : o.opcode? with
      | none =>
          cases o <;> cases ho
          rw [hb]
          exact .done h'
      | some op =>
          have hunary : unaryCode o = [plain op] := by unfold unaryCode; rw [ho]; rfl
          have hnext : b = a + operand.size + 1 := by rw [hb, Expr.size, hunary]; rfl
          have hlast : site.code[a + operand.size]? = some (plain op) := by
            rw [Expr.code, hunary] at hcode
            exact hcode.last (by rw [operand.length_code])
          subst hnext
          exact g.operate (by omega) hend (fun v _ => o.apply v) h' hbase hlast
            fun t => execute_unary t p limits ho
  | .binary o left right, scope, a, b, st, stack, s, hscoped, hwithin, hcode, ha, hb, hend, h,
      hbase => by
      have hnext : b = a + left.size + skipSize o + right.size + 1 := by rw [hb, Expr.size]; omega
      have hlast : site.code[a + left.size + skipSize o + right.size]? = some (plain o.opcode) :=
        hcode.last (by simp; omega)
      have hright := hcode.left.right (b := a + left.size + skipSize o) (by simp; omega)
      have hskip := hcode.left.left.right (b := a + left.size) (by simp)
      subst hnext
      refine (Expr.passes g left hscoped.1 hwithin hcode.left.left.left ha rfl (by omega) h hbase).bind
        fun v st' s' h' => ?_
      -- Behind the skip, or where there is none, the right operand follows.
      have hrest : ∀ s', Shows c site st' (a + left.size + skipSize o) (stack ++ [v]) s' →
          Passes (going p limits) inside lost
            (Pushed c site (a + left.size + skipSize o + right.size + 1) stack) s'
            ((do
              let w ← right.eval site.function.declares invoke
              Eval.operate (o.apply · v w)) st') := by
        intro s' h'
        refine (Expr.passes g right hscoped.2 hwithin hright (by omega) rfl (by omega) h'
          (by simp; omega)).bind fun w st'' s'' h'' => ?_
        exact g.operate2 (by omega) hend (fun v w h => o.apply h v w) h'' hbase hlast
          fun t => execute_binary t p limits o
      cases ho : o.skip? with
      | none =>
          rw [settles_of_skip?_eq_none ho]
          have hsize : skipSize o = 0 := by unfold skipSize skipCode; rw [ho]; rfl
          exact hrest s' (by rw [hsize]; exact h')
      | some op =>
          have hsize : skipSize o = 1 := by unfold skipSize skipCode; rw [ho]; rfl
          unfold skipCode at hskip
          rw [ho] at hskip
          change Passes (going p limits) inside lost
            (Pushed c site (a + left.size + skipSize o + right.size + 1) stack) s'
            ((if o.settles v then pure v else do
              let w ← right.eval site.function.declares invoke
              Eval.operate (o.apply · v w)) st')
          refine g.skip (by omega) (by omega) ho h' hbase hskip.head (fun hsettles t ht => ?_)
            fun hsettles t ht => ?_
          · rw [if_pos hsettles]
            exact .done ht
          · rw [if_neg (Bool.eq_false_iff.mp hsettles)]
            exact hrest t (by rw [hsize]; exact ht)

/-- The code of arguments pushes their values. -/
theorem Exprs.passes (g : Stretch c p limits site start ending inside lost invoke) :
    ∀ (es : Exprs) {scope : Scope} {a b : Nat} {st : Store} {stack : List Value} {s : State},
      es.Scoped scope → scope.Within (c.arity? p) → Placed site.code a (es.code a) → start ≤ a →
      b = a + es.size → b ≤ ending → Shows c site st a stack s → site.base ≤ stack.length →
      Passes (going p limits) inside lost (PushedAll c site b es.count stack) s
        (es.eval site.function.declares invoke st)
  | .nil, scope, a, b, st, stack, s, _, _, _, _, hb, _, h, _ => by
      subst hb
      exact .done ⟨rfl, by rw [List.append_nil]; exact h⟩
  | .cons first rest, scope, a, b, st, stack, s, hscoped, hwithin, hcode, ha, hb, hend, h, hbase => by
      have hb : b = a + first.size + rest.size := by rw [hb, Exprs.size]; omega
      refine (Expr.passes g first hscoped.1 hwithin hcode.left ha rfl (by omega) h hbase).bind
        fun v st' s' h' => ?_
      refine (Exprs.passes g rest hscoped.2 hwithin (hcode.right (by rw [first.length_code]))
        (by omega) hb hend h' (by simp; omega)).bind ?_
      rintro values st'' s'' ⟨hlength, h''⟩
      rw [List.append_assoc] at h''
      exact .done ⟨by rw [List.length_cons, hlength, Exprs.count], h''⟩

/-- The code of elements appends their values to the list below. -/
theorem Exprs.passes_fill (g : Stretch c p limits site start ending inside lost invoke) :
    ∀ (es : Exprs) {scope : Scope} {a b place : Nat} {st : Store} {stack : List Value} {s : State},
      es.Scoped scope → scope.Within (c.arity? p) → Placed site.code a (es.appendCode a) →
      start ≤ a → b = a + es.size + es.count → b ≤ ending →
      Shows c site st a (stack ++ [.list place]) s → site.base ≤ stack.length →
      Passes (going p limits) inside lost
        (fun _ st s => Shows c site st b (stack ++ [.list place]) s) s
        (es.fill site.function.declares invoke place st)
  | .nil, scope, a, b, place, st, stack, s, _, _, _, _, hb, _, h, _ => by
      subst hb
      exact .done h
  | .cons first rest, scope, a, b, place, st, stack, s, hscoped, hwithin, hcode, ha, hb, hend, h,
      hbase => by
      have hb : b = a + first.size + 1 + rest.size + rest.count := by
        rw [hb, Exprs.size, Exprs.count]
        omega
      have hrest := hcode.right (b := a + first.size) (by rw [first.length_code])
      refine (Expr.passes g first hscoped.1 hwithin hcode.left ha rfl (by omega) h
        (by simp; omega)).bind fun v st' s' h' => ?_
      refine (g.append (by omega) (by omega) h' hbase hrest.head).bind fun _ st'' s'' h'' => ?_
      exact Exprs.passes_fill g rest hscoped.2 hwithin hrest.tail (by omega) hb hend h'' hbase

/-- The code of members sets them in the object below. -/
theorem Members.passes_fill (g : Stretch c p limits site start ending inside lost invoke) :
    ∀ (ms : Members) {scope : Scope} {a b place : Nat} {st : Store} {stack : List Value} {s : State},
      ms.Scoped scope → scope.Within (c.arity? p) → Placed site.code a (ms.code a) → start ≤ a →
      b = a + ms.size → b ≤ ending → Shows c site st a (stack ++ [.object place]) s →
      site.base ≤ stack.length →
      Passes (going p limits) inside lost
        (fun _ st s => Shows c site st b (stack ++ [.object place]) s) s
        (ms.fill site.function.declares invoke place st)
  | .nil, scope, a, b, place, st, stack, s, _, _, _, _, hb, _, h, _ => by
      subst hb
      exact .done h
  | .cons name value rest, scope, a, b, place, st, stack, s, hscoped, hwithin, hcode, ha, hb, hend,
      h, hbase => by
      have hb : b = a + value.size + 1 + rest.size := by rw [hb, Members.size]; omega
      have hrest := hcode.right (b := a + value.size) (by rw [value.length_code])
      refine (Expr.passes g value hscoped.1 hwithin hcode.left ha rfl (by omega) h
        (by simp; omega)).bind fun v st' s' h' => ?_
      refine (g.set (by omega) (by omega) h' hbase hrest.head).bind fun _ st'' s'' h'' => ?_
      exact Members.passes_fill g rest hscoped.2 hwithin hrest.tail (by omega) hb hend h'' hbase

end

end

end LineScript.Machine
