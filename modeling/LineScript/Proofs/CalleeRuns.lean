/-
# A call runs as the function does by itself

What a function of a program does when it is called depends on its arguments and on what is shared:
the globals, the heap, the output and the host functions. So the meaning of a call is the run of the
function by itself, on an empty stack and with no call that waits, which any program and any machine
gives it. A call on top of other values and other calls follows this run step by step, with its part
of the stack raised by what lies below, until the function is done and the call that waits gets the
value.

Nothing is asked of the program: it need not come from a script, and it may lack what it calls.
-/

import LineScript.Proofs.Limits

namespace LineScript.Machine

open LineScript.Code LineScript.Tree

/-! ## Raised states -/

/-- What an evaluation that starts in a state can read and change. -/
def State.held (s : State) : Store := ⟨s.frame.locals?, s.globals, s.world, s.natives⟩

/-- A call whose part of the stack begins higher. -/
def Frame.raised (height : Nat) (f : Frame) : Frame := { f with base := height + f.base }

/-- The second state is the first one on top of other values and other calls. -/
structure Above (low : List Value) (outer : List Frame) (s t : State) : Prop
    extends Keeping s.held t where
  stack_eq : t.stack.toList = low ++ s.stack.toList
  frame_eq : t.frame = s.frame.raised low.length
  callers_eq : t.callers = s.callers.map (Frame.raised low.length) ++ outer
  lowest : s.bases.getLast? = some 0

/-- Two transitions of which the second does the same on top of other values and other calls. Where
the first is the end of a run, the second hands the value to the call that waits. -/
def Transition.Above (low : List Value) (outer : List Frame) : Transition → Transition → Prop
  | .next s, .next t => Machine.Above low outer s t
  | .finished v s, .next t => Keeping s.held t ∧ t.frame :: t.callers = outer ∧
      t.stack.toList = low ++ [v]
  | .failed e s, .failed e' t => e'.cause = e.cause ∧ Keeping s.held t
  | .breakdown detail s, .breakdown detail' t => detail' = detail ∧ Keeping s.held t
  | _, _ => False

namespace Above

variable {low : List Value} {outer : List Frame} {s t : State} {p : Program} {limits : Limits}

theorem size_eq (h : Above low outer s t) : t.stack.size = low.length + s.stack.size := by
  have hlength := congrArg List.length h.stack_eq
  rwa [List.length_append, Array.length_toList, Array.length_toList] at hlength

theorem base_eq (h : Above low outer s t) : t.frame.base = low.length + s.frame.base := by
  rw [h.frame_eq]
  rfl

theorem push (h : Above low outer s t) (v : Value) : Above low outer (s.push v) (t.push v) := by
  refine ⟨⟨h.globals_eq, h.world_eq, h.natives_eq⟩, ?_, h.frame_eq, h.callers_eq, h.lowest⟩
  have hs : (s.push v).stack.toList = s.stack.toList ++ [v] := Array.toList_push
  have ht : (t.push v).stack.toList = t.stack.toList ++ [v] := Array.toList_push
  rw [hs, ht, h.stack_eq, List.append_assoc]

theorem mapHeap (h : Above low outer s t) (f : Heap → Heap) :
    Above low outer (s.mapHeap f) (t.mapHeap f) := by
  refine ⟨⟨h.globals_eq, ?_, h.natives_eq⟩, h.stack_eq, h.frame_eq, h.callers_eq, h.lowest⟩
  change World.mk (f t.world.heap) t.world.output = World.mk (f s.world.heap) s.world.output
  rw [h.world_eq]
  rfl

theorem pushNew (h : Above low outer s t) (make : Heap → Value × Heap) :
    Above low outer (s.pushNew make) (t.pushNew make) := by
  have hworld : t.world = s.world := h.world_eq
  have hs : s.pushNew make = (s.mapHeap fun h => (make h).2).push (make s.world.heap).1 := rfl
  have ht : t.pushNew make = (t.mapHeap fun h => (make h).2).push (make t.world.heap).1 := rfl
  rw [hs, ht, hworld]
  exact (h.mapHeap _).push _

theorem jump (h : Above low outer s t) (target : Int) :
    Above low outer (s.jump target) (t.jump target) := by
  refine ⟨⟨h.globals_eq, h.world_eq, h.natives_eq⟩, h.stack_eq, ?_, h.callers_eq, h.lowest⟩
  change { t.frame with ip := target } = _
  rw [h.frame_eq]
  rfl

theorem load_eq (h : Above low outer s t) (name : String) : t.load name = s.load name := by
  have hglobals : t.globals = s.globals := h.globals_eq
  unfold State.load State.locals
  rw [h.frame_eq, hglobals]
  rfl

theorem store (h : Above low outer s t) (name : String) (v : Value) :
    Above low outer (s.store name v) (t.store name v) := by
  have hglobal : Above low outer { s with globals := s.globals.insert name v }
      { t with globals := t.globals.insert name v } := by
    refine ⟨⟨?_, h.world_eq, h.natives_eq⟩, h.stack_eq, h.frame_eq, h.callers_eq, h.lowest⟩
    have hglobals : t.globals = s.globals := h.globals_eq
    dsimp only [State.held]
    rw [hglobals]
  have hfunction : t.frame.function = s.frame.function := by rw [h.frame_eq]; rfl
  have hlocals : t.frame.locals? = s.frame.locals? := by rw [h.frame_eq]; rfl
  unfold State.store
  rw [hfunction, hlocals]
  cases s.frame.function.declares name with
  | false => exact hglobal
  | true =>
      cases hlocals? : s.frame.locals? with
      | none => exact hglobal
      | some locals =>
          refine ⟨⟨h.globals_eq, h.world_eq, h.natives_eq⟩, h.stack_eq, ?_, h.callers_eq, h.lowest⟩
          dsimp only
          rw [h.frame_eq]
          rfl

theorem hasTop_eq (h : Above low outer s t) : t.hasTop = s.hasTop := by
  unfold State.hasTop
  rw [h.base_eq, h.size_eq]
  exact decide_eq_decide.mpr (Nat.add_lt_add_iff_left)

theorem toList_ne_nil (htop : s.hasTop = true) : s.stack.toList ≠ [] := by
  have hlt : s.frame.base < s.stack.size := of_decide_eq_true htop
  rw [← List.length_pos_iff, Array.length_toList]
  exact Nat.zero_lt_of_lt hlt

theorem top_eq (h : Above low outer s t) (htop : s.hasTop = true) : t.top = s.top := by
  unfold State.top
  rw [← Array.getLast?_toList, ← Array.getLast?_toList, h.stack_eq, List.getLast?_append,
    List.getLast?_eq_some_getLast (toList_ne_nil htop), Option.some_or]

theorem drop (h : Above low outer s t) (htop : s.hasTop = true) :
    Above low outer s.drop t.drop := by
  refine ⟨⟨h.globals_eq, h.world_eq, h.natives_eq⟩, ?_, h.frame_eq, h.callers_eq, h.lowest⟩
  have hs : s.drop.stack.toList = s.stack.toList.dropLast := Array.toList_pop
  have ht : t.drop.stack.toList = t.stack.toList.dropLast := Array.toList_pop
  rw [hs, ht, h.stack_eq, List.dropLast_append_of_ne_nil (toList_ne_nil htop)]

theorem fail (h : Above low outer s t) (cause : Cause) :
    (s.fail cause).Above low outer (t.fail cause) :=
  ⟨rfl, h.globals_eq, h.world_eq, h.natives_eq⟩

theorem withTop (h : Above low outer s t) {k : Value → State → Transition}
    (hk : ∀ v, (k v s).Above low outer (k v t)) : (s.withTop k).Above low outer (t.withTop k) := by
  unfold State.withTop
  rw [h.hasTop_eq]
  split
  · rename_i htop
    rw [h.top_eq htop]
    exact hk s.top
  · exact h.fail _

theorem popping (h : Above low outer s t) {k : Value → State → Transition}
    (hk : ∀ v, Above low outer s.drop t.drop → (k v s.drop).Above low outer (k v t.drop)) :
    (s.popping k).Above low outer (t.popping k) := by
  unfold State.popping
  rw [h.hasTop_eq]
  split
  · rename_i htop
    rw [h.top_eq htop]
    exact hk s.top (h.drop htop)
  · exact h.fail _

theorem popping2 (h : Above low outer s t) {k : Value → Value → State → Transition}
    (hk : ∀ a b, Above low outer s.drop.drop t.drop.drop →
      (k a b s.drop.drop).Above low outer (k a b t.drop.drop)) :
    (s.popping2 k).Above low outer (t.popping2 k) := by
  unfold State.popping2
  exact h.popping fun b h => h.popping fun a h => hk a b h

theorem pushing (h : Above low outer s t) (f : Heap → Except Cause Value) :
    (s.pushing (f s.heap)).Above low outer (t.pushing (f t.heap)) := by
  have hheap : t.heap = s.heap := congrArg World.heap h.world_eq
  rw [hheap]
  cases f s.heap with
  | ok v => exact h.push v
  | error cause => exact h.fail cause

/-! ## Calls and returns -/

/-- The function that is done hands its value to the call that waits, the innermost of the others
when it is the first. -/
theorem leave (h : Above low outer s t) (houter : outer ≠ []) (v : Value) :
    (s.leave v).Above low outer (t.leave v) := by
  have hbase := h.base_eq
  obtain ⟨sstack, sframe, scallers, sglobals, sworld, snatives, ssteps, strace?⟩ := s
  obtain ⟨tstack, tframe, tcallers, tglobals, tworld, tnatives, tsteps, ttrace?⟩ := t
  obtain ⟨⟨hglobals, hworld, hnatives⟩, hstack, hframe, hcallers, hlowest⟩ := h
  dsimp only [State.held] at hglobals hworld hnatives hstack hcallers hbase
  have hshrink : (tstack.shrink tframe.base).toList = low ++ (sstack.shrink sframe.base).toList := by
    rw [Array.toList_shrink, Array.toList_shrink, hstack, hbase, List.take_length_add_append]
  cases scallers with
  | nil =>
      obtain ⟨caller, callers, rfl⟩ := List.exists_cons_of_ne_nil houter
      cases hcallers
      have hzero : sframe.base = 0 := Option.some.inj hlowest
      refine ⟨⟨hglobals, hworld, hnatives⟩, rfl, ?_⟩
      dsimp only
      rw [Array.toList_push, hshrink, hzero, Array.toList_shrink, List.take_zero, List.append_nil]
  | cons caller callers =>
      cases hcallers
      refine ⟨⟨hglobals, hworld, hnatives⟩, ?_, rfl, rfl, hlowest⟩
      dsimp only
      rw [Array.toList_push, Array.toList_push, hshrink, List.append_assoc]

theorem toList_extract (h : Above low outer s t) {start : Nat} (hstart : start ≤ s.stack.size) :
    (t.stack.extract (low.length + start) t.stack.size).toList =
      (s.stack.extract start s.stack.size).toList := by
  rw [Array.toList_extract, Array.toList_extract, List.extract_eq_take_drop,
    List.extract_eq_take_drop, h.stack_eq, h.size_eq, List.drop_length_add_append]
  congr 1
  omega

theorem shrink (h : Above low outer s t) (size : Nat) :
    Above low outer { s with stack := s.stack.shrink size }
      { t with stack := t.stack.shrink (low.length + size) } := by
  refine ⟨⟨h.globals_eq, h.world_eq, h.natives_eq⟩, ?_, h.frame_eq, h.callers_eq, h.lowest⟩
  dsimp only
  rw [Array.toList_shrink, Array.toList_shrink, h.stack_eq, List.take_length_add_append]

theorem enter (h : Above low outer s t) (hfree : limits.Free) (name : String) (f : Function) :
    (s.enter limits name f).Above low outer (t.enter limits name f) := by
  have hdepth := hfree.depth
  have hsize := h.size_eq
  have hbase := h.base_eq
  unfold State.enter
  dsimp only
  by_cases hmissing : s.stack.size < s.frame.base + f.arity
  · rw [if_pos hmissing, if_pos (by omega)]
    exact h.fail _
  · have hstart : t.stack.size - f.arity = low.length + (s.stack.size - f.arity) := by omega
    rw [if_neg hmissing, if_neg (by omega), if_neg (by omega), if_neg (by omega), hstart,
      h.toList_extract (Nat.sub_le _ _)]
    have hstack := (h.shrink (s.stack.size - f.arity)).stack_eq
    refine ⟨⟨h.globals_eq, h.world_eq, h.natives_eq⟩, hstack, rfl, ?_, h.lowest⟩
    dsimp only
    rw [h.frame_eq, h.callers_eq]
    rfl

theorem answer (h : Above low outer s t) (name : String) (bound : Bound) (args : List Value) :
    (s.answer name bound args).Above low outer (t.answer name bound args) := by
  obtain ⟨sstack, sframe, scallers, sglobals, sworld, snatives, ssteps, strace?⟩ := s
  obtain ⟨tstack, tframe, tcallers, tglobals, tworld, tnatives, tsteps, ttrace?⟩ := t
  obtain ⟨⟨hglobals, hworld, hnatives⟩, hstack, hframe, hcallers, hlowest⟩ := h
  dsimp only [State.held] at hglobals hworld hnatives hstack hframe hcallers
  subst hglobals hworld hnatives
  unfold State.answer
  dsimp only
  generalize bound.native.run (bound.calls + 1) args tworld = reply
  obtain ⟨reply, world⟩ := reply
  cases reply with
  | value v =>
      refine ⟨⟨rfl, rfl, rfl⟩, ?_, hframe, hcallers, hlowest⟩
      dsimp only
      rw [Array.toList_push, Array.toList_push, hstack, List.append_assoc]
  | failure detail => exact ⟨rfl, rfl, rfl, rfl⟩
  | breakdown detail => exact ⟨rfl, rfl, rfl, rfl⟩

theorem ask (h : Above low outer s t) (name : String) (bound : Bound) :
    (s.ask name bound).Above low outer (t.ask name bound) := by
  have hsize := h.size_eq
  have hbase := h.base_eq
  unfold State.ask
  by_cases hmissing : (s.stack.size : Int) - bound.arity < s.frame.base
  · have hmissing' : (t.stack.size : Int) - bound.arity < t.frame.base := by omega
    rw [if_pos hmissing, if_pos hmissing']
    exact h.fail _
  · have hmissing' : ¬ (t.stack.size : Int) - bound.arity < t.frame.base := by omega
    rw [if_neg hmissing, if_neg hmissing']
    by_cases harity : bound.arity < 0
    · rw [if_pos harity, if_pos harity]
      exact ⟨rfl, h.globals_eq, h.world_eq, h.natives_eq⟩
    · have hstart : t.stack.size - bound.arity.toNat =
          low.length + (s.stack.size - bound.arity.toNat) := by omega
      rw [if_neg harity, if_neg harity]
      dsimp only
      rw [hstart, h.toList_extract (Nat.sub_le _ _)]
      exact (h.shrink _).answer name bound _

theorem call (h : Above low outer s t) (hfree : limits.Free) (name : String) :
    (s.call p limits name).Above low outer (t.call p limits name) := by
  have hnatives : t.natives = s.natives := h.natives_eq
  unfold State.call
  rw [hnatives]
  split
  · exact h.enter hfree name _
  · split
    · exact h.ask name _
    · exact h.fail _

/-! ## All instructions -/

theorem execute (h : Above low outer s t) (hfree : limits.Free) (houter : outer ≠ [])
    (i : Instruction) : (s.execute p limits i).Above low outer (t.execute p limits i) := by
  obtain ⟨op, literal, name, target, line⟩ := i
  unfold State.execute
  cases op <;> dsimp only
  case unassigned => exact h.fail _
  case call => exact h.call hfree name
  case ret => exact h.popping fun v h => h.leave houter v
  case value => exact h.push _
  case load =>
    rw [h.load_eq]
    exact h.push _
  case list | object => exact h.pushNew _
  case pop => exact h.popping fun _ h => h
  case store => exact h.popping fun v h => h.store name v
  case append | set =>
    refine h.popping fun v h => h.withTop fun c => ?_
    split
    · exact h.mapHeap _
    · exact h.fail _
  case get =>
    refine h.popping fun c h => ?_
    split
    · have hworld : t.drop.heap = s.drop.heap := congrArg World.heap h.world_eq
      rw [hworld]
      exact h.push _
    · exact h.fail _
  case negate =>
    refine h.popping fun c h => ?_
    split
    · exact h.push _
    · exact h.fail _
  case not => exact h.popping fun v h => h.push _
  case index => exact h.popping2 fun c j h => h.pushing (element · c j)
  case put =>
    refine h.popping fun v h => h.popping2 fun c j h => ?_
    have hheap : t.drop.drop.drop.heap = s.drop.drop.drop.heap := congrArg World.heap h.world_eq
    rw [hheap]
    split
    · exact h.mapHeap _
    · exact h.fail _
  case jump => exact h.jump target
  case branch =>
    refine h.popping fun v h => ?_
    split
    · exact h
    · exact h.jump target
  case skipAnd =>
    refine h.withTop fun v => ?_
    split
    · exact h
    · exact h.jump target
  case skipOr =>
    refine h.withTop fun v => ?_
    split
    · exact h.jump target
    · exact h
  case and | or | equal | notEqual => exact h.popping2 fun a b h => h.push _
  case add => exact h.popping2 fun a b h => h.pushing (Machine.add · a b)
  case subtract | multiply | divide =>
    exact h.popping2 fun a b h => h.pushing fun _ => arithmetic _ a b
  case less | lessOrEqual | greater | greaterOrEqual =>
    exact h.popping2 fun a b h => h.pushing fun _ => compare _ a b

/-- A step on top of other values and other calls is the same step. -/
theorem step (h : Above low outer s t) (hfree : limits.Free) (houter : outer ≠ []) :
    (s.step p limits false).Above low outer (t.step p limits false) := by
  have hip : t.frame.ip = s.frame.ip := by rw [h.frame_eq]; rfl
  have hinstruction : t.instruction? = s.instruction? := by
    unfold State.instruction?
    rw [h.frame_eq]
    rfl
  have hsteps := hfree.steps
  cases hi : s.instruction? with
  | none =>
      rw [hi] at hinstruction
      rw [step_of_instruction?_eq_none hi, step_of_instruction?_eq_none hinstruction, hip]
      split
      · exact ⟨rfl, h.globals_eq, h.world_eq, h.natives_eq⟩
      · exact h.leave houter .null
  | some i =>
      rw [hi] at hinstruction
      rw [step_of_instruction?_eq_some hi, step_of_instruction?_eq_some hinstruction,
        if_neg fun hspent => by have := hspent.1; omega,
        if_neg fun hspent => by have := hspent.1; omega]
      obtain ⟨strace?, hs⟩ := recorded_eq s.begin s.frame.ip.toNat i
      obtain ⟨ttrace?, ht⟩ := recorded_eq t.begin t.frame.ip.toNat i
      rw [hs, ht]
      refine execute (s := { s.begin with trace? := strace? }) (t := { t.begin with trace? := ttrace? })
        ⟨⟨h.globals_eq, h.world_eq, h.natives_eq⟩, h.stack_eq, ?_, h.callers_eq, h.lowest⟩ hfree houter i
      change Frame.mk t.frame.function (t.frame.ip + 1) t.frame.base t.frame.locals? = _
      rw [h.frame_eq]
      rfl

theorem suffix (h : Above low outer s t) : outer <:+ t.callers :=
  ⟨_, h.callers_eq.symm⟩

end Above

/-! ## Runs to the end of a call -/

/-- A call of a function by itself. -/
def solo (f : Function) (values : List Value) (st : Store) : State where
  frame := { function := f, locals? := some (State.arguments f.params values) }
  globals := st.globals
  world := st.world
  natives := st.natives

/-- How a call ends when the run of its function by itself has ended. -/
def Outcome.ending : Outcome → Ending Value
  | .value v => .done v
  | .failed e => .failed e.cause
  | .breakdown detail => .broken detail
  | .noTopLevel | .unfinished => .spent

/-- What the end of a run means for the call that waits for it and has variables of its own. -/
def handed (locals? : Option (Dict Value)) (r : Outcome × State) : Ending Value × Store :=
  (r.1.ending, ⟨locals?, r.2.globals, r.2.world, r.2.natives⟩)

/-- A call is over: the innermost of the others runs, with the value on the stack. -/
def Back (low : List Value) (outer : List Frame) (v : Value) (st : Store) (s : State) : Prop :=
  Keeping st s ∧ s.frame :: s.callers = outer ∧ s.stack.toList = low ++ [v]

section

variable {c : Compiler} {p : Program} {limits : Limits} {low : List Value} {outer : List Frame}
  {s t : State}

/-- When a function by itself comes to an end, so does its call, in the same way. -/
theorem Above.passes {lost : State → Prop} (h : Above low outer s t) (hfree : limits.Free)
    (houter : outer ≠ []) (locals? : Option (Dict Value)) {patience : Nat}
    (hends : (proceed p limits false patience s).1 ≠ .unfinished) :
    Passes (going p limits) (outer <:+ ·.callers) lost (Back low outer) t
      (handed locals? (proceed p limits false patience s)) := by
  induction patience generalizing s t with
  | zero => exact absurd rfl hends
  | succ patience ih =>
      have habove := h.step (p := p) hfree houter
      unfold proceed at hends ⊢
      refine .of_step h.suffix rfl ?_
      unfold going
      generalize s.step p limits false = T at *
      generalize t.step p limits false = T' at *
      cases T <;> cases T' <;> try exact habove.elim
      case next.next s' t' => exact ih habove hends
      case finished.next v s' t' =>
        obtain ⟨hkeeping, hback⟩ := habove
        exact Passes.From.done
          ⟨⟨hkeeping.globals_eq, hkeeping.world_eq, hkeeping.natives_eq⟩, hback⟩
      case failed.failed e s' e' t' =>
        obtain ⟨hcause, hkeeping⟩ := habove
        exact ⟨hcause, hkeeping.globals_eq, hkeeping.world_eq, hkeeping.natives_eq⟩
      case breakdown.breakdown detail s' detail' t' =>
        obtain ⟨rfl, hkeeping⟩ := habove
        exact ⟨rfl, hkeeping.globals_eq, hkeeping.world_eq, hkeeping.natives_eq⟩

/-- When a function by itself runs for ever, so does its call. -/
theorem Above.endless (h : Above low outer s t) (hfree : limits.Free) (houter : outer ≠ [])
    (hends : ∀ patience, (proceed p limits false patience s).1 = .unfinished) :
    Endless (going p limits) (outer <:+ ·.callers) t := by
  refine Endless.of_invariant (fun t => ∃ s, Above low outer s t ∧
    ∀ patience, (proceed p limits false patience s).1 = .unfinished) ⟨s, h, hends⟩ ?_
  rintro t ⟨s, h, hends⟩
  have habove := h.step (p := p) hfree houter
  have hnext : ∀ patience, (proceed p limits false (patience + 1) s).1 = .unfinished := fun _ =>
    hends _
  unfold proceed at hnext
  refine ⟨h.suffix, ?_⟩
  unfold going
  generalize s.step p limits false = T at *
  generalize t.step p limits false = T' at *
  cases T <;> cases T' <;> try exact habove.elim
  case next.next s' t' => exact ⟨t', rfl, s', habove, hnext⟩
  all_goals cases hnext 0

/-- A call that has just begun is the function by itself on top of what was there. -/
theorem Shows.above_solo {site : Site} {f : Function} {values stack : List Value} {st : Store}
    {ip : Nat} (h : Shows c (site.calling f st ip stack.length)
      { st with locals? := some (State.arguments f.params values) } 0 stack t) :
    Above stack (site.calling f st ip stack.length).callers (solo f values st) t := by
  refine ⟨⟨h.globals_eq, h.world_eq, h.natives_eq⟩, ?_, h.frame_eq, h.callers_eq, rfl⟩
  rw [h.stack_eq]
  exact (List.append_nil stack).symm

end

/-! ## Host functions after a run -/

section

variable {c : Compiler} {s : State}

theorem untouched_natives : Untouched State.natives :=
  ⟨fun _ => rfl, fun _ _ => rfl, fun _ _ => rfl, fun _ _ => rfl, fun _ _ => rfl⟩

theorem Served.ask (h : Served c s.natives) {name : String} {bound : Bound}
    (hbound : s.natives.get? name = some bound) :
    Served c (s.ask name bound).state.natives := by
  unfold State.ask
  split
  · exact h
  · split
    · exact h
    · obtain ⟨stack, frame, callers, globals, world, natives, steps, trace?⟩ := s
      unfold State.answer
      dsimp only
      split
      · exact h.insert _ hbound
      · exact h
      · exact h

theorem natives_leave (s : State) (v : Value) : (s.leave v).state.natives = s.natives := by
  obtain ⟨stack, frame, callers, globals, world, natives, steps, trace?⟩ := s
  cases callers with
  | nil => rfl
  | cons caller callers => rfl

theorem natives_store (s : State) (name : String) (v : Value) :
    (s.store name v).natives = s.natives := by
  unfold State.store
  split
  · rfl
  · rfl

/-- An instruction counts a call of a host function and leaves the host functions alone
otherwise. -/
theorem Served.execute (h : Served c s.natives) (p : Program) (limits : Limits) (i : Instruction) :
    Served c (s.execute p limits i).state.natives := by
  by_cases hcall : i.op = .call
  · unfold State.execute
    rw [hcall]
    dsimp only
    unfold State.call
    split
    · unfold State.enter
      dsimp only
      split
      · exact h
      · split
        · exact h
        · exact h
    · split
      · rename_i bound hbound
        exact h.ask hbound
      · exact h
  suffices hnatives : (s.execute p limits i).state.natives = s.natives by
    rw [hnatives]
    exact h
  by_cases hret : i.op = .ret
  · unfold State.execute
    rw [hret]
    exact untouched_natives.popping fun v t => natives_leave t v
  by_cases hstore : i.op = .store
  · unfold State.execute
    rw [hstore]
    exact untouched_natives.popping fun v t => natives_store t i.name v
  · exact untouched_natives.execute p limits s hcall hret hstore

theorem Served.step (h : Served c s.natives) (p : Program) (limits : Limits) :
    Served c (s.step p limits false).state.natives := by
  cases hi : s.instruction? with
  | none =>
      rw [step_of_instruction?_eq_none hi]
      split
      · exact h
      · rw [natives_leave]
        exact h
  | some i =>
      rw [step_of_instruction?_eq_some hi]
      split
      · exact h
      · obtain ⟨trace?, hrecorded⟩ := recorded_eq s.begin s.frame.ip.toNat i
        rw [hrecorded]
        have hbegin : Served c ({ s.begin with trace? := trace? } : State).natives := h
        exact hbegin.execute p limits i

theorem Served.proceed (h : Served c s.natives) (p : Program) (limits : Limits) (patience : Nat) :
    Served c (proceed p limits false patience s).2.natives := by
  induction patience generalizing s with
  | zero => exact h
  | succ patience ih =>
      have hstep := h.step p limits
      unfold Machine.proceed
      cases hs : s.step p limits false <;> rw [hs] at hstep
      case next s' => exact ih hstep
      all_goals exact hstep

end

end LineScript.Machine
