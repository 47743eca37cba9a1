/-
# Runs in another setting

A call works on its own part of the stack, on its own variables and on what is shared: the globals,
the heap, the output and the host functions. So a run goes on in the same way when everything else
is exchanged: the values that lie below, the calls that wait, the instructions around those that are
executed, what was written and counted before. This module says so once, as an equation: carrying out
an instruction and changing the setting can be done in either order.
-/

import LineScript.Proofs.Safety

namespace LineScript.Machine

open LineScript.Code

/-! ## Settings -/

/-- The world with something written before. -/
def World.behind (w : World) (before : String) : World := { w with output := before ++ w.output }

/-- A host function that takes no notice of what was written before. -/
def Native.Heedless (n : Native) (before : String) : Prop :=
  ∀ (calls : Nat) (args : List Value) (w : World),
    n.run calls args (w.behind before) = ((n.run calls args w).1, (n.run calls args w).2.behind before)

/-- Nothing was written before. -/
theorem Native.heedless_empty (n : Native) : n.Heedless "" := by
  have hbehind : ∀ w : World, w.behind "" = w := by
    intro w
    unfold World.behind
    rw [String.empty_append]
  intro calls args w
  rw [hbehind, hbehind]

/-- A change of the setting of a run. -/
structure Recasting where
  /-- The values at the bottom of the stack. -/
  low : List Value := []
  /-- The calls that wait at the bottom. -/
  outer : List Frame := []
  /-- What each function becomes. -/
  function : Function → Function := id
  /-- How far its addresses move. -/
  shift : Function → Int := fun _ => 0
  /-- What was written before. -/
  output : String := ""
  /-- How many instructions had begun before. -/
  steps : Nat := 0
  /-- What becomes of the record. -/
  trace : Option String → Option String := id

namespace Recasting

/-- The stack with other values at its bottom. -/
def stack (r : Recasting) (stack : Array Value) : Array Value :=
  (r.low ++ stack.toList.drop r.low.length).toArray

/-- A call in the new setting. -/
def frame (r : Recasting) (f : Frame) : Frame :=
  { f with function := r.function f.function, ip := f.ip + r.shift f.function }

/-- The calls, innermost first, with others at the bottom. -/
def frames (r : Recasting) (frames : List Frame) : List Frame :=
  (frames.take (frames.length - r.outer.length)).map r.frame ++ r.outer

/-- A state in the new setting. -/
def state (r : Recasting) (s : State) : State :=
  let frames := r.frames (s.frame :: s.callers)
  { s with
    stack := r.stack s.stack
    frame := frames.headD s.frame
    callers := frames.tail
    world := s.world.behind r.output
    steps := r.steps + s.steps
    trace? := r.trace s.trace? }

/-- A transition in the new setting. An error stands where the new state does. -/
def transition (r : Recasting) : Transition → Transition
  | .next s => .next (r.state s)
  | .finished v s => .finished v (r.state s)
  | .failed e s => .failed ((r.state s).error e.cause) (r.state s)
  | .breakdown detail s => .breakdown detail (r.state s)

/-- What is exchanged lies outside the running call. -/
structure Covers (r : Recasting) (s : State) : Prop where
  low : r.low.length ≤ s.frame.base
  base : s.frame.base ≤ s.stack.size
  outer : r.outer.length ≤ s.callers.length
  declares : s.frame.locals? ≠ none → ∀ name,
    (r.function s.frame.function).declares name = s.frame.function.declares name

/-- A name stands for what becomes of the function that it stood for. -/
structure Resolves (r : Recasting) (p p' : Program) (name : String) : Prop where
  found : (if name = topLevel then none else p'.functions.get? name) =
    (if name = topLevel then none else p.functions.get? name).map r.function
  begins : ∀ f, p.functions.get? name = some f → name ≠ topLevel →
    (r.function f).params = f.params ∧ r.shift f = 0

/-- The instruction that is carried out in the new setting instead of one of a function. -/
structure Moved (r : Recasting) (f : Function) (i i' : Instruction) : Prop where
  op : i'.op = i.op
  literal : i'.literal = i.literal
  name : i'.name = i.name
  target : i.op.isJump = true → i'.target = i.target + r.shift f

variable {r : Recasting}

/-! ## Stacks -/

section

variable {stack : Array Value}

theorem toList_stack (r : Recasting) (stack : Array Value) :
    (r.stack stack).toList = r.low ++ stack.toList.drop r.low.length := rfl

theorem size_stack (h : r.low.length ≤ stack.size) : (r.stack stack).size = stack.size := by
  rw [← Array.length_toList, toList_stack, List.length_append, List.length_drop, Array.length_toList]
  omega

theorem stack_push (h : r.low.length ≤ stack.size) (v : Value) :
    r.stack (stack.push v) = (r.stack stack).push v := by
  apply Array.toList_inj.mp
  rw [Array.toList_push, toList_stack, toList_stack, Array.toList_push,
    List.drop_append_of_le_length (by simpa using h), List.append_assoc]

theorem stack_shrink (size : Nat) (h : r.low.length ≤ size) :
    r.stack (stack.shrink size) = (r.stack stack).shrink size := by
  apply Array.toList_inj.mp
  rw [Array.toList_shrink, toList_stack, toList_stack, Array.toList_shrink, List.take_append,
    List.take_of_length_le h, List.drop_take]

theorem stack_pop (h : r.low.length < stack.size) : r.stack stack.pop = (r.stack stack).pop := by
  have hpop : ∀ a : Array Value, a.pop = a.shrink (a.size - 1) := by
    intro a
    apply Array.toList_inj.mp
    rw [Array.toList_pop, Array.toList_shrink, List.dropLast_eq_take, Array.length_toList]
  rw [hpop, hpop, size_stack (by omega), stack_shrink _ (by omega)]

theorem back?_stack (h : r.low.length < stack.size) : (r.stack stack).back? = stack.back? := by
  rw [← Array.getLast?_toList, ← Array.getLast?_toList, toList_stack, List.getLast?_append,
    List.getLast?_drop, if_neg (by rw [Array.length_toList]; omega)]
  cases hlast : stack.toList.getLast? with
  | some v => rfl
  | none =>
      have hnil : stack.toList.length = 0 := by rw [List.getLast?_eq_none_iff.mp hlast]; rfl
      rw [Array.length_toList] at hnil
      omega

theorem extract_stack {start : Nat} (h : r.low.length ≤ start) (hstart : start ≤ stack.size) :
    (r.stack stack).extract start (r.stack stack).size = stack.extract start stack.size := by
  apply Array.toList_inj.mp
  rw [Array.toList_extract, Array.toList_extract, List.extract_eq_take_drop,
    List.extract_eq_take_drop, size_stack (by omega), toList_stack, List.drop_append,
    List.drop_of_length_le h, List.nil_append, List.drop_drop]
  congr 2
  omega

end

/-! ## Calls -/

theorem frames_cons {f : Frame} {callers : List Frame} (h : r.outer.length ≤ callers.length) :
    r.frames (f :: callers) = r.frame f :: r.frames callers := by
  unfold frames
  rw [List.length_cons, Nat.sub_add_comm h, List.take_succ_cons, List.map_cons, List.cons_append]

theorem frame_begin {f : Function} (hshift : r.shift f = 0) (base : Nat)
    (locals? : Option (Dict Value)) :
    r.frame { function := f, base := base, locals? := locals? } =
      { function := r.function f, base := base, locals? := locals? } := by
  unfold frame
  dsimp only
  rw [hshift, Int.add_zero]

theorem length_frames {callers : List Frame} (h : r.outer.length ≤ callers.length) :
    (r.frames callers).length = callers.length := by
  unfold frames
  rw [List.length_append, List.length_map, List.length_take]
  omega

/-- When all waiting calls are exchanged, only the others are left. -/
theorem frames_of_length_le {callers : List Frame} (h : callers.length ≤ r.outer.length) :
    r.frames callers = r.outer := by
  unfold frames
  rw [Nat.sub_eq_zero_of_le h, List.take_zero, List.map_nil, List.nil_append]

theorem state_eq {s : State} (h : r.outer.length ≤ s.callers.length) :
    r.state s = { s with
      stack := r.stack s.stack
      frame := r.frame s.frame
      callers := r.frames s.callers
      world := s.world.behind r.output
      steps := r.steps + s.steps
      trace? := r.trace s.trace? } := by
  unfold state
  rw [frames_cons h]
  rfl

/-! ## What instructions are made of -/

theorem transition_fail (r : Recasting) (s : State) (cause : Cause) :
    r.transition (s.fail cause) = (r.state s).fail cause := rfl

namespace Covers

variable {s : State}

theorem low_le (h : r.Covers s) : r.low.length ≤ s.stack.size := Nat.le_trans h.low h.base

theorem frame_eq (h : r.Covers s) : (r.state s).frame = r.frame s.frame := by
  rw [state_eq h.outer]

theorem size_eq (h : r.Covers s) : (r.state s).stack.size = s.stack.size := size_stack h.low_le

theorem push (h : r.Covers s) (v : Value) : (r.state s).push v = r.state (s.push v) := by
  have houter : r.outer.length ≤ (s.push v).callers.length := h.outer
  rw [state_eq h.outer, state_eq houter]
  unfold State.push
  dsimp only
  rw [stack_push h.low_le]

theorem mapHeap (h : r.Covers s) (f : Heap → Heap) :
    (r.state s).mapHeap f = r.state (s.mapHeap f) := by
  have houter : r.outer.length ≤ (s.mapHeap f).callers.length := h.outer
  rw [state_eq h.outer, state_eq houter]
  rfl

theorem pushNew (h : r.Covers s) (make : Heap → Value × Heap) :
    (r.state s).pushNew make = r.state (s.pushNew make) := by
  have houter : r.outer.length ≤ (s.pushNew make).callers.length := h.outer
  rw [state_eq h.outer, state_eq houter]
  unfold State.pushNew World.behind
  dsimp only
  rw [stack_push h.low_le]

theorem load_eq (h : r.Covers s) (name : String) : (r.state s).load name = s.load name := by
  rw [state_eq h.outer]
  unfold State.load State.locals frame
  dsimp only
  cases hlocals : s.frame.locals? with
  | none => simp
  | some locals => rw [h.declares (by rw [hlocals]; nofun)]

theorem store (h : r.Covers s) (name : String) (v : Value) :
    (r.state s).store name v = r.state (s.store name v) := by
  have houter : r.outer.length ≤ (s.store name v).callers.length := by
    unfold State.store
    split <;> exact h.outer
  rw [state_eq h.outer, state_eq houter]
  have hdeclares := h.declares
  obtain ⟨stack, ⟨function, ip, base, locals?⟩, callers, globals, world, natives, steps, trace?⟩ := s
  unfold State.store frame
  dsimp only at hdeclares ⊢
  cases locals? with
  | none => simp
  | some locals =>
      rw [hdeclares nofun]
      cases function.declares name <;> simp

theorem jump (h : r.Covers s) {target target' : Int}
    (htarget : target' = target + r.shift s.frame.function) :
    (r.state s).jump target' = r.state (s.jump target) := by
  have houter : r.outer.length ≤ (s.jump target).callers.length := h.outer
  rw [state_eq h.outer, state_eq houter, htarget]
  rfl

theorem hasTop_eq (h : r.Covers s) : (r.state s).hasTop = s.hasTop := by
  unfold State.hasTop
  rw [h.size_eq, h.frame_eq]
  rfl

theorem top_eq (h : r.Covers s) (htop : s.hasTop = true) : (r.state s).top = s.top := by
  have hlt : s.frame.base < s.stack.size := of_decide_eq_true htop
  unfold State.top
  rw [show (r.state s).stack = r.stack s.stack from rfl,
    back?_stack (Nat.lt_of_le_of_lt h.low hlt)]

theorem drop_eq (h : r.Covers s) (htop : s.hasTop = true) :
    (r.state s).drop = r.state s.drop := by
  have hlt : s.frame.base < s.stack.size := of_decide_eq_true htop
  have houter : r.outer.length ≤ s.drop.callers.length := h.outer
  rw [state_eq h.outer, state_eq houter]
  unfold State.drop
  dsimp only
  rw [stack_pop (Nat.lt_of_le_of_lt h.low hlt)]

theorem drop (h : r.Covers s) (htop : s.hasTop = true) : r.Covers s.drop := by
  have hlt : s.frame.base < s.stack.size := of_decide_eq_true htop
  refine ⟨h.low, ?_, h.outer, h.declares⟩
  have hsize : s.drop.stack.size = s.stack.size - 1 := Array.size_pop
  rw [hsize]
  exact Nat.le_sub_one_of_lt hlt

theorem withTop (h : r.Covers s) {k k' : Value → State → Transition}
    (hk : ∀ v, k' v (r.state s) = r.transition (k v s)) :
    (r.state s).withTop k' = r.transition (s.withTop k) := by
  unfold State.withTop
  rw [h.hasTop_eq]
  split
  · rename_i htop
    rw [h.top_eq htop, hk]
  · rfl

theorem popping (h : r.Covers s) {k k' : Value → State → Transition}
    (hk : ∀ v, r.Covers s.drop → k' v (r.state s.drop) = r.transition (k v s.drop)) :
    (r.state s).popping k' = r.transition (s.popping k) := by
  unfold State.popping
  rw [h.hasTop_eq]
  split
  · rename_i htop
    dsimp only
    rw [h.top_eq htop, h.drop_eq htop, hk _ (h.drop htop)]
  · rfl

theorem popping2 (h : r.Covers s) {k k' : Value → Value → State → Transition}
    (hk : ∀ a b, r.Covers s.drop.drop →
      k' a b (r.state s.drop.drop) = r.transition (k a b s.drop.drop)) :
    (r.state s).popping2 k' = r.transition (s.popping2 k) := by
  unfold State.popping2
  exact h.popping fun b h => h.popping fun a h => hk a b h

theorem pushing (h : r.Covers s) (result : Except Cause Value) :
    (r.state s).pushing result = r.transition (s.pushing result) := by
  cases result with
  | ok v => exact congrArg Transition.next (h.push v)
  | error cause => rfl

/-! ## Calls and returns -/

/-- A call hands its value to the call that waits, whichever it is. -/
theorem leave (h : r.Covers s) (v : Value) :
    (r.state s).leave v = r.transition (s.leave v) := by
  rw [state_eq h.outer]
  obtain ⟨stack, frame, callers, globals, world, natives, steps, trace?⟩ := s
  have hlow : r.low.length ≤ frame.base := h.low
  have houter : r.outer.length ≤ callers.length := h.outer
  cases callers with
  | nil =>
      have hframes : r.frames [] = [] := by
        rw [frames_of_length_le (Nat.zero_le _)]
        exact List.length_eq_zero_iff.mp (Nat.le_zero.mp houter)
      unfold State.leave transition
      dsimp only
      rw [hframes, state_eq houter]
      dsimp only
      rw [hframes, stack_shrink _ hlow]
      rfl
  | cons caller callers =>
      -- Some call waits in the new setting too.
      obtain ⟨caller', callers', hframes⟩ : ∃ caller' callers',
          r.frames (caller :: callers) = caller' :: callers' := by
        apply List.exists_cons_of_ne_nil
        rw [← List.length_pos_iff, length_frames houter]
        exact Nat.zero_lt_succ _
      have hsize : r.low.length ≤ (stack.shrink frame.base).size := by
        rw [Array.size_shrink]
        exact Nat.le_min.mpr ⟨hlow, h.low_le⟩
      unfold State.leave transition state
      dsimp only
      rw [hframes, stack_push hsize, stack_shrink _ hlow]
      rfl

/-- A function begins in the same way, whoever calls it. -/
theorem enter (h : r.Covers s) (limits : Limits) (name : String) {f : Function}
    (hparams : (r.function f).params = f.params) (hshift : r.shift f = 0) :
    (r.state s).enter limits name (r.function f) = r.transition (s.enter limits name f) := by
  have harity : (r.function f).arity = f.arity := congrArg List.length hparams
  have hdepth : (r.state s).depth = s.depth := by
    rw [state_eq h.outer]
    unfold State.depth
    rw [length_frames h.outer]
  have hbase : (r.state s).frame.base = s.frame.base := by rw [h.frame_eq]; rfl
  unfold State.enter
  dsimp only
  rw [harity, hdepth, hbase, h.size_eq]
  split
  · rfl
  · rename_i hsize
    split
    · rfl
    · have hle : r.low.length ≤ s.stack.size - f.arity := by
        have := h.low
        omega
      have hlocals : ((r.state s).stack.extract (s.stack.size - f.arity) s.stack.size).toList =
          (s.stack.extract (s.stack.size - f.arity) s.stack.size).toList := by
        rw [← extract_stack hle (Nat.sub_le _ _), size_stack h.low_le]
        rfl
      rw [hlocals, hparams]
      unfold transition
      dsimp only
      rw [state_eq h.outer, state_eq (Nat.le_succ_of_le h.outer)]
      dsimp only
      rw [frames_cons h.outer, stack_shrink _ hle, frame_begin hshift]

/-- A host function answers in the same way. -/
theorem answer (hsize : r.low.length ≤ s.stack.size) (houter : r.outer.length ≤ s.callers.length)
    (name : String) {bound : Bound} (hheedless : bound.native.Heedless r.output) (args : List Value) :
    (r.state s).answer name bound args = r.transition (s.answer name bound args) := by
  rw [state_eq houter]
  obtain ⟨stack, frame, callers, globals, world, natives, steps, trace?⟩ := s
  unfold State.answer
  dsimp only at hsize houter ⊢
  rw [hheedless]
  obtain ⟨reply, world'⟩ := bound.native.run (bound.calls + 1) args world
  cases reply with
  | value v =>
      unfold transition
      dsimp only
      rw [state_eq houter]
      dsimp only
      rw [stack_push hsize]
  | failure detail =>
      dsimp only
      rw [transition_fail, state_eq houter]
  | breakdown detail =>
      unfold transition
      dsimp only
      rw [state_eq houter]

theorem ask (h : r.Covers s) (name : String) {bound : Bound}
    (hheedless : bound.native.Heedless r.output) :
    (r.state s).ask name bound = r.transition (s.ask name bound) := by
  have hbase : (r.state s).frame.base = s.frame.base := by rw [h.frame_eq]; rfl
  unfold State.ask
  dsimp only
  rw [hbase, h.size_eq]
  split
  · rfl
  · split
    · rfl
    · rename_i hsize harity
      have hle : r.low.length ≤ s.stack.size - bound.arity.toNat := by
        have := h.low
        omega
      have hargs : ((r.state s).stack.extract (s.stack.size - bound.arity.toNat) s.stack.size).toList =
          (s.stack.extract (s.stack.size - bound.arity.toNat) s.stack.size).toList := by
        rw [← extract_stack hle (Nat.sub_le _ _), size_stack h.low_le]
        rfl
      have hshrink : { r.state s with stack := (r.state s).stack.shrink (s.stack.size - bound.arity.toNat) } =
          r.state { s with stack := s.stack.shrink (s.stack.size - bound.arity.toNat) } := by
        unfold state
        dsimp only
        rw [stack_shrink _ hle]
      rw [hargs, hshrink]
      refine answer (s := { s with stack := s.stack.shrink _ }) ?_ h.outer name hheedless _
      change _ ≤ (s.stack.shrink _).size
      rw [Array.size_shrink]
      omega

theorem call (h : r.Covers s) {p p' : Program} (limits : Limits) {name : String}
    (hname : r.Resolves p p' name)
    (hheedless : ∀ bound, s.natives.get? name = some bound → bound.native.Heedless r.output) :
    (r.state s).call p' limits name = r.transition (s.call p limits name) := by
  unfold State.call
  rw [hname.found]
  cases hf : (if name = topLevel then none else p.functions.get? name) with
  | some f =>
      obtain ⟨hne, hget⟩ : name ≠ topLevel ∧ p.functions.get? name = some f := by
        split at hf
        · cases hf
        · rename_i hne
          exact ⟨hne, hf⟩
      obtain ⟨hparams, hshift⟩ := hname.begins f hget hne
      exact h.enter limits name hparams hshift
  | none =>
      have hnatives : (r.state s).natives = s.natives := rfl
      dsimp only [Option.map_none]
      rw [hnatives]
      cases hbound : s.natives.get? name with
      | some bound => exact h.ask name (hheedless bound hbound)
      | none => rfl

/-! ## All instructions -/

/-- Carrying out an instruction and changing the setting can be done in either order. -/
theorem execute (h : r.Covers s) {p p' : Program} (limits : Limits) {i i' : Instruction}
    (hi : r.Moved s.frame.function i i') (hcall : i.op = .call → r.Resolves p p' i.name)
    (hheedless : ∀ name bound, s.natives.get? name = some bound →
      bound.native.Heedless r.output) :
    (r.state s).execute p' limits i' = r.transition (s.execute p limits i) := by
  obtain ⟨op, literal, name, target, line⟩ := i
  obtain ⟨op', literal', name', target', line'⟩ := i'
  obtain ⟨rfl, rfl, rfl, htarget⟩ := hi
  dsimp only at hcall htarget
  have hjump : ∀ {t : State}, r.Covers t → t.frame.function = s.frame.function → op'.isJump = true →
      (r.state t).jump target' = r.state (t.jump target) := by
    intro t ht hfunction hop
    exact ht.jump (by rw [hfunction]; exact htarget hop)
  unfold State.execute
  cases op' <;> dsimp only
  case unassigned => rfl
  case call => exact h.call limits (hcall rfl) (hheedless _)
  case ret => exact h.popping fun v h => h.leave v
  case value => exact congrArg Transition.next (h.push _)
  case load =>
    rw [h.load_eq]
    exact congrArg Transition.next (h.push _)
  case list | object => exact congrArg Transition.next (h.pushNew _)
  case pop => exact h.popping fun _ _ => rfl
  case store => exact h.popping fun v h => congrArg Transition.next (h.store _ v)
  case append | set =>
    refine h.popping fun v h => h.withTop fun c => ?_
    split
    · exact congrArg Transition.next (h.mapHeap _)
    · rfl
  case get =>
    refine h.popping fun c h => ?_
    split
    · exact congrArg Transition.next (h.push _)
    · rfl
  case negate =>
    refine h.popping fun c h => ?_
    split
    · exact congrArg Transition.next (h.push _)
    · rfl
  case not => exact h.popping fun v h => congrArg Transition.next (h.push _)
  case index => exact h.popping2 fun c j h => h.pushing _
  case put =>
    refine h.popping fun v h => h.popping2 fun c j h => ?_
    have hheap : ∀ t : State, (r.state t).heap = t.heap := fun _ => rfl
    rw [hheap]
    split
    · exact congrArg Transition.next (h.mapHeap _)
    · rfl
  case jump => exact congrArg Transition.next (hjump h rfl rfl)
  case branch =>
    refine h.popping fun v h => ?_
    split
    · rfl
    · exact congrArg Transition.next (hjump h rfl rfl)
  case skipAnd | skipOr =>
    refine h.withTop fun v => ?_
    split
    · first | rfl | exact congrArg Transition.next (hjump h rfl rfl)
    · first | rfl | exact congrArg Transition.next (hjump h rfl rfl)
  case and | or | equal | notEqual =>
    exact h.popping2 fun a b h => congrArg Transition.next (h.push _)
  case add | subtract | multiply | divide | less | lessOrEqual | greater | greaterOrEqual =>
    exact h.popping2 fun a b h => h.pushing _

theorem begin_eq (h : r.Covers s) : (r.state s).begin = r.state s.begin := by
  have houter : r.outer.length ≤ s.begin.callers.length := h.outer
  rw [state_eq h.outer, state_eq houter]
  unfold State.begin frame
  dsimp only
  rw [Int.add_right_comm]
  rfl

theorem begin (h : r.Covers s) : r.Covers s.begin := ⟨h.low, h.base, h.outer, h.declares⟩

theorem recorded (h : r.Covers s) (address : Nat) (i : Instruction) :
    r.Covers (s.recorded address i) := by
  obtain ⟨trace?, hrecorded⟩ := recorded_eq s address i
  rw [hrecorded]
  exact ⟨h.low, h.base, h.outer, h.declares⟩

end Covers

end Recasting

end LineScript.Machine
