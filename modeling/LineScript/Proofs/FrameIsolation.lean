/-
# Calls are kept apart

Any program can be run, also one that no compiler made and no check has passed: it may take more
values than there are, return with values left over, jump anywhere and call itself without end. Still
no call gets at another. The parts of the stack lie on each other, and from its beginning to its end a
call, with all that it calls, neither changes nor looks at what lies below its part, nor at the
variables of the calls that wait. When it returns, its caller goes on behind the call with the stack
it had, the arguments replaced by the value.

A step stays in the running call, enters a function or goes back to the call that waits; that is said
once. That nothing below is looked at means that everything below can be exchanged, and that nothing
there is changed follows: exchange it for itself.
-/

import LineScript.Proofs.Recasting

namespace LineScript.Machine

open LineScript.Code

/-! ## What a step does to the calls -/

/-- A step within the running call. -/
structure Remains (s s' : State) : Prop where
  callers : s'.callers = s.callers
  function : s'.frame.function = s.frame.function
  base : s'.frame.base = s.frame.base
  size : s.frame.base ≤ s.stack.size → s.frame.base ≤ s'.stack.size

/-- A step into a function of the program: its arguments leave the stack, and the call that made it
waits behind the instruction. -/
structure Enters (p : Program) (f : Function) (args : List Value) (s s' : State) : Prop where
  function : ∃ name, name ≠ topLevel ∧ p.functions.get? name = some f
  stack : s.stack.toList = s'.stack.toList ++ args
  arity : args.length = f.arity
  above : s.frame.base ≤ s'.stack.size
  frame : s'.frame =
    { function := f, base := s'.stack.size, locals? := some (State.arguments f.params args) }
  callers : s'.callers = { s.frame with ip := s.frame.ip + 1 } :: s.callers

/-- A step back to the call that waits, which gets a value in place of the other's part of the
stack. -/
structure Returns (v : Value) (s s' : State) : Prop where
  callers : s.callers = s'.frame :: s'.callers
  stack : s'.stack.toList = s.stack.toList.take s.frame.base ++ [v]

theorem returns_of_leave {s s' : State} {v : Value} (h : s.leave v = .next s') : Returns v s s' := by
  obtain ⟨stack, frame, callers, globals, world, natives, steps, trace?⟩ := s
  cases callers with
  | nil => cases h
  | cons caller callers =>
      cases h
      refine ⟨rfl, ?_⟩
      rw [Array.toList_push, Array.toList_shrink]

/-- A function takes its arguments from the top of the stack. -/
theorem enters_of_enter {p : Program} {s t s' : State} {limits : Limits} {name : String} {f : Function}
    (hname : name ≠ topLevel) (hf : p.functions.get? name = some f)
    (hframe : t.frame = { s.frame with ip := s.frame.ip + 1 }) (hcallers : t.callers = s.callers)
    (hstack : t.stack = s.stack) (h : t.enter limits name f = .next s') :
    ∃ args, Enters p f args s s' := by
  unfold State.enter at h
  dsimp only at h
  split at h
  · cases h
  · rename_i hsize
    split at h
    · cases h
    · rw [hstack, hframe] at hsize
      dsimp only at hsize
      have hcut : (s.stack.shrink (s.stack.size - f.arity)).size = s.stack.size - f.arity := by
        rw [Array.size_shrink]
        omega
      cases h
      rw [hstack, hframe, hcallers]
      refine ⟨(s.stack.extract (s.stack.size - f.arity) s.stack.size).toList, ⟨name, hname, hf⟩, ?_, ?_,
        ?_, ?_, rfl⟩
      · have hargs : (s.stack.extract (s.stack.size - f.arity) s.stack.size).toList =
            s.stack.toList.drop (s.stack.size - f.arity) := by
          rw [Array.toList_extract, List.extract_eq_take_drop]
          exact List.take_of_length_le (by simp)
        dsimp only
        rw [hargs, Array.toList_shrink, List.take_append_drop]
      · rw [Array.length_toList, Array.size_extract]
        omega
      · dsimp only
        omega
      · dsimp only
        rw [hcut]

/-- A host function that comes back takes its arguments from the part of the running call and leaves
its value there, and this call of it is counted. -/
theorem ask_eq_next {s s' : State} {name : String} {bound : Bound}
    (h : s.ask name bound = .next s') :
    ∃ base v world, s.frame.base ≤ base ∧ base + bound.arity = s.stack.size ∧
      bound.native.run (bound.calls + 1) (s.stack.extract base s.stack.size).toList s.world
        = (.value v, world) ∧
      s' = { s with
        stack := (s.stack.shrink base).push v
        world := world
        natives := s.natives.insert name { bound with calls := bound.calls + 1 } } := by
  unfold State.ask at h
  split at h
  · cases h
  · split at h
    · cases h
    · rename_i hsize harity
      obtain ⟨stack, frame, callers, globals, world, natives, steps, trace?⟩ := s
      unfold State.answer at h
      dsimp only at h hsize ⊢
      split at h
      · rename_i v world' hrun
        cases h
        exact ⟨_, v, world', by omega, by omega, hrun, rfl⟩
      · cases h
      · cases h

/-- A host function leaves its answer on the stack of the running call. -/
theorem remains_of_ask {s s' : State} {name : String} {bound : Bound}
    (h : s.ask name bound = .next s') : Remains s s' := by
  obtain ⟨base, v, world, hbase, hsize, -, rfl⟩ := ask_eq_next h
  refine ⟨rfl, rfl, rfl, fun _ => ?_⟩
  dsimp only
  rw [Array.size_push, Array.size_shrink]
  omega

/-- Carrying out an instruction. -/
theorem execute_cases {p : Program} {limits : Limits} {s t s' : State} {i : Instruction}
    (hframe : t.frame = { s.frame with ip := s.frame.ip + 1 }) (hcallers : t.callers = s.callers)
    (hstack : t.stack = s.stack) (h : t.execute p limits i = .next s') :
    Remains s s' ∨ (∃ f args, Enters p f args s s') ∨ ∃ v, Returns v s s' := by
  have hbegun : ∀ {u : State}, Remains t u → Remains s u := by
    rintro u ⟨hc, hf, hb, hs⟩
    rw [hframe] at hf hb hs
    rw [hstack] at hs
    exact ⟨hc.trans hcallers, hf, hb, hs⟩
  by_cases hassigned : i.op.isAssigned = true
  · by_cases hcall : i.op = .call
    · unfold State.execute at h
      rw [hcall] at h
      unfold State.call at h
      dsimp only at h
      split at h
      · rename_i f hf
        split at hf
        · cases hf
        · rename_i hname
          exact .inr (.inl ⟨f, enters_of_enter hname hf hframe hcallers hstack h⟩)
      · split at h
        · exact .inl (hbegun (remains_of_ask h))
        · cases h
    · by_cases hret : i.op = .ret
      · unfold State.execute State.popping at h
        rw [hret] at h
        dsimp only at h
        split at h
        · rename_i htop
          have hlt : t.frame.base < t.stack.size := of_decide_eq_true htop
          rw [hframe, hstack] at hlt
          dsimp only at hlt
          obtain ⟨hwaiting, hleft⟩ := returns_of_leave h
          refine .inr (.inr ⟨t.top, hcallers.symm.trans hwaiting, hleft.trans ?_⟩)
          have hdrop : t.drop.stack.toList = s.stack.toList.dropLast := by
            rw [← hstack]
            exact Array.toList_pop
          rw [hdrop, show t.drop.frame.base = s.frame.base by rw [show t.drop.frame = t.frame from rfl, hframe],
            List.dropLast_eq_take, List.take_take, Array.length_toList, Nat.min_eq_left (by omega)]
        · cases h
      · have hstays := execute_stays (s := t) p limits hassigned hcall hret
        rw [h] at hstays
        obtain ⟨hfunction, hbase, -, hwaiting, -, hsize⟩ := hstays
        exact .inl (hbegun ⟨hwaiting, hfunction, hbase, fun hle => hbase ▸ hsize hle⟩)
  · obtain ⟨op, literal, name, target, line⟩ := i
    cases op <;> first | exact absurd rfl hassigned | cases h

/-- A step stays in the running call, enters a function or goes back to the call that waits. -/
theorem step_cases {p : Program} {limits : Limits} {cancelled : Bool} {s s' : State}
    (h : s.step p limits cancelled = .next s') :
    Remains s s' ∨ (∃ f args, Enters p f args s s') ∨ ∃ v, Returns v s s' := by
  unfold State.step at h
  split at h
  · cases h
  · dsimp only at h
    split at h
    · exact .inr (.inr ⟨.null, returns_of_leave h⟩)
    · rename_i i _
      split at h
      · cases h
      · split at h
        · cases h
        · obtain ⟨trace?, hrecorded⟩ := recorded_eq s.begin s.frame.ip.toNat i
          rw [hrecorded] at h
          exact execute_cases (t := { s.begin with trace? := trace? }) rfl rfl rfl h

/-! ## The calls lie on each other -/

/-- Where the parts of the active calls begin, innermost first. -/
def State.bases (s : State) : List Nat := (s.frame :: s.callers).map Frame.base

theorem Remains.bases_eq {s s' : State} (h : Remains s s') : s'.bases = s.bases := by
  unfold State.bases
  rw [List.map_cons, List.map_cons, h.callers, h.base]

theorem Enters.size {p : Program} {f : Function} {args : List Value} {s s' : State}
    (h : Enters p f args s s') : s'.frame.base = s'.stack.size := by
  rw [h.frame]

theorem Enters.bases_eq {p : Program} {f : Function} {args : List Value} {s s' : State}
    (h : Enters p f args s s') : s'.bases = s'.stack.size :: s.bases := by
  unfold State.bases
  rw [h.frame, h.callers]
  rfl

theorem Returns.bases_eq {v : Value} {s s' : State} (h : Returns v s s') :
    s.bases = s.frame.base :: s'.bases := by
  unfold State.bases
  rw [h.callers]
  rfl

/-- The parts of the stack: the running call's is on top, a caller's begins no higher than that of the
function it called, and the lowest begins at the bottom. -/
structure Layered (s : State) : Prop where
  top : s.frame.base ≤ s.stack.size
  rising : s.bases.Pairwise (fun callee caller => caller ≤ callee)
  bottom : s.bases.getLast? = some 0

namespace Layered

variable {p : Program} {limits : Limits} {s s' : State}

theorem le_top (h : Layered s) {base : Nat} (hbase : base ∈ s.bases) : base ≤ s.frame.base := by
  obtain ⟨hbelow, -⟩ := List.pairwise_cons.mp h.rising
  cases hbase with
  | head => exact Nat.le_refl _
  | tail _ hmem => exact hbelow base hmem

theorem remains (h : Layered s) (hstep : Remains s s') : Layered s' := by
  have hbases := hstep.bases_eq
  refine ⟨?_, hbases ▸ h.rising, hbases ▸ h.bottom⟩
  rw [hstep.base]
  exact hstep.size h.top

theorem enters {f : Function} {args : List Value} (h : Layered s) (hstep : Enters p f args s s') :
    Layered s' := by
  refine ⟨Nat.le_of_eq hstep.size, ?_, ?_⟩
  · rw [hstep.bases_eq]
    exact .cons (fun _ hbase => Nat.le_trans (h.le_top hbase) hstep.above) h.rising
  · rw [hstep.bases_eq]
    exact h.bottom

theorem returns {v : Value} (h : Layered s) (hstep : Returns v s s') : Layered s' := by
  have hle : s'.frame.base ≤ s.frame.base :=
    h.le_top (by rw [hstep.bases_eq]; exact .tail _ (.head _))
  have hsize : s'.stack.size = s.frame.base + 1 := by
    rw [← Array.length_toList, hstep.stack, List.length_append, List.length_take, Array.length_toList,
      Nat.min_eq_left h.top]
    rfl
  have hrising := h.rising
  have hbottom := h.bottom
  rw [hstep.bases_eq] at hrising hbottom
  exact ⟨by omega, (List.pairwise_cons.mp hrising).2, hbottom⟩

theorem step {cancelled : Bool} (h : Layered s) (hstep : s.step p limits cancelled = .next s') :
    Layered s' := by
  obtain hremains | ⟨f, args, henters⟩ | ⟨v, hreturns⟩ := step_cases hstep
  · exact h.remains hremains
  · exact h.enters henters
  · exact h.returns hreturns

theorem reachable {first : State} (hfirst : Layered first) (h : Reachable p limits first s) :
    Layered s := by
  induction h with
  | first => exact hfirst
  | next cancelled _ hstep ih => exact ih.step hstep

theorem start (m : Machine) (main : Function) : Layered (m.start main) :=
  ⟨Nat.zero_le _, List.pairwise_singleton _ _, rfl⟩

end Layered

/-! ## What lies below is not looked at -/

/-- A change of nothing but what lies below a call: the values and the calls that wait. -/
def Recasting.below (low : List Value) (outer : List Frame) : Recasting := { low, outer }

section

variable {low : List Value} {outer : List Frame} {s : State}

theorem Recasting.frame_below (f : Frame) : (below low outer).frame f = f := by
  obtain ⟨function, ip, base, locals?⟩ := f
  unfold below frame
  dsimp only [id]
  rw [Int.add_zero]

theorem Recasting.frames_below (frames : List Frame) :
    (below low outer).frames frames = frames.take (frames.length - outer.length) ++ outer := by
  unfold Recasting.frames
  rw [List.map_congr_left (fun f _ => frame_below f), List.map_id']
  rfl

theorem Recasting.state_below (s : State) : (below low outer).state s = { s with
    stack := (low ++ s.stack.toList.drop low.length).toArray
    frame := ((below low outer).frames (s.frame :: s.callers)).headD s.frame
    callers := ((below low outer).frames (s.frame :: s.callers)).tail } := by
  have hworld : s.world.behind (below low outer).output = s.world := by
    unfold World.behind
    rw [show (below low outer).output = "" from rfl, String.empty_append]
  have hsteps : (below low outer).steps + s.steps = s.steps := Nat.zero_add _
  unfold Recasting.state
  dsimp only
  rw [hworld, hsteps]
  rfl

theorem Recasting.Covers.recorded_below (h : (below low outer).Covers s) (address : Nat)
    (i : Instruction) : ((below low outer).state s).recorded address i =
      (below low outer).state (s.recorded address i) := by
  have hline : ((below low outer).state s).traceLine address i = s.traceLine address i := by
    unfold State.traceLine
    rw [h.size_eq, h.frame_eq, frame_below]
  have htrace : ((below low outer).state s).trace? = s.trace? := rfl
  unfold State.recorded
  rw [htrace, hline]
  cases s.trace? with
  | none => rfl
  | some trace => rfl

/-- A step of a call takes no notice of what lies below. -/
theorem Recasting.Covers.step_below (h : (below low outer).Covers s) (p : Program)
    (limits : Limits) (cancelled : Bool) :
    ((below low outer).state s).step p limits cancelled =
      (below low outer).transition (s.step p limits cancelled) := by
  have hframe : ((below low outer).state s).frame = s.frame := by rw [h.frame_eq, frame_below]
  unfold State.step
  rw [hframe]
  split
  · rfl
  · dsimp only
    cases hi : s.frame.function.code[s.frame.ip.toNat]? with
    | none => exact h.leave .null
    | some i =>
        have hsteps : ((below low outer).state s).begin.steps = s.begin.steps := by
          rw [h.begin_eq]
          exact Nat.zero_add _
        dsimp only
        rw [hsteps, h.begin_eq]
        split
        · rfl
        · split
          · rfl
          · rw [h.begin.recorded_below]
            refine (h.begin.recorded _ i).execute limits ⟨rfl, rfl, rfl, fun _ => (Int.add_zero _).symm⟩
              (fun _ => ⟨?_, fun _ _ _ => ⟨rfl, rfl⟩⟩) fun _ bound _ => bound.native.heedless_empty
            exact Option.map_id'.symm

end

/-! ## From the beginning of a call to its end -/

/-- The states of a run from one state on, as long as the call that runs there has not returned. -/
inductive Inside (p : Program) (limits : Limits) (first : State) : State → Prop
  | first : Inside p limits first first
  | next {t u : State} (cancelled : Bool) (h : Inside p limits first t)
      (hstep : t.step p limits cancelled = .next u)
      (hactive : first.callers.length ≤ u.callers.length) : Inside p limits first u

/-- A state of a call, or of one that it made, in which all that lay below the call at its beginning
is there as it was: the values, and the calls that wait with their variables. -/
structure Within (first t : State) : Prop where
  layered : Layered t
  bases : first.bases <:+ t.bases
  fixed : (Recasting.below first.stack.toList first.callers).state t = t

namespace Within

variable {p : Program} {limits : Limits} {cancelled : Bool} {first t u : State}

/-- The calls that are exchanged for themselves are there. -/
theorem suffix_of_fixed {low : List Value} {outer : List Frame}
    (h : (Recasting.below low outer).state t = t) : outer <:+ t.frame :: t.callers := by
  have hframes : (Recasting.below low outer).frames (t.frame :: t.callers) ≠ [] := by
    rw [Recasting.frames_below, ← List.length_pos_iff, List.length_append, List.length_take,
      List.length_cons]
    omega
  obtain ⟨caller, callers, hcons⟩ := List.exists_cons_of_ne_nil hframes
  rw [Recasting.state_below, hcons] at h
  have hframe : caller = t.frame := congrArg State.frame h
  have hcallers : callers = t.callers := congrArg State.callers h
  rw [← hframe, ← hcallers, ← hcons, Recasting.frames_below]
  exact List.suffix_append _ _

theorem start (hlayered : Layered first) : Within first first := by
  refine ⟨hlayered, List.suffix_rfl, ?_⟩
  rw [Recasting.state_below, Recasting.frames_below, List.drop_of_length_le (Nat.le_refl _),
    List.append_nil, List.length_cons, Nat.add_sub_cancel_left]
  rfl

theorem covers (h : Within first t) (hsize : first.frame.base = first.stack.size)
    {low : List Value} {outer : List Frame} (hlow : low.length = first.stack.size)
    (houter : outer.length = first.callers.length) : (Recasting.below low outer).Covers t := by
  refine ⟨?_, h.layered.top, ?_, fun _ _ => rfl⟩
  · change low.length ≤ _
    rw [hlow, ← hsize]
    exact h.layered.le_top (h.bases.subset (.head _))
  · change outer.length ≤ _
    have hlength := h.bases.length_le
    unfold State.bases at hlength
    rw [List.length_map, List.length_map] at hlength
    rw [houter]
    exact Nat.le_of_succ_le_succ hlength

/-- What lay below is exchanged for itself, so it stays as it was. -/
theorem step_fixed (h : Within first t) (hsize : first.frame.base = first.stack.size)
    (hstep : t.step p limits cancelled = .next u) :
    (Recasting.below first.stack.toList first.callers).state u = u := by
  have hcovers : (Recasting.below first.stack.toList first.callers).Covers t :=
    h.covers hsize Array.length_toList rfl
  have hcommutes := hcovers.step_below p limits cancelled
  rw [h.fixed, hstep] at hcommutes
  exact (Transition.next.inj hcommutes).symm

theorem step (h : Within first t) (hsize : first.frame.base = first.stack.size)
    (hstep : t.step p limits cancelled = .next u)
    (hactive : first.callers.length ≤ u.callers.length) : Within first u := by
  refine ⟨h.layered.step hstep, ?_, h.step_fixed hsize hstep⟩
  have hbases := h.bases
  obtain hremains | ⟨f, args, henters⟩ | ⟨v, hreturns⟩ := step_cases hstep
  · rw [hremains.bases_eq]
    exact hbases
  · rw [henters.bases_eq]
    exact hbases.trans (List.suffix_cons _ _)
  · rw [hreturns.bases_eq, List.suffix_cons_iff] at hbases
    obtain heq | hsuffix := hbases
    · have hlength := congrArg List.length heq
      unfold State.bases at hlength
      simp only [List.length_map, List.length_cons] at hlength
      omega
    · exact hsuffix

theorem inside (hlayered : Layered first) (hsize : first.frame.base = first.stack.size)
    (h : Inside p limits first t) : Within first t := by
  induction h with
  | first => exact start hlayered
  | next cancelled _ hstep hactive ih => exact ih.step hsize hstep hactive

theorem stack_prefix (h : Within first t) : first.stack.toList <+: t.stack.toList := by
  rw [← h.fixed, Recasting.state_below]
  exact List.prefix_append _ _

theorem callers_suffix (h : Within first t) : first.callers <:+ t.callers := by
  have hsuffix := suffix_of_fixed h.fixed
  have hlength := h.bases.length_le
  unfold State.bases at hlength
  simp only [List.length_map, List.length_cons] at hlength
  rw [List.suffix_cons_iff] at hsuffix
  obtain heq | hsuffix := hsuffix
  · rw [heq, List.length_cons] at hlength
    omega
  · exact hsuffix

/-- The end of a call: its caller has its stack back, with the value on it. -/
theorem step_out (h : Within first t) (hsize : first.frame.base = first.stack.size)
    (hstep : t.step p limits cancelled = .next u)
    (hout : u.callers.length < first.callers.length) :
    ∃ v, u.stack.toList = first.stack.toList ++ [v] ∧ first.callers = u.frame :: u.callers := by
  have hbases := h.bases
  have hlength := h.callers_suffix.length_le
  obtain hremains | ⟨f, args, henters⟩ | ⟨v, hreturns⟩ := step_cases hstep
  · rw [hremains.callers] at hout
    omega
  · rw [henters.callers, List.length_cons] at hout
    omega
  · refine ⟨v, ?_, ?_⟩
    · have heq : first.bases = t.bases := by
        refine hbases.eq_of_length_le ?_
        unfold State.bases
        rw [List.length_map, List.length_map, hreturns.callers, List.length_cons, List.length_cons,
          List.length_cons]
        omega
      have hbase : t.frame.base = first.stack.size := (List.cons.inj heq).1.symm.trans hsize
      rw [hreturns.stack, hbase, ← Array.length_toList, List.prefix_iff_eq_take.mp h.stack_prefix]
      simp
    · refine (suffix_of_fixed (h.step_fixed hsize hstep)).eq_of_length_le ?_
      rw [List.length_cons]
      omega

end Within

/-! ## Isolation -/

/-- Calls are kept apart, whatever the program does. In every state of its run the parts of the
calls lie on each other. A call begins by taking its arguments from the stack. From then on until it
returns, the values below its part and the calls that wait, with their variables, are there as they
were, and they are not looked at: a step with anything else in their place is the same step. When it
returns, its caller goes on behind the call, with its variables and the stack it had, in which the
value has taken the place of the arguments. -/
theorem calls_isolated {p : Program} {limits : Limits} {m : Machine} {main : Function} {s : State}
    (hreachable : Reachable p limits (m.start main) s) :
    Layered s ∧
    ∀ cancelled first, s.step p limits cancelled = .next first →
      s.callers.length < first.callers.length →
      (∃ f args, Enters p f args s first) ∧
      ∀ t, Inside p limits first t →
        first.stack.toList <+: t.stack.toList ∧ first.callers <:+ t.callers ∧
        (∀ low outer cancelled, low.length = first.stack.size →
          outer.length = first.callers.length →
          ((Recasting.below low outer).state t).step p limits cancelled =
            (Recasting.below low outer).transition (t.step p limits cancelled)) ∧
        ∀ cancelled u, t.step p limits cancelled = .next u →
          u.callers.length < first.callers.length →
          ∃ v, u.stack.toList = first.stack.toList ++ [v] ∧
            u.frame = { s.frame with ip := s.frame.ip + 1 } ∧ u.callers = s.callers := by
  have hlayered := (Layered.start m main).reachable hreachable
  refine ⟨hlayered, fun cancelled first hstep hdeeper => ?_⟩
  have henters : ∃ f args, Enters p f args s first := by
    obtain hremains | henters | ⟨v, hreturns⟩ := step_cases hstep
    · rw [hremains.callers] at hdeeper
      omega
    · exact henters
    · rw [hreturns.callers, List.length_cons] at hdeeper
      omega
  refine ⟨henters, fun t hinside => ?_⟩
  obtain ⟨f, args, henters⟩ := henters
  have hwithin := Within.inside (hlayered.step hstep) henters.size hinside
  refine ⟨hwithin.stack_prefix, hwithin.callers_suffix, ?_, ?_⟩
  · intro low outer cancelled hlow houter
    exact (hwithin.covers henters.size hlow houter).step_below p limits cancelled
  · intro cancelled u hstep hout
    obtain ⟨v, hstack, hcallers⟩ := hwithin.step_out henters.size hstep hout
    rw [henters.callers] at hcallers
    obtain ⟨hframe, hcallers⟩ := List.cons.inj hcallers
    exact ⟨v, hstack, hframe.symm, hcallers.symm⟩

/-- A program that no script is compiled to: its function returns with a value left over. -/
def leftOver : Program :=
  ⟨Dict.insert (Dict.insert ∅ topLevel
      { name := topLevel
        code? := some #[{ op := .value }, { op := .value }, { op := .call, name := "f" }] })
    "f" { name := "f"
          params? := some ["x"]
          scope := Dict.insert ∅ "x" none
          code? := some #[{ op := .value }, { op := .load, name := "x" }, { op := .ret }] }⟩

/-- The value left over is gone when the function has returned. -/
theorem calls_isolated_leftOver :
    ∃ main s first t u v, leftOver.main? = some main ∧
      Reachable leftOver {} (Machine.start {} main) s ∧ s.step leftOver {} false = .next first ∧
      Inside leftOver {} first t ∧ t.step leftOver {} false = .next u ∧
      u.stack.toList = first.stack.toList ++ [v] ∧
      u.frame = { s.frame with ip := s.frame.ip + 1 } ∧ u.callers = s.callers := by
  obtain ⟨main, s, hmain, hreachable, first, hstep, hdeeper, t, hinside, u, hleaves, hout⟩ :
      ∃ main s, leftOver.main? = some main ∧ Reachable leftOver {} (Machine.start {} main) s ∧
        ∃ first, s.step leftOver {} false = .next first ∧ s.callers.length < first.callers.length ∧
        ∃ t, Inside leftOver {} first t ∧
        ∃ u, t.step leftOver {} false = .next u ∧ u.callers.length < first.callers.length :=
    ⟨_, _, rfl, .next false (.next false .first rfl) rfl, _, rfl, Nat.lt_succ_self _,
      _, .next false (.next false .first rfl (Nat.le_refl _)) rfl (Nat.le_refl _), _, rfl,
      Nat.lt_succ_self _⟩
  obtain ⟨-, -, -, hreturned⟩ := ((calls_isolated hreachable).2 false first hstep hdeeper).2 t hinside
  obtain ⟨v, hstack, hframe, hcallers⟩ := hreturned false u hleaves hout
  exact ⟨main, s, first, t, u, v, hmain, hreachable, hstep, hinside, hleaves, hstack, hframe, hcallers⟩

end LineScript.Machine
