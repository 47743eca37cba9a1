/-
# Limits on runs

A limit on the steps ends every run, also one that no instruction would end: what a run does without
beginning an instruction is to return from a function at the end of its code, and a function has to
be called before it can be returned from. A limit on the depth bounds the calls that are active at
once.

Limits do nothing else. A run whose steps are enough is the run without a limit. Any other run is the
beginning of that run: it carries out as many instructions as the limit allows and fails at the next
one, with everything left as those instructions have left it.
-/

import LineScript.Proofs.Behaviour
import LineScript.Proofs.FrameIsolation
import LineScript.Native.Standard

namespace LineScript.Machine

open LineScript.Code

/-! ## Instructions that are carried out -/

/-- The instruction that comes next, unless the running call is at its end. -/
def State.instruction? (s : State) : Option Instruction :=
  if s.frame.ip < 0 then none else s.frame.function.code[s.frame.ip.toNat]?

/-- As many instructions have begun as the limit allows. -/
def State.Spent (s : State) (limits : Limits) : Prop := 0 < limits.steps ∧ limits.steps ≤ s.steps

instance (s : State) (limits : Limits) : Decidable (s.Spent limits) :=
  inferInstanceAs (Decidable (_ ∧ _))

/-- The instruction that the next step carries out. -/
def State.carriedOut? (s : State) (limits : Limits) : Option Instruction :=
  if s.Spent limits then none else s.instruction?

/-- The instructions that up to `patience` steps carry out, in order. -/
def carriedOut (p : Program) (limits : Limits) : Nat → State → List Instruction
  | 0, _ => []
  | patience + 1, s =>
    (s.carriedOut? limits).toList ++
      match s.step p limits false with
      | .next s => carriedOut p limits patience s
      | _ => []

section

variable {p : Program} {limits limits' : Limits} {s s' : State} {i : Instruction}

theorem spent_begin_iff : (0 < limits.steps ∧ limits.steps < s.begin.steps) ↔ s.Spent limits := by
  have hsteps : (s.begin.steps : Int) = s.steps + 1 := rfl
  unfold State.Spent
  omega

/-- At its end the running call returns. -/
theorem step_of_instruction?_eq_none (h : s.instruction? = none) (limits : Limits) :
    s.step p limits false =
      if s.frame.ip < 0 then .breakdown "instruction address out of range" s else s.leave .null := by
  unfold State.instruction? at h
  unfold State.step
  split
  · rfl
  · rename_i hip
    rw [if_neg hip] at h
    dsimp only
    rw [h]

/-- Anywhere else an instruction begins, and it is carried out unless the limit is spent. -/
theorem step_of_instruction?_eq_some (h : s.instruction? = some i) (limits : Limits) :
    s.step p limits false =
      if s.Spent limits then s.begin.fail .stepLimit
      else (s.begin.recorded s.frame.ip.toNat i).execute p limits i := by
  unfold State.instruction? at h
  split at h
  · cases h
  · rename_i hip
    unfold State.step
    rw [if_neg hip]
    dsimp only
    rw [h]
    dsimp only
    by_cases hspent : s.Spent limits
    · rw [if_pos hspent, if_pos (spent_begin_iff.mpr hspent)]
    · rw [if_neg hspent, if_neg (mt spent_begin_iff.mp hspent), if_neg (fun h => nomatch h.2)]

/-! ## Limits and single steps -/

/-- The limit on the steps plays no part in carrying out an instruction. -/
theorem execute_eq_of_depth_eq (hdepth : limits.depth = limits'.depth) :
    s.execute p limits i = s.execute p limits' i := by
  obtain ⟨steps, depth⟩ := limits
  obtain ⟨steps', depth'⟩ := limits'
  cases hdepth
  rfl

/-- Where neither limit is spent, nor an instruction comes next, the limits make no difference. -/
theorem step_eq_of_not_spent (hdepth : limits.depth = limits'.depth)
    (h : s.instruction? ≠ none → ¬ s.Spent limits) (h' : s.instruction? ≠ none → ¬ s.Spent limits') :
    s.step p limits false = s.step p limits' false := by
  cases hi : s.instruction? with
  | none => rw [step_of_instruction?_eq_none hi, step_of_instruction?_eq_none hi]
  | some i =>
      have hsome : s.instruction? ≠ none := by
        rw [hi]
        exact nofun
      rw [step_of_instruction?_eq_some hi, step_of_instruction?_eq_some hi, if_neg (h hsome),
        if_neg (h' hsome)]
      exact execute_eq_of_depth_eq hdepth

/-! ## What a step does to the counts -/

/-- The state that a transition leads to. -/
def Transition.state : Transition → State
  | .next s | .finished _ s | .failed _ s | .breakdown _ s => s

/-- A part of the state that does not depend on the stack, on the heap or on the next address. -/
structure Untouched {α : Type} (view : State → α) : Prop where
  drop : ∀ s, view s.drop = view s
  push : ∀ s v, view (s.push v) = view s
  pushNew : ∀ s make, view (s.pushNew make) = view s
  mapHeap : ∀ s f, view (s.mapHeap f) = view s
  jump : ∀ s target, view (s.jump target) = view s

namespace Untouched

variable {α : Type} {view : State → α} (h : Untouched view)
include h

theorem popping {k : Value → State → Transition} (hk : ∀ v t, view (k v t).state = view t) :
    view (s.popping k).state = view s := by
  unfold State.popping
  split
  · exact (hk _ _).trans (h.drop s)
  · rfl

theorem popping2 {k : Value → Value → State → Transition}
    (hk : ∀ a b t, view (k a b t).state = view t) : view (s.popping2 k).state = view s :=
  h.popping fun _ _ => h.popping fun _ _ => hk _ _ _

omit h in
theorem withTop {k : Value → State → Transition} (hk : ∀ v t, view (k v t).state = view t) :
    view (s.withTop k).state = view s := by
  unfold State.withTop
  split
  · exact hk _ _
  · rfl

theorem pushing (r : Except Cause Value) : view (s.pushing r).state = view s := by
  cases r with
  | ok v => exact h.push s v
  | error cause => rfl

/-- An instruction within the running call that assigns no variable leaves such a part alone. -/
theorem execute (p : Program) (limits : Limits) (s : State) {i : Instruction} (hcall : i.op ≠ .call)
    (hret : i.op ≠ .ret) (hstore : i.op ≠ .store) : view (s.execute p limits i).state = view s := by
  obtain ⟨op, literal, name, target, line⟩ := i
  unfold State.execute
  cases op <;> dsimp only
  case call => exact absurd rfl hcall
  case ret => exact absurd rfl hret
  case store => exact absurd rfl hstore
  case unassigned => rfl
  case value | load => exact h.push s _
  case list => exact h.pushNew s (·.newList #[])
  case object => exact h.pushNew s (·.newObject {})
  case jump => exact h.jump s target
  case pop => exact h.popping fun _ _ => rfl
  case not => exact h.popping fun _ t => h.push t _
  case append | set =>
    refine h.popping fun v t => withTop fun c t => ?_
    split
    · rw [Transition.state, h.mapHeap]
    · rfl
  case get | negate =>
    refine h.popping fun c t => ?_
    split
    · exact h.push t _
    · rfl
  case put =>
    refine h.popping fun v t => h.popping2 fun c j t => ?_
    split
    · rw [Transition.state, h.mapHeap]
    · rfl
  case branch =>
    refine h.popping fun v t => ?_
    split
    · rfl
    · exact h.jump t target
  case skipAnd =>
    refine withTop fun v t => ?_
    split
    · rfl
    · exact h.jump t target
  case skipOr =>
    refine withTop fun v t => ?_
    split
    · exact h.jump t target
    · rfl
  case and | or | equal | notEqual => exact h.popping2 fun a b t => h.push t _
  case index | add | subtract | multiply | divide | less | lessOrEqual | greater | greaterOrEqual =>
    exact h.popping2 fun a b t => h.pushing _

end Untouched

theorem untouched_steps : Untouched State.steps :=
  ⟨fun _ => rfl, fun _ _ => rfl, fun _ _ => rfl, fun _ _ => rfl, fun _ _ => rfl⟩

theorem steps_store (s : State) (name : String) (v : Value) : (s.store name v).steps = s.steps := by
  unfold State.store
  split
  · rfl
  · rfl

theorem steps_leave (s : State) (v : Value) : (s.leave v).state.steps = s.steps := by
  obtain ⟨stack, frame, callers, globals, world, natives, steps, trace?⟩ := s
  cases callers with
  | nil => rfl
  | cons caller callers => rfl

theorem steps_enter (limits : Limits) (name : String) (f : Function) :
    (s.enter limits name f).state.steps = s.steps := by
  unfold State.enter
  dsimp only
  split
  · rfl
  · split
    · rfl
    · rfl

theorem steps_ask (name : String) (bound : Bound) : (s.ask name bound).state.steps = s.steps := by
  unfold State.ask
  split
  · rfl
  · split
    · rfl
    · obtain ⟨stack, frame, callers, globals, world, natives, steps, trace?⟩ := s
      unfold State.answer
      dsimp only
      split
      · rfl
      · rfl
      · rfl

/-- Carrying out an instruction does not count it: it was counted when it began. -/
theorem steps_execute (p : Program) (limits : Limits) (s : State) (i : Instruction) :
    (s.execute p limits i).state.steps = s.steps := by
  by_cases hcall : i.op = .call
  · unfold State.execute
    rw [hcall]
    dsimp only
    unfold State.call
    split
    · exact steps_enter limits i.name _
    · split
      · exact steps_ask i.name _
      · rfl
  by_cases hret : i.op = .ret
  · unfold State.execute
    rw [hret]
    exact untouched_steps.popping fun v t => steps_leave t v
  by_cases hstore : i.op = .store
  · unfold State.execute
    rw [hstore]
    exact untouched_steps.popping fun v t => steps_store t i.name v
  · exact untouched_steps.execute p limits s hcall hret hstore

theorem steps_recorded (s : State) (address : Nat) (i : Instruction) :
    (s.recorded address i).steps = s.steps := by
  obtain ⟨trace?, hrecorded⟩ := recorded_eq s address i
  rw [hrecorded]

/-- An instruction counts when it begins, whether it is carried out or not, and nothing else counts. -/
theorem steps_step (p : Program) (limits : Limits) (s : State) :
    (s.step p limits false).state.steps = s.steps + (if s.instruction?.isSome then 1 else 0) := by
  cases hi : s.instruction? with
  | none =>
      rw [step_of_instruction?_eq_none hi]
      split
      · rfl
      · exact steps_leave s .null
  | some i =>
      rw [step_of_instruction?_eq_some hi]
      split
      · rfl
      · exact (steps_execute p limits _ i).trans (steps_recorded s.begin _ i)

/-! ## What a step does to the calls -/

/-- An instruction calls, returns or stays in the running call, or it is no operation. -/
theorem execute_forms (p : Program) (limits : Limits) (s : State) (i : Instruction) :
    s.execute p limits i = s.call p limits i.name ∨
    s.execute p limits i = s.popping (fun v s => s.leave v) ∨
    (s.execute p limits i).Stays i s ∨
    ∃ label, s.execute p limits i = s.fail (.unknownOpcode label) := by
  by_cases hcall : i.op = .call
  · refine .inl ?_
    unfold State.execute
    rw [hcall]
  by_cases hret : i.op = .ret
  · refine .inr (.inl ?_)
    unfold State.execute
    rw [hret]
  by_cases hassigned : i.op.isAssigned = true
  · exact .inr (.inr (.inl (execute_stays p limits hassigned hcall hret)))
  · obtain ⟨op, literal, name, target, line⟩ := i
    cases op <;> first | exact absurd rfl hassigned | exact .inr (.inr (.inr ⟨_, rfl⟩))

/-- A call is entered by an instruction, and only where the limit on the depth allows it. -/
theorem depth_of_execute (h : s.execute p limits i = .next s') :
    s'.depth ≤ s.depth ∨
      s'.depth = s.depth + 1 ∧ ¬ (0 < limits.depth ∧ limits.depth ≤ s.depth) := by
  obtain hcall | hret | hstays | ⟨label, hfail⟩ := execute_forms p limits s i
  · rw [hcall] at h
    unfold State.call at h
    split at h
    · unfold State.enter at h
      dsimp only at h
      split at h
      · cases h
      · split at h
        · cases h
        · rename_i hdepth
          cases h
          exact .inr ⟨rfl, hdepth⟩
    · split at h
      · unfold State.depth
        rw [(remains_of_ask h).callers]
        exact .inl (Nat.le_refl _)
      · cases h
  · rw [hret] at h
    unfold State.popping at h
    split at h
    · refine .inl (Nat.succ_le_succ ?_)
      change s'.callers.length ≤ s.drop.callers.length
      rw [(returns_of_leave h).callers]
      exact Nat.le_succ _
    · cases h
  · rw [h] at hstays
    unfold State.depth
    rw [hstays.callers]
    exact .inl (Nat.le_refl _)
  · rw [h] at hfail
    cases hfail

/-- A run that goes on has not been cancelled. -/
theorem next_uncancelled {cancelled : Bool} (h : s.step p limits cancelled = .next s') :
    s.step p limits false = .next s' := by
  unfold State.step at h ⊢
  split at h
  · cases h
  · rename_i hip
    rw [if_neg hip]
    dsimp only at h ⊢
    split at h
    · exact h
    · split at h
      · cases h
      · rename_i hspent
        split at h
        · cases h
        · rw [if_neg hspent, if_neg (fun hcancelled => nomatch hcancelled.2)]
          exact h

/-- A step begins an instruction, which may enter one more call, or it returns from one. -/
theorem next_cases (h : s.step p limits false = .next s') :
    (s.instruction? = none ∧ s'.steps = s.steps ∧ s.depth = s'.depth + 1) ∨
    (s.instruction? ≠ none ∧ ¬ s.Spent limits ∧ s'.steps = s.steps + 1 ∧
      (s'.depth ≤ s.depth ∨
        s'.depth = s.depth + 1 ∧ ¬ (0 < limits.depth ∧ limits.depth ≤ s.depth))) := by
  have hsteps := steps_step p limits s
  rw [h] at hsteps
  cases hi : s.instruction? with
  | none =>
      rw [hi] at hsteps
      rw [step_of_instruction?_eq_none hi] at h
      split at h
      · cases h
      · refine .inl ⟨rfl, hsteps, ?_⟩
        unfold State.depth
        rw [(returns_of_leave h).callers]
        rfl
  | some i =>
      rw [hi] at hsteps
      rw [step_of_instruction?_eq_some hi] at h
      split at h
      · cases h
      · rename_i hspent
        refine .inr ⟨nofun, hspent, hsteps, ?_⟩
        obtain ⟨trace?, hrecorded⟩ := recorded_eq s.begin s.frame.ip.toNat i
        rw [hrecorded] at h
        have hdepth := depth_of_execute h
        exact hdepth

end

/-! ## Runs with a limit on the steps -/

section

variable {p : Program} {limits : Limits} {s : State}

/-- A run goes on behind its first step, or it ends there. -/
theorem run_cases (p : Program) (limits : Limits) (patience : Nat) (s : State) :
    (∃ s', s.step p limits false = .next s' ∧
      proceed p limits false (patience + 1) s = proceed p limits false patience s' ∧
      carriedOut p limits (patience + 1) s =
        (s.carriedOut? limits).toList ++ carriedOut p limits patience s') ∨
    ((∀ s', s.step p limits false ≠ .next s') ∧
      (proceed p limits false (patience + 1) s).1 ≠ .unfinished ∧
      (proceed p limits false (patience + 1) s).2 = (s.step p limits false).state ∧
      carriedOut p limits (patience + 1) s = (s.carriedOut? limits).toList) := by
  rw [proceed, carriedOut]
  cases s.step p limits false with
  | next s' => exact .inl ⟨s', rfl, rfl, rfl⟩
  | finished v s' => exact .inr ⟨by simp, by simp, rfl, List.append_nil _⟩
  | failed e s' => exact .inr ⟨by simp, by simp, rfl, List.append_nil _⟩
  | breakdown detail s' => exact .inr ⟨by simp, by simp, rfl, List.append_nil _⟩

/-- The longest way to spend a limit is to enter a call with every instruction and to return from
each. -/
theorem ends_of_limited (hlimit : 0 < limits.steps) {patience : Nat} (hs : s.steps ≤ limits.steps)
    (hpatience : 2 * (limits.steps - s.steps) + s.depth ≤ patience) :
    (proceed p limits false patience s).1 ≠ .unfinished := by
  induction patience generalizing s with
  | zero =>
      unfold State.depth at hpatience
      omega
  | succ patience ih =>
      obtain ⟨s', hstep, hproceed, -⟩ | ⟨-, hended, -⟩ := run_cases p limits patience s
      · rw [hproceed]
        obtain ⟨-, hsteps, hdepth⟩ | ⟨-, hspent, hsteps, hdepth⟩ := next_cases hstep
        · exact ih (by omega) (by omega)
        · unfold State.Spent at hspent
          exact ih (by omega) (by omega)
      · exact hended

/-- A step to a next state counts what it carries out. -/
theorem steps_next {s' : State} (h : s.step p limits false = .next s') :
    s'.steps = s.steps + (s.carriedOut? limits).toList.length := by
  unfold State.carriedOut?
  obtain ⟨hnone, hsteps, -⟩ | ⟨hsome, hspent, hsteps, -⟩ := next_cases h
  · rw [hnone, ite_self]
    exact hsteps
  · obtain ⟨i, hi⟩ := Option.ne_none_iff_exists'.mp hsome
    rw [if_neg hspent, hi]
    exact hsteps

/-- A last step counts what it carries out, or an instruction that the limit does not allow. -/
theorem steps_last (p : Program) (limits : Limits) (s : State) :
    (s.step p limits false).state.steps = s.steps + (s.carriedOut? limits).toList.length ∨
      s.Spent limits ∧ (s.carriedOut? limits).toList.length = 0 ∧
        (s.step p limits false).state.steps = s.steps + 1 := by
  rw [steps_step]
  unfold State.carriedOut?
  cases hi : s.instruction? with
  | none =>
      rw [ite_self]
      exact .inl rfl
  | some i =>
      by_cases hspent : s.Spent limits
      · rw [if_pos hspent]
        exact .inr ⟨hspent, rfl, rfl⟩
      · rw [if_neg hspent]
        exact .inl rfl

/-- A run counts what it carries out, and at most one instruction that the limit does not allow. -/
theorem steps_proceed (p : Program) (limits : Limits) (patience : Nat) (s : State) :
    (proceed p limits false patience s).2.steps =
        s.steps + (carriedOut p limits patience s).length ∨
      0 < limits.steps ∧ limits.steps ≤ s.steps + (carriedOut p limits patience s).length ∧
        (proceed p limits false patience s).2.steps =
          s.steps + (carriedOut p limits patience s).length + 1 := by
  induction patience generalizing s with
  | zero => exact .inl rfl
  | succ patience ih =>
      obtain ⟨s', hstep, hproceed, hlist⟩ | ⟨-, -, hstate, hlist⟩ := run_cases p limits patience s
      · have hsteps := steps_next hstep
        rw [hproceed, hlist, List.length_append]
        obtain hcounted | ⟨hlimit, hle, hcounted⟩ := ih s'
        · exact .inl (by omega)
        · exact .inr ⟨hlimit, by omega, by omega⟩
      · rw [hstate, hlist]
        obtain hcounted | ⟨⟨hlimit, hle⟩, hnone, hcounted⟩ := steps_last p limits s
        · exact .inl hcounted
        · exact .inr ⟨hlimit, by omega, by omega⟩

/-- No step carries out more than the limit allows. -/
theorem length_carriedOut?_le (hlimit : 0 < limits.steps) (hs : s.steps ≤ limits.steps) :
    (s.steps + (s.carriedOut? limits).toList.length : Int) ≤ limits.steps := by
  unfold State.carriedOut?
  split
  · exact hs
  · rename_i hspent
    unfold State.Spent at hspent
    cases s.instruction? with
    | none => exact hs
    | some i =>
        rw [Option.toList_some, List.length_singleton]
        omega

/-- No run carries out more than the limit allows. -/
theorem length_carriedOut_le (hlimit : 0 < limits.steps) (patience : Nat)
    (hs : s.steps ≤ limits.steps) :
    (s.steps + (carriedOut p limits patience s).length : Int) ≤ limits.steps := by
  induction patience generalizing s with
  | zero => exact hs
  | succ patience ih =>
      have hfirst := length_carriedOut?_le hlimit hs
      obtain ⟨s', hstep, -, hlist⟩ | ⟨-, -, -, hlist⟩ := run_cases p limits patience s
      · have hsteps := steps_next hstep
        have hrest := ih (s := s') (by omega)
        rw [hlist, List.length_append]
        omega
      · rw [hlist]
        exact hfirst

end

/-! ## Runs with and without a limit -/

section

variable {p : Program} {limits free : Limits} {s : State}

theorem not_spent_of_free (hfree : free.steps ≤ 0) : ¬ s.Spent free := by
  rintro ⟨hpos, -⟩
  omega

theorem steps_proceed_free (hfree : free.steps ≤ 0) (p : Program) (patience : Nat) (s : State) :
    (proceed p free false patience s).2.steps =
      s.steps + (carriedOut p free patience s).length := by
  obtain hsteps | ⟨hpos, -⟩ := steps_proceed p free patience s
  · exact hsteps
  · omega

theorem carriedOut?_free (hfree : free.steps ≤ 0) (s : State) : s.carriedOut? free = s.instruction? :=
  if_neg (not_spent_of_free hfree)

/-- A step under a limit that allows it is the step without one. -/
theorem step_of_allowed (hfree : free.steps ≤ 0) (hdepth : limits.depth = free.depth)
    (h : s.instruction? ≠ none → ¬ s.Spent limits) :
    s.step p limits false = s.step p free false ∧ s.carriedOut? limits = s.carriedOut? free := by
  refine ⟨step_eq_of_not_spent hdepth h fun _ => not_spent_of_free hfree, ?_⟩
  rw [carriedOut?_free hfree]
  unfold State.carriedOut?
  cases hi : s.instruction? with
  | none => exact ite_self none
  | some i => exact if_neg (h (by rw [hi]; exact nofun))

/-- What a run without a limit counts does not get less. -/
theorem steps_le_proceed (hfree : free.steps ≤ 0) (p : Program) (patience : Nat) (s : State) :
    s.steps ≤ (proceed p free false patience s).2.steps := by
  rw [steps_proceed_free hfree]
  exact Nat.le_add_right _ _

/-- Once an instruction has begun, it is counted. -/
theorem succ_steps_le_proceed (hfree : free.steps ≤ 0) (p : Program) (patience : Nat)
    (h : s.instruction? ≠ none) :
    s.steps + 1 ≤ (proceed p free false (patience + 1) s).2.steps := by
  obtain ⟨i, hi⟩ := Option.ne_none_iff_exists'.mp h
  have hsteps := steps_step p free s
  rw [hi] at hsteps
  obtain ⟨s', hstep, hproceed, -⟩ | ⟨-, -, hstate, -⟩ := run_cases p free patience s
  · rw [hstep] at hsteps
    rw [hproceed]
    exact Nat.le_trans (Nat.le_of_eq hsteps.symm) (steps_le_proceed hfree p patience s')
  · rw [hstate]
    exact Nat.le_of_eq hsteps.symm

/-- A limit that is not exceeded changes nothing. -/
theorem proceed_of_enough (hfree : free.steps ≤ 0) (hdepth : limits.depth = free.depth)
    {patience : Nat} (hle : (proceed p free false patience s).2.steps ≤ limits.steps) :
    proceed p limits false patience s = proceed p free false patience s ∧
      carriedOut p limits patience s = carriedOut p free patience s := by
  induction patience generalizing s with
  | zero => exact ⟨rfl, rfl⟩
  | succ patience ih =>
      have hallowed : s.instruction? ≠ none → ¬ s.Spent limits := by
        rintro hsome ⟨-, hspent⟩
        have := succ_steps_le_proceed hfree p patience hsome
        omega
      obtain ⟨hstep, hcarried⟩ := step_of_allowed (p := p) hfree hdepth hallowed
      rw [proceed] at hle
      rw [proceed, carriedOut, proceed, carriedOut, hstep, hcarried]
      cases hnext : s.step p free false with
      | next s' =>
          rw [hnext] at hle
          obtain ⟨hproceed, hlist⟩ := ih hle
          exact ⟨hproceed, congrArg _ hlist⟩
      | _ => exact ⟨rfl, rfl⟩

/-- A limit that is exceeded cuts the run off. The instructions it allows are those of the run without
a limit, up to the state in which the next one fails. -/
theorem proceed_of_exceeded (hfree : free.steps ≤ 0) (hdepth : limits.depth = free.depth)
    (hlimit : 0 < limits.steps) {patience : Nat} (hs : s.steps ≤ limits.steps)
    (hlt : limits.steps < (proceed p free false patience s).2.steps) :
    ∃ count u, Steps p free count s u ∧ u.steps = limits.steps ∧
      proceed p limits false patience s = (.failed (u.begin.error .stepLimit), u.begin) ∧
      carriedOut p limits patience s =
        (carriedOut p free patience s).take (limits.steps.toNat - s.steps) := by
  induction patience generalizing s with
  | zero =>
      unfold proceed at hlt
      dsimp only at hlt
      omega
  | succ patience ih =>
      by_cases hstop : s.instruction? ≠ none ∧ s.Spent limits
      · obtain ⟨hsome, hspent⟩ := hstop
        obtain ⟨i, hi⟩ := Option.ne_none_iff_exists'.mp hsome
        have hsteps : s.steps = limits.steps := Int.le_antisymm hs hspent.2
        have hstep : s.step p limits false = s.begin.fail .stepLimit := by
          rw [step_of_instruction?_eq_some hi, if_pos hspent]
        refine ⟨0, s, .refl s, hsteps, ?_, ?_⟩
        · rw [proceed, hstep]
          rfl
        · rw [carriedOut, hstep, State.carriedOut?, if_pos hspent, ← hsteps, Int.toNat_natCast,
            Nat.sub_self]
          rfl
      · obtain ⟨hstep, hcarried⟩ := step_of_allowed (p := p) hfree hdepth (not_and.mp hstop)
        obtain ⟨s', hnext, hproceed, hlist⟩ | ⟨-, -, hstate, -⟩ := run_cases p free patience s
        · have hsteps := steps_next hnext
          have hle := length_carriedOut?_le hlimit hs
          rw [hcarried] at hle
          obtain ⟨count, u, hreach, hu, hcut, htake⟩ := ih (s := s') (by omega) (hproceed ▸ hlt)
          refine ⟨count + 1, u, .step hnext hreach, hu, ?_, ?_⟩
          · rw [proceed, hstep, hnext]
            exact hcut
          · rw [carriedOut, hstep, hcarried, hnext, hlist, List.take_append,
              List.take_of_length_le (by omega)]
            refine congrArg _ (htake.trans ?_)
            rw [hsteps, Nat.sub_add_eq]
        · obtain hsteps | ⟨hspent, -⟩ := steps_last p free s
          · have hle := length_carriedOut?_le hlimit hs
            rw [hcarried] at hle
            rw [hstate] at hlt
            omega
          · exact absurd hspent (not_spent_of_free hfree)

end

/-! ## Limits on the depth -/

/-- A step enters no call that the limit on the depth does not allow. -/
theorem depth_le_of_step {p : Program} {limits : Limits} {cancelled : Bool} {s s' : State}
    (hlimit : 0 < limits.depth) (h : s.depth ≤ max 1 limits.depth)
    (hstep : s.step p limits cancelled = .next s') : s'.depth ≤ max 1 limits.depth := by
  obtain ⟨-, -, hdepth⟩ | ⟨-, -, -, hdepth⟩ := next_cases (next_uncancelled hstep)
  · omega
  · omega

/-- No state of a run has more calls than the limit on the depth allows. -/
theorem depth_le_of_reachable {p : Program} {limits : Limits} {first s : State}
    (hlimit : 0 < limits.depth) (hfirst : first.depth ≤ max 1 limits.depth)
    (h : Reachable p limits first s) : s.depth ≤ max 1 limits.depth := by
  induction h with
  | first => exact hfirst
  | next cancelled _ hstep ih => exact depth_le_of_step hlimit ih hstep

/-! ## Addresses below the code -/

/-- No jump of a program goes to a negative address. -/
def NonNegativeTargets (p : Program) : Prop :=
  ∀ name f, p.functions.get? name = some f → ∀ i ∈ f.code, i.op.isJump = true → 0 ≤ i.target

/-- No call stands before the beginning of its function, and no host function breaks down. -/
structure Upright (p : Program) (s : State) : Prop where
  frames : ∀ frame ∈ s.frame :: s.callers,
    0 ≤ frame.ip ∧ ∃ name, p.functions.get? name = some frame.function
  natives : ∀ name bound, s.natives.get? name = some bound → bound.Orderly

/-- A transition without breakdown, to a state with the invariant if there is a next one. -/
def Transition.Intact (inv : State → Prop) : Transition → Prop
  | .next s => inv s
  | .finished _ _ | .failed _ _ => True
  | .breakdown _ _ => False

namespace Upright

variable {p : Program} {s : State}

theorem stays {i : Instruction} {t : Transition} (h : Upright p s)
    (hi : i.op.isJump = true → 0 ≤ i.target) (ht : t.Stays i s) : t.Intact (Upright p) := by
  cases t with
  | finished | breakdown => exact ht.elim
  | failed e s' => trivial
  | next s' =>
      obtain ⟨hframe, hcallers⟩ := List.forall_mem_cons.mp h.frames
      refine ⟨?_, ht.natives ▸ h.natives⟩
      rw [ht.callers]
      refine List.forall_mem_cons.mpr ⟨⟨?_, ht.function ▸ hframe.2⟩, hcallers⟩
      obtain hsame | ⟨hop, htarget⟩ := ht.ip
      · exact hsame ▸ hframe.1
      · exact htarget ▸ hi hop

theorem leave (h : Upright p s) (v : Value) : (s.leave v).Intact (Upright p) := by
  obtain ⟨stack, frame, callers, globals, world, natives, steps, trace?⟩ := s
  cases callers with
  | nil => trivial
  | cons caller callers => exact ⟨(List.forall_mem_cons.mp h.frames).2, h.natives⟩

theorem enter (h : Upright p s) {name callee : String} {f : Function}
    (hf : p.functions.get? callee = some f) (limits : Limits) :
    (s.enter limits name f).Intact (Upright p) := by
  unfold State.enter
  dsimp only
  split
  · trivial
  · split
    · trivial
    · exact ⟨List.forall_mem_cons.mpr ⟨⟨Int.le_refl 0, callee, hf⟩, h.frames⟩, h.natives⟩

theorem ask (h : Upright p s) {name : String} {bound : Bound}
    (hbound : s.natives.get? name = some bound) : (s.ask name bound).Intact (Upright p) := by
  obtain ⟨harity, hreplies⟩ := h.natives name bound hbound
  unfold State.ask
  split
  · trivial
  · rw [if_neg (by omega)]
    dsimp only
    unfold State.answer
    dsimp only
    split
    · exact ⟨h.frames, Dict.forall_get?_insert ⟨harity, hreplies⟩ h.natives⟩
    · trivial
    · rename_i detail world hreply
      refine hreplies _ _ _ detail ?_ (congrArg Prod.fst hreply)
      rw [Array.length_toList, Array.size_extract]
      omega

theorem execute {i : Instruction} (h : Upright p s) (hi : i.op.isJump = true → 0 ≤ i.target)
    (limits : Limits) : (s.execute p limits i).Intact (Upright p) := by
  obtain hcall | hret | hstays | ⟨label, hfail⟩ := execute_forms p limits s i
  · rw [hcall]
    unfold State.call
    split
    · rename_i f hlookup
      split at hlookup
      · cases hlookup
      · exact h.enter hlookup limits
    · split
      · rename_i bound hbound
        exact h.ask hbound
      · trivial
  · rw [hret]
    unfold State.popping
    split
    · exact leave (s := s.drop) ⟨h.frames, h.natives⟩ _
    · trivial
  · exact h.stays hi hstays
  · rw [hfail]
    trivial

theorem step (htargets : NonNegativeTargets p) (h : Upright p s) (limits : Limits) :
    (s.step p limits false).Intact (Upright p) := by
  obtain ⟨⟨hip, name, hname⟩, hcallers⟩ := List.forall_mem_cons.mp h.frames
  cases hi : s.instruction? with
  | none =>
      rw [step_of_instruction?_eq_none hi, if_neg (by omega)]
      exact h.leave .null
  | some i =>
      rw [step_of_instruction?_eq_some hi]
      split
      · trivial
      · obtain ⟨trace?, hrecorded⟩ := recorded_eq s.begin s.frame.ip.toNat i
        have hbegun : Upright p { s.begin with trace? := trace? } :=
          ⟨List.forall_mem_cons.mpr ⟨⟨Int.le_add_one hip, name, hname⟩, hcallers⟩, h.natives⟩
        unfold State.instruction? at hi
        rw [if_neg (by omega)] at hi
        rw [hrecorded]
        exact hbegun.execute (htargets name _ hname i (Array.mem_of_getElem? hi)) limits

/-- A run ends with a value or an error, or it goes on. -/
theorem proceed (htargets : NonNegativeTargets p) (h : Upright p s) (limits : Limits)
    (patience : Nat) (detail : String) :
    (Machine.proceed p limits false patience s).1 ≠ .breakdown detail := by
  induction patience generalizing s with
  | zero => simp [Machine.proceed]
  | succ patience ih =>
      have hintact := h.step htargets limits
      rw [Machine.proceed]
      cases hstep : s.step p limits false with
      | next s' =>
          rw [hstep] at hintact
          exact ih hintact
      | finished v s' => simp
      | failed e s' => simp
      | breakdown detail s' =>
          rw [hstep] at hintact
          exact hintact.elim

theorem start {m : Machine} {main : Function}
    (hnatives : ∀ name bound, m.natives.get? name = some bound → bound.Orderly)
    (hmain : p.main? = some main) : Upright p (m.start main) := by
  refine ⟨fun frame hframe => ?_, hnatives⟩
  rw [List.mem_singleton.mp hframe]
  exact ⟨Int.le_refl 0, topLevel, hmain⟩

end Upright

/-! ## Limits bound runs and change nothing else -/

/-- The machine with another limit on the steps. -/
def withStepLimit (m : Machine) (steps : Int) : Machine := { m with limits := { m.limits with steps } }

/-- The instructions that a run of a program carries out, in order. -/
def instructions (m : Machine) (patience : Nat) (p : Program) : List Instruction :=
  (p.main?.map fun main => carriedOut p m.limits patience (m.start main)).getD []

theorem runFor_of_main {m : Machine} {p : Program} {main : Function} (hmain : p.main? = some main)
    (patience : Nat) : m.runFor patience p =
      m.report (proceed p m.limits false patience (m.start main)).1
        (proceed p m.limits false patience (m.start main)).2 := by
  unfold runFor
  rw [hmain]

theorem instructions_of_main {m : Machine} {p : Program} {main : Function} (hmain : p.main? = some main)
    (patience : Nat) : m.instructions patience p = carriedOut p m.limits patience (m.start main) := by
  unfold instructions
  rw [hmain]
  rfl

theorem outcome_ne_noTopLevel (p : Program) (limits : Limits) (patience : Nat) (s : State) :
    (proceed p limits false patience s).1 ≠ .noTopLevel := by
  induction patience generalizing s with
  | zero => simp [proceed]
  | succ patience ih =>
      rw [proceed]
      cases s.step p limits false with
      | next s' => exact ih s'
      | _ => simp

/-- A limit on the steps bounds a run. -/
theorem bounded_of_limited {m : Machine} {p : Program} {main : Function} (hmain : p.main? = some main)
    (hlimit : 0 < m.limits.steps) {patience : Nat} (hpatience : 2 * m.limits.steps.toNat < patience) :
    (m.runFor patience p).outcome ≠ .unfinished ∧
      (m.instructions patience p).length ≤ m.limits.steps ∧
      (m.runFor patience p).machine.steps ≤ m.limits.steps + 1 := by
  have hfirst : ((m.start main).steps : Int) ≤ m.limits.steps := Int.le_of_lt hlimit
  have hdepth : (m.start main).depth = 1 := rfl
  have hsteps : (m.start main).steps = 0 := rfl
  have hlength := length_carriedOut_le (p := p) hlimit patience hfirst
  rw [runFor_of_main hmain, instructions_of_main hmain]
  refine ⟨ends_of_limited hlimit hfirst (by omega), by omega, ?_⟩
  change ((proceed p m.limits false patience (m.start main)).2.steps : Int) ≤ _
  obtain hcounted | ⟨-, -, hcounted⟩ := steps_proceed p m.limits patience (m.start main)
  · omega
  · omega

/-- Where nothing breaks down, a run that ends does so with a value or an error. -/
theorem value_or_error {m : Machine} {p : Program} {main : Function} (hmain : p.main? = some main)
    (htargets : NonNegativeTargets p)
    (hnatives : ∀ name bound, m.natives.get? name = some bound → bound.Orderly) {patience : Nat}
    (hended : (m.runFor patience p).outcome ≠ .unfinished) :
    (∃ v, (m.runFor patience p).outcome = .value v) ∨
      ∃ e, (m.runFor patience p).outcome = .failed e := by
  have hintact := (Upright.start hnatives hmain).proceed htargets m.limits patience
  have hmain' := outcome_ne_noTopLevel p m.limits patience (m.start main)
  rw [runFor_of_main hmain] at hended ⊢
  change (proceed p m.limits false patience (m.start main)).1 ≠ _ at hended
  change (∃ v, (proceed p m.limits false patience (m.start main)).1 = _) ∨
    ∃ e, (proceed p m.limits false patience (m.start main)).1 = _
  cases houtcome : (proceed p m.limits false patience (m.start main)).1 with
  | value v => exact .inl ⟨v, rfl⟩
  | failed e => exact .inr ⟨e, rfl⟩
  | noTopLevel => exact absurd houtcome hmain'
  | breakdown detail => exact absurd houtcome (hintact detail)
  | unfinished => exact absurd houtcome hended

/-- Limits bound every run and change nothing else, whatever the program.

With a limit on the steps a run ends; it carries out no more instructions than that and counts at most
one more; and where no jump goes below the code and no host function breaks down, it ends with a value
or an error. With a limit on the depth no state has more calls, except that the top level always runs.

A limit on the steps that the run without a limit keeps to leaves the report as it is. One that it
exceeds makes the run fail at the next instruction after those that the limit allows: the run without
a limit comes to the same state, in which exactly these have been carried out. -/
theorem limits_bound_runs (m : Machine) (p : Program) :
    (0 < m.limits.steps → ∀ patience, 2 * m.limits.steps.toNat < patience →
      (m.runFor patience p).outcome ≠ .unfinished ∧
      (NonNegativeTargets p →
        (∀ name bound, m.natives.get? name = some bound → bound.Orderly) →
        p.main? = none ∧ (m.runFor patience p).outcome = .noTopLevel ∨
          (∃ v, (m.runFor patience p).outcome = .value v) ∨
          ∃ e, (m.runFor patience p).outcome = .failed e) ∧
      (m.instructions patience p).length ≤ m.limits.steps ∧
      (p.main? = none ∧ (m.runFor patience p).machine = m ∨
        (m.runFor patience p).machine.steps ≤ m.limits.steps + 1)) ∧
    (0 < m.limits.depth → ∀ main s, p.main? = some main →
      Reachable p m.limits (m.start main) s → s.depth ≤ max 1 m.limits.depth) ∧
    ∀ patience (limit : Nat),
      (((m.withStepLimit 0).runFor patience p).machine.steps ≤ limit →
        (m.withStepLimit limit).runFor patience p =
          { (m.withStepLimit 0).runFor patience p with
            machine := ((m.withStepLimit 0).runFor patience p).machine.withStepLimit limit } ∧
        (m.withStepLimit limit).instructions patience p = (m.withStepLimit 0).instructions patience p) ∧
      (0 < limit → limit < ((m.withStepLimit 0).runFor patience p).machine.steps →
        ∀ main, p.main? = some main →
        ∃ count s, Steps p (m.withStepLimit 0).limits count ((m.withStepLimit 0).start main) s ∧
          s.steps = limit ∧
          (m.withStepLimit limit).runFor patience p =
            (m.withStepLimit limit).report (.failed (s.begin.error .stepLimit)) s.begin ∧
          (m.withStepLimit limit).instructions patience p =
            ((m.withStepLimit 0).instructions patience p).take limit) := by
  have hfree : (m.withStepLimit 0).limits.steps ≤ 0 := Int.le_refl 0
  have hdepth : ∀ limit : Nat,
      (m.withStepLimit limit).limits.depth = (m.withStepLimit 0).limits.depth := fun _ => rfl
  refine ⟨fun hlimit patience hpatience => ?_, fun hlimit main s hmain hreachable => ?_,
    fun patience limit => ⟨fun hle => ?_, fun hpos hlt main hmain => ?_⟩⟩
  · cases hmain : p.main? with
    | none =>
        unfold runFor instructions
        rw [hmain]
        exact ⟨nofun, fun _ _ => .inl ⟨rfl, rfl⟩, Int.le_of_lt hlimit, .inl ⟨rfl, rfl⟩⟩
    | some main =>
        obtain ⟨hended, hlength, hsteps⟩ := bounded_of_limited hmain hlimit hpatience
        exact ⟨hended, fun htargets hnatives =>
          .inr (value_or_error hmain htargets hnatives hended), hlength, .inr hsteps⟩
  · exact depth_le_of_reachable hlimit (Int.le_max_left 1 _) hreachable
  · cases hmain : p.main? with
    | none =>
        unfold runFor instructions
        rw [hmain]
        exact ⟨rfl, rfl⟩
    | some main =>
        rw [runFor_of_main hmain] at hle
        obtain ⟨hproceed, hlist⟩ := proceed_of_enough (p := p) (s := m.start main) hfree
          (hdepth limit) (Int.ofNat_le.mpr hle)
        rw [runFor_of_main hmain, runFor_of_main hmain, instructions_of_main hmain,
          instructions_of_main hmain]
        exact ⟨congrArg (fun r => (m.withStepLimit limit).report r.1 r.2) hproceed, hlist⟩
  · rw [runFor_of_main hmain] at hlt
    obtain ⟨count, s, hsteps, hs, hproceed, hlist⟩ := proceed_of_exceeded (p := p)
      (s := m.start main) hfree (hdepth limit) (Int.natCast_pos.mpr hpos) (Int.natCast_nonneg limit)
      (Int.ofNat_lt.mpr hlt)
    refine ⟨count, s, hsteps, Int.ofNat_inj.mp hs, ?_, ?_⟩
    · rw [runFor_of_main hmain]
      exact congrArg (fun r => (m.withStepLimit limit).report r.1 r.2) hproceed
    · rw [instructions_of_main hmain, instructions_of_main hmain]
      exact hlist

/-- Something is logged, and then a function without code is called. -/
def logThenCall : Program :=
  ⟨Dict.insert (Dict.insert ∅ topLevel
      { name := topLevel
        code? := some #[{ op := .value }, { op := .call, name := "log" }, { op := .pop },
          { op := .call, name := "f" }, { op := .pop }] })
    "f" { name := "f" }⟩

/-- Five instructions and a return that is none: five steps are enough, and three are carried out when
the limit is three. -/
theorem limits_bound_runs_logThenCall :
    let m : Machine :=
      { Machine.bind {} "log" 1 Native.log with limits := { steps := 3, depth := 2 } }
    (∃ e, (m.runFor 7 logThenCall).outcome = .failed e) ∧
    (m.instructions 7 logThenCall).length ≤ m.limits.steps ∧
    (m.runFor 7 logThenCall).machine.steps ≤ m.limits.steps + 1 ∧
    (∀ main s, logThenCall.main? = some main →
      Reachable logThenCall m.limits (m.start main) s → s.depth ≤ max 1 m.limits.depth) ∧
    (m.withStepLimit (5 : Nat)).runFor 7 logThenCall =
      { (m.withStepLimit 0).runFor 7 logThenCall with
        machine := ((m.withStepLimit 0).runFor 7 logThenCall).machine.withStepLimit (5 : Nat) } ∧
    ∃ main count s, logThenCall.main? = some main ∧
      Steps logThenCall (m.withStepLimit 0).limits count ((m.withStepLimit 0).start main) s ∧
      s.steps = 3 ∧
      (m.withStepLimit (3 : Nat)).runFor 7 logThenCall =
        (m.withStepLimit (3 : Nat)).report (.failed (s.begin.error .stepLimit)) s.begin := by
  intro m
  obtain ⟨hsteps, hdepth, hsame⟩ := limits_bound_runs m logThenCall
  have htargets : NonNegativeTargets logThenCall := by
    have hall : ∀ e ∈ logThenCall.functions.entries, ∀ i ∈ e.2.code, i.op.isJump = true → 0 ≤ i.target := by
      decide
    exact fun name f hf => hall _ (Dict.get?_eq_some_iff.mp hf)
  obtain ⟨hended, houtcome, hlength, hcounted⟩ := hsteps (by decide) 7 (by decide)
  obtain ⟨hnone, -⟩ | ⟨v, hvalue⟩ | herror := houtcome htargets orderly_log
  · cases hnone
  · cases hvalue
  obtain ⟨hnone, -⟩ | hcounted := hcounted
  · cases hnone
  obtain ⟨count, s, hreached, hs, hcut, -⟩ := (hsame 7 3).2 (by decide) (by decide) _ rfl
  exact ⟨herror, hlength, hcounted, hdepth (by decide), ((hsame 7 5).1 (by decide)).1,
    _, count, s, rfl, hreached, hs, hcut⟩

end LineScript.Machine
