/-
# Failing instructions

An instruction that fails leaves no trace of its attempt but one. It may have taken operands off the stack
by then, and it has been counted, but the globals, the variables of all calls and the containers are those
before it, and the error tells where it stands: the running function, the address and the line. Only what a
writer has taken before it failed cannot be taken back, so the output may have grown by a part of a line.

All instructions are of one make: they take their operands first, then they fail or come to a next
state. So the invariant within an instruction is that nothing has happened yet but that operands were
taken; an instruction that goes on may break it, one that fails may not. A host function is beyond the
reach of this argument, since it gets the world in its hands. Of the standard ones, none but `log` touches it
before it fails.
-/

import LineScript.Proofs.CalleeRuns
import LineScript.Registry

namespace LineScript

open LineScript.Code

namespace Machine

/-- The host function leaves the world alone whenever it fails. -/
def Native.Tidy (n : Native) : Prop :=
  ∀ (calls : Nat) (args : List Value) (w : World) (detail : String),
    (n.run calls args w).1 = .failure detail → (n.run calls args w).2 = w

/-- The host functions under these names are standard ones, each with a writer of its own. -/
def Standard (natives : Dict Bound) : Prop :=
  ∀ name bound, natives.get? name = some bound →
    ∃ out, ∃ e ∈ (Registry.standard out).entries, e.native = bound.native

end Machine

/-! ## The standard host functions -/

namespace Native

open LineScript.Machine

theorem tidy_unary {f : Value → World → Reply × World}
    (h : ∀ v w detail, (f v w).1 = .failure detail → (f v w).2 = w) : (unary f).Tidy := by
  intro calls args w detail hfail
  cases args with
  | nil => rfl
  | cons v rest => exact h v w detail hfail

theorem tidy_binary {f : Value → Value → World → Reply × World}
    (h : ∀ a b w detail, (f a b w).1 = .failure detail → (f a b w).2 = w) : (binary f).Tidy := by
  intro calls args w detail hfail
  cases args with
  | nil => rfl
  | cons a rest =>
      cases rest with
      | nil => rfl
      | cons b rest => exact h a b w detail hfail

theorem tidy_length : length.Tidy := by
  refine tidy_unary fun v w detail _ => ?_
  cases v with
  | ref place => cases place <;> rfl
  | _ => rfl

theorem tidy_text : text.Tidy := tidy_unary fun _ _ _ _ => rfl

theorem tidy_number : number.Tidy := by
  refine tidy_unary fun v w detail _ => ?_
  cases v with
  | string s =>
      dsimp only
      cases Number.read? (Text.trim s) <;> rfl
  | _ => rfl

/-- Appending to a list changes the world, but it does not fail. -/
theorem tidy_push : push.Tidy := by
  refine tidy_binary fun c v w detail h => ?_
  cases c with
  | ref place =>
      cases place with
      | list place => cases h
      | object place => rfl
  | _ => rfl

/-- Making the list of the keys changes the world, but it does not fail. -/
theorem tidy_keys : keys.Tidy := by
  refine tidy_unary fun v w detail h => ?_
  cases v with
  | ref place =>
      cases place with
      | list place => rfl
      | object place => cases h
  | _ => rfl

theorem tidy_numeric (name : String) (f : Float → Float) : (numeric name f).Tidy := by
  refine tidy_unary fun v w detail _ => ?_
  cases v <;> rfl

theorem tidy_standard (out : Writer) :
    ∀ e ∈ (Registry.standard out).entries, e.native = log out ∨ e.native.Tidy := by
  unfold Registry.standard
  simp only [List.forall_mem_cons]
  exact ⟨.inl trivial, .inr tidy_length, .inr tidy_text, .inr tidy_number, .inr tidy_push, .inr tidy_keys,
    .inr (tidy_numeric _ _), .inr (tidy_numeric _ _), .inr (tidy_numeric _ _), List.forall_mem_nil _⟩

/-- A call of `log` fails when its writer does: it has an argument, and what the writer has taken of the line is
written. -/
theorem run_log_of_failure {out : Writer} {calls : Nat} {args : List Value} {w : World} {detail : String}
    (h : ((log out).run calls args w).1 = .failure detail) :
    ∃ v rest taken, args = v :: rest ∧ out.failure? calls (line w.heap v) = some (taken, detail) ∧
      ((log out).run calls args w).2 =
        { w with output := w.output ++ Text.front taken (line w.heap v) } := by
  cases args with
  | nil => cases h
  | cons v rest =>
      change (out.write calls (line w.heap v) w).1 = .failure detail at h
      change ∃ v' rest' taken, v :: rest = v' :: rest' ∧ _ ∧ (out.write calls (line w.heap v) w).2 = _
      unfold Writer.write at h ⊢
      cases hfailure : out.failure? calls (line w.heap v) with
      | none =>
          rw [hfailure] at h
          cases h
      | some refusal =>
          rw [hfailure] at h
          cases h
          exact ⟨v, rest, _, rfl, hfailure, rfl⟩

end Native

namespace Machine

/-! ## What is written -/

/-- The values that a call of a host function takes as its arguments. -/
def State.argumentsFor (s : State) (bound : Bound) : List Value :=
  (s.stack.extract (s.stack.size - bound.arity.toNat) s.stack.size).toList

/-- An instruction has failed as a call of `log` fails with its writer. -/
structure State.FailsToLog (s : State) (i : Instruction) (cause : Cause) (bound : Bound)
    (out : Native.Writer) (detail : String) : Prop where
  op : i.op = .call
  known : s.natives.get? i.name = some bound
  native : bound.native = Native.log out
  cause : cause = .nativeFailure i.name detail

/-- No writer is to blame for the failure of an instruction. -/
def State.Quiet (s : State) (i : Instruction) (cause : Cause) : Prop :=
  ∀ bound out detail, ¬ s.FailsToLog i cause bound out detail

/-- The output behind an instruction that has failed. It is the output before it, unless a writer has failed:
then the writer had taken some bytes of the line, and they are written. -/
inductive State.Leaves (s : State) (i : Instruction) (cause : Cause) : String → Prop
  | nothing (hquiet : s.Quiet i cause) : Leaves s i cause s.world.output
  | part {bound : Bound} {out : Native.Writer} {detail : String} {v : Value} {rest : List Value} {taken : Nat}
      (hlog : s.FailsToLog i cause bound out detail) (hargs : s.argumentsFor bound = v :: rest)
      (hfailure : out.failure? (bound.calls + 1) (Native.line s.heap v) = some (taken, detail)) :
      Leaves s i cause (s.world.output ++ Text.front taken (Native.line s.heap v))

namespace State

variable {s : State} {i : Instruction} {cause : Cause}

theorem quiet_of_op (h : i.op ≠ .call) : s.Quiet i cause := fun _ _ _ hlog => h hlog.op

theorem quiet_of_cause (h : ∀ name detail, cause ≠ .nativeFailure name detail) : s.Quiet i cause :=
  fun _ _ detail hlog => h i.name detail hlog.cause

/-- A standard host function that fails has not touched the world, or else it is `log`, and its writer has
failed. -/
theorem leaves_of_failure (hop : i.op = .call) {bound : Bound} (hbound : s.natives.get? i.name = some bound)
    (hstandard : (∃ out, bound.native = Native.log out) ∨ bound.native.Tidy) {detail : String} {w : World}
    (hrun : bound.native.run (bound.calls + 1) (s.argumentsFor bound) s.world = (.failure detail, w)) :
    w.heap = s.heap ∧ s.Leaves i (.nativeFailure i.name detail) w.output := by
  by_cases hlog : ∃ out, bound.native = Native.log out
  · obtain ⟨out, hnative⟩ := hlog
    rw [hnative] at hrun
    obtain ⟨v, rest, taken, hargs, hfailure, hworld⟩ := Native.run_log_of_failure (congrArg Prod.fst hrun)
    rw [hrun] at hworld
    obtain rfl : w = _ := hworld
    exact ⟨rfl, .part ⟨hop, hbound, hnative, rfl⟩ hargs hfailure⟩
  · have hworld := hstandard.resolve_left hlog _ _ _ detail (congrArg Prod.fst hrun)
    rw [hrun] at hworld
    obtain rfl : w = s.world := hworld
    refine ⟨rfl, .nothing fun other out detail' hfails => ?_⟩
    have hsame : other = bound := Option.some.inj (hfails.known.symm.trans hbound)
    exact hlog ⟨out, hsame ▸ hfails.native⟩

end State

/-! ## Within an instruction -/

/-- An instruction that began in one state has come to another by taking operands off the stack. -/
structure Fetched (s₀ s : State) : Prop where
  stack : s.stack.toList <+: s₀.stack.toList
  frame : s.frame = s₀.frame
  callers : s.callers = s₀.callers
  globals : s.globals = s₀.globals
  world : s.world = s₀.world
  natives : s.natives = s₀.natives
  steps : s.steps = s₀.steps

/-- A transition of an instruction that fails without effect, but for what is written, where the instruction
began. When it goes on, the host functions stay the same. -/
def Transition.Harmless (s₀ : State) (i : Instruction) : Transition → Prop
  | .next s => ∀ name bound, s.natives.get? name = some bound →
      ∃ earlier, s₀.natives.get? name = some earlier ∧ earlier.native = bound.native
  | .failed e s => ∃ cause, e = s₀.error cause ∧ s.heap = s₀.heap ∧
      s₀.Leaves i cause s.world.output ∧ Fetched s₀ { s with world := s₀.world }
  | .finished _ _ | .breakdown _ _ => True

namespace Fetched

variable {s₀ s : State} {i : Instruction}

theorem refl (s : State) : Fetched s s := ⟨List.prefix_rfl, rfl, rfl, rfl, rfl, rfl, rfl⟩

theorem drop (h : Fetched s₀ s) : Fetched s₀ s.drop := by
  refine ⟨List.IsPrefix.trans ?_ h.stack, h.frame, h.callers, h.globals, h.world, h.natives, h.steps⟩
  have hpop : s.drop.stack.toList = s.stack.toList.dropLast := Array.toList_pop
  rw [hpop]
  exact List.dropLast_prefix _

theorem shrink (h : Fetched s₀ s) (base : Nat) :
    Fetched s₀ { s with stack := s.stack.shrink base } := by
  refine ⟨List.IsPrefix.trans ?_ h.stack, h.frame, h.callers, h.globals, h.world, h.natives, h.steps⟩
  rw [Array.toList_shrink]
  exact List.take_prefix _ _

theorem next (h : Fetched s₀ s) {s' : State} (hnatives : s'.natives = s.natives) :
    (Transition.next s').Harmless s₀ i := by
  intro name bound hbound
  rw [hnatives, h.natives] at hbound
  exact ⟨bound, hbound, rfl⟩

/-- A failure with an output that the instruction may leave. -/
theorem failLeaving (h : Fetched s₀ s) {cause : Cause} {w : World} (hheap : w.heap = s₀.heap)
    (hleaves : s₀.Leaves i cause w.output) : (State.fail { s with world := w } cause).Harmless s₀ i := by
  refine ⟨cause, ?_, hheap, hleaves, h.stack, h.frame, h.callers, h.globals, rfl, h.natives, h.steps⟩
  unfold State.error
  rw [h.frame]

theorem fail (h : Fetched s₀ s) {cause : Cause} (hquiet : s₀.Quiet i cause) :
    (s.fail cause).Harmless s₀ i := by
  refine h.failLeaving (congrArg World.heap h.world) ?_
  rw [h.world]
  exact .nothing hquiet

/-! ### Operands -/

section

variable (hop : i.op ≠ .call) {next : Value → State → Transition}
include hop

theorem withTop (h : Fetched s₀ s) (hnext : ∀ v, (next v s).Harmless s₀ i) :
    (s.withTop next).Harmless s₀ i := by
  unfold State.withTop
  split
  · exact hnext s.top
  · exact h.fail (State.quiet_of_op hop)

theorem popping (h : Fetched s₀ s) (hnext : ∀ v t, Fetched s₀ t → (next v t).Harmless s₀ i) :
    (s.popping next).Harmless s₀ i := by
  unfold State.popping
  split
  · exact hnext s.top s.drop h.drop
  · exact h.fail (State.quiet_of_op hop)

theorem popping2 (h : Fetched s₀ s) {next : Value → Value → State → Transition}
    (hnext : ∀ a b t, Fetched s₀ t → (next a b t).Harmless s₀ i) : (s.popping2 next).Harmless s₀ i :=
  popping hop h fun b _ h => popping hop h fun a t h => hnext a b t h

theorem pushing (h : Fetched s₀ s) (r : Except Cause Value) : (s.pushing r).Harmless s₀ i := by
  cases r with
  | ok v => exact h.next rfl
  | error cause => exact h.fail (State.quiet_of_op hop)

end

/-! ### Calls and returns -/

theorem leave (h : Fetched s₀ s) (v : Value) : (s.leave v).Harmless s₀ i := by
  have hnatives := natives_leave s v
  obtain ⟨stack, frame, callers, globals, world, natives, steps, trace?⟩ := s
  cases callers with
  | nil => trivial
  | cons caller callers => exact h.next hnatives

theorem enter (h : Fetched s₀ s) (limits : Limits) (name : String) (f : Function) :
    (s.enter limits name f).Harmless s₀ i := by
  unfold State.enter
  dsimp only
  split
  · exact h.fail (State.quiet_of_cause nofun)
  · split
    · exact h.fail (State.quiet_of_cause nofun)
    · exact h.next rfl

theorem answer (h : Fetched s₀ s) (hop : i.op = .call) {bound : Bound}
    (hbound : s₀.natives.get? i.name = some bound)
    (hstandard : (∃ out, bound.native = Native.log out) ∨ bound.native.Tidy) :
    (s.answer i.name bound (s₀.argumentsFor bound)).Harmless s₀ i := by
  obtain ⟨stack, frame, callers, globals, world, natives, steps, trace?⟩ := s
  obtain rfl : world = s₀.world := h.world
  obtain rfl : natives = s₀.natives := h.natives
  unfold State.answer
  dsimp only
  split
  · exact Dict.forall_get?_insert ⟨bound, hbound, rfl⟩ fun other later hlater => ⟨later, hlater, rfl⟩
  · rename_i detail w hrun
    obtain ⟨hheap, hleaves⟩ := State.leaves_of_failure hop hbound hstandard hrun
    exact h.failLeaving hheap hleaves
  · trivial

end Fetched

/-! ### Instructions -/

section

variable {s : State} {i : Instruction}

theorem harmless_ask (hop : i.op = .call) {bound : Bound} (hbound : s.natives.get? i.name = some bound)
    (hstandard : (∃ out, bound.native = Native.log out) ∨ bound.native.Tidy) :
    (s.ask i.name bound).Harmless s i := by
  unfold State.ask
  split
  · exact (Fetched.refl s).fail (State.quiet_of_cause nofun)
  · split
    · trivial
    · exact ((Fetched.refl s).shrink _).answer hop hbound hstandard

theorem harmless_call (hop : i.op = .call) (hnatives : Standard s.natives) (p : Program)
    (limits : Limits) : (s.call p limits i.name).Harmless s i := by
  unfold State.call
  split
  · exact (Fetched.refl s).enter limits i.name _
  · split
    · rename_i bound hbound
      obtain ⟨out, e, he, hnative⟩ := hnatives i.name bound hbound
      have hstandard : e.native = Native.log out ∨ e.native.Tidy := Native.tidy_standard out e he
      rw [hnative] at hstandard
      exact harmless_ask hop hbound (hstandard.imp_left fun h => ⟨out, h⟩)
    · exact (Fetched.refl s).fail (State.quiet_of_cause nofun)

/-- A call leaves its operands to the function that is called, and the other instructions fail when they have
taken operands at most. -/
theorem harmless_execute (hnatives : Standard s.natives) (p : Program) (limits : Limits) :
    (s.execute p limits i).Harmless s i := by
  have h := Fetched.refl s
  by_cases hop : i.op = .call
  · unfold State.execute
    rw [hop]
    exact harmless_call hop hnatives p limits
  have hquiet : ∀ cause, s.Quiet i cause := fun _ => State.quiet_of_op hop
  obtain ⟨op, literal, name, target, line⟩ := i
  unfold State.execute
  cases op <;> dsimp only
  case call => exact absurd rfl hop
  case value | load | list | object | jump => exact h.next rfl
  case pop => exact h.popping hop fun _ _ h => h.next rfl
  case store => exact h.popping hop fun v t h => h.next (natives_store t name v)
  case append | set =>
    refine h.popping hop fun v t h => h.withTop hop fun c => ?_
    split
    · exact h.next rfl
    · exact h.fail (hquiet _)
  case get =>
    refine h.popping hop fun c t h => ?_
    split
    · exact h.next rfl
    · exact h.fail (hquiet _)
  case put =>
    refine h.popping hop fun v _ h => h.popping2 hop fun c index t h => ?_
    split
    · exact h.next rfl
    · exact h.fail (hquiet _)
  case ret => exact h.popping hop fun v _ h => h.leave v
  case branch =>
    refine h.popping hop fun v _ h => ?_
    split
    · exact h.next rfl
    · exact h.next rfl
  case skipAnd | skipOr =>
    refine h.withTop hop fun v => ?_
    split
    · exact h.next rfl
    · exact h.next rfl
  case not => exact h.popping hop fun _ _ h => h.next rfl
  case negate =>
    refine h.popping hop fun c t h => ?_
    split
    · exact h.next rfl
    · exact h.fail (hquiet _)
  case and | or | equal | notEqual => exact h.popping2 hop fun _ _ _ h => h.next rfl
  case index | add | subtract | multiply | divide | less | lessOrEqual | greater | greaterOrEqual =>
    exact h.popping2 hop fun _ _ _ h => h.pushing hop _
  case unassigned => exact h.fail (hquiet _)

end

/-! ## Steps -/

/-- A step from this state has failed with an error. It was counted, and the error names the instruction at which
the running call stood. The stack is short of operands, the output is as the instruction leaves it, and nothing
else has changed. -/
structure State.FailsWith (s : State) (e : RuntimeError) (s' : State) : Prop where
  globals : s'.globals = s.globals
  heap : s'.heap = s.heap
  callers : s'.callers = s.callers
  frame : s'.frame = { s.frame with ip := s.frame.ip + 1 }
  stack : s'.stack.toList <+: s.stack.toList
  steps : s'.steps = s.steps + 1
  instruction : ∃ i, s.instruction? = some i ∧ e.function = s.frame.function.name ∧
    e.address = s.frame.ip ∧ e.line = i.line ∧ s.Leaves i e.cause s'.world.output

section

variable {p : Program} {limits : Limits} {s s' : State} {cancelled : Bool}

/-- The next instruction stands at the address of the running call. -/
theorem getElem?_of_instruction? {i : Instruction} (hi : s.instruction? = some i) :
    0 ≤ s.frame.ip ∧ s.frame.function.code[s.frame.ip.toNat]? = some i := by
  unfold State.instruction? at hi
  split at hi
  · cases hi
  · rename_i hip
    exact ⟨Int.not_lt.mp hip, hi⟩

/-- An error of the instruction that has begun names it. -/
theorem error_begin {i : Instruction} (hi : s.instruction? = some i) (cause : Cause) :
    s.begin.error cause = ⟨s.frame.function.name, s.frame.ip, i.line, cause⟩ := by
  obtain ⟨hip, hcode⟩ := getElem?_of_instruction? hi
  -- The address is past the instruction by then, and the error steps back.
  have haddress : s.begin.frame.ip - 1 = s.frame.ip := Int.add_sub_cancel _ _
  have hbegun : s.begin.frame.function.code[s.frame.ip.toNat]? = some i := hcode
  simp only [State.error, haddress, hbegun, if_pos hip]
  rfl

/-- Beginning an instruction changes nothing that counts for what is written. -/
theorem State.Leaves.of_begin {i : Instruction} {cause : Cause} {output : String} {trace? : Option String}
    (h : State.Leaves { s.begin with trace? := trace? } i cause output) : s.Leaves i cause output := by
  cases h with
  | nothing hquiet =>
      refine .nothing fun bound out detail hlog => hquiet bound out detail ?_
      exact ⟨hlog.op, hlog.known, hlog.native, hlog.cause⟩
  | part hlog hargs hfailure =>
      exact .part ⟨hlog.op, hlog.known, hlog.native, hlog.cause⟩ hargs hfailure

/-- A step that begins an instruction is harmless, one that ends a call does not fail. -/
theorem harmless_step (hnatives : Standard s.natives) :
    (∃ i, s.instruction? = some i ∧ ∃ trace?,
      (s.step p limits cancelled).Harmless { s.begin with trace? := trace? } i) ∨
    (∃ i, (s.step p limits cancelled).Harmless s i) ∧
      ∀ e s', s.step p limits cancelled ≠ .failed e s' := by
  unfold State.step State.instruction?
  split
  · exact .inr ⟨⟨{ op := .ret }, trivial⟩, by simp⟩
  dsimp only
  split
  · -- Past its code a call comes to its end as if there were a return.
    refine .inr ⟨⟨{ op := .ret }, (Fetched.refl s).leave .null⟩, fun e s' => ?_⟩
    obtain ⟨stack, frame, callers, globals, world, natives, steps, trace?⟩ := s
    cases callers <;> simp [State.leave]
  · rename_i i hi
    refine .inl ⟨i, hi, ?_⟩
    split
    · exact ⟨_, (Fetched.refl s.begin).fail (State.quiet_of_cause nofun)⟩
    · split
      · exact ⟨_, (Fetched.refl s.begin).fail (State.quiet_of_cause nofun)⟩
      · obtain ⟨trace?, hrecorded⟩ := recorded_eq s.begin s.frame.ip.toNat i
        rw [hrecorded]
        exact ⟨trace?, harmless_execute (s := { s.begin with trace? := trace? }) hnatives p limits⟩

theorem standard_step (hnatives : Standard s.natives) (h : s.step p limits cancelled = .next s') :
    Standard s'.natives := by
  have hkept : ∀ name bound, s'.natives.get? name = some bound →
      ∃ earlier, s.natives.get? name = some earlier ∧ earlier.native = bound.native := by
    rcases harmless_step (p := p) hnatives with ⟨i, -, trace?, hharmless⟩ | ⟨⟨i, hharmless⟩, -⟩
    · rw [h] at hharmless
      exact hharmless
    · rw [h] at hharmless
      exact hharmless
  intro name bound hbound
  obtain ⟨earlier, hearlier, hsame⟩ := hkept name bound hbound
  obtain ⟨out, e, he, hnative⟩ := hnatives name earlier hearlier
  exact ⟨out, e, he, hnative.trans hsame⟩

theorem failsWith_of_step (hnatives : Standard s.natives) {e : RuntimeError}
    (h : s.step p limits cancelled = .failed e s') : s.FailsWith e s' := by
  rcases harmless_step (p := p) hnatives with ⟨i, hi, trace?, hharmless⟩ | ⟨-, hnever⟩
  · rw [h] at hharmless
    obtain ⟨cause, rfl, hheap, hleaves, hfetched⟩ := hharmless
    have herror : State.error { s.begin with trace? := trace? } cause = _ := error_begin hi cause
    rw [herror]
    exact ⟨hfetched.globals, hheap, hfetched.callers, hfetched.frame, hfetched.stack, hfetched.steps, i, hi,
      rfl, rfl, rfl, hleaves.of_begin⟩
  · exact absurd h (hnever e s')

/-! ## Runs -/

theorem standard_reachable {first : State} (hfirst : Standard first.natives)
    (h : Reachable p limits first s) : Standard s.natives := by
  induction h with
  | first => exact hfirst
  | next cancelled _ hstep ih => exact standard_step ih hstep

/-- A run that fails has come to the state in which it failed. -/
theorem exists_reachable_of_failed {first : State} {patience : Nat} {e : RuntimeError}
    (hreachable : Reachable p limits first s)
    (h : proceed p limits cancelled patience s = (.failed e, s')) :
    ∃ t, Reachable p limits first t ∧ t.step p limits cancelled = .failed e s' := by
  induction patience generalizing s with
  | zero => cases h
  | succ patience ih =>
      rw [proceed] at h
      cases hstep : s.step p limits cancelled with
      | next t =>
          rw [hstep] at h
          exact ih (hreachable.next cancelled hstep) h
      | finished | breakdown =>
          rw [hstep] at h
          cases h
      | failed e' t =>
          rw [hstep] at h
          cases h
          exact ⟨s, hreachable, hstep⟩

/-- A run of one step that fails. -/
theorem step_of_proceed {e : RuntimeError} (h : proceed p limits cancelled 1 s = (.failed e, s')) :
    s.step p limits cancelled = .failed e s' := by
  rw [proceed] at h
  cases hstep : s.step p limits cancelled <;> rw [hstep] at h <;> cases h
  rfl

end

/-- What failures leave behind. Whenever a step fails, with the standard host functions and in any state,
the globals, the variables of all calls and the containers are those before it, and the error names the
function, the address and the line of the instruction, which is counted. The output is that before it too,
unless a call of `log` fails with its writer: then it has grown by the bytes that the writer has taken of the
line. So a run that fails leaves the globals, the containers and the output to the host as the failing
instruction left them. -/
theorem failures_leave_what_was_written (p : Program) :
    (∀ (limits : Limits) (cancelled : Bool) (s s' : State) (e : RuntimeError),
      Standard s.natives → s.step p limits cancelled = .failed e s' → s.FailsWith e s') ∧
    ∀ (m : Machine) (patience : Nat) (cancelled : Bool) (e : RuntimeError),
      Standard m.natives → (m.runFor patience p cancelled).outcome = .failed e →
        ∃ main s s', p.main? = some main ∧ Reachable p m.limits (m.start main) s ∧
          s.step p m.limits cancelled = .failed e s' ∧ s.FailsWith e s' ∧
          (m.runFor patience p cancelled).machine.globals = s.globals ∧
          (m.runFor patience p cancelled).machine.heap = s.heap ∧
          (m.runFor patience p cancelled).machine.steps = s.steps + 1 ∧
          (m.runFor patience p cancelled).output = s'.world.output := by
  refine ⟨fun limits cancelled s s' e hnatives => failsWith_of_step hnatives, ?_⟩
  intro m patience cancelled e hnatives hfailed
  unfold runFor at hfailed ⊢
  cases hmain : p.main? with
  | none =>
      rw [hmain] at hfailed
      cases hfailed
  | some main =>
      rw [hmain] at hfailed
      obtain ⟨s', hproceed⟩ : ∃ s',
          proceed p m.limits cancelled patience (m.start main) = (.failed e, s') :=
        ⟨_, Prod.ext hfailed rfl⟩
      obtain ⟨s, hreachable, hstep⟩ := exists_reachable_of_failed .first hproceed
      have hfails := failsWith_of_step (standard_reachable hnatives hreachable) hstep
      dsimp only
      rw [hproceed]
      exact ⟨main, s, s', rfl, hreachable, hstep, hfails, hfails.globals, hfails.heap, hfails.steps, rfl⟩

/-- The error that a run has ended with. -/
def Outcome.error? : Outcome → Option RuntimeError
  | .failed e => some e
  | .value _ | .noTopLevel | .breakdown _ | .unfinished => none

theorem Outcome.eq_failed {outcome : Outcome} {e : RuntimeError} (h : outcome.error? = some e) :
    outcome = .failed e := by
  cases outcome <;> cases h
  rfl

/-- Host functions of which `log` is the only one. -/
theorem standard_log (out : Native.Writer) (arity : Int) :
    Standard (Dict.insert ∅ "log" ⟨Native.log out, arity, 0⟩) := by
  intro name bound hbound
  have hmem : (name, bound) ∈ [("log", (⟨Native.log out, arity, 0⟩ : Bound))] :=
    Dict.get?_eq_some_iff.mp hbound
  cases List.mem_singleton.mp hmem
  exact ⟨out, _, List.mem_cons_self, rfl⟩

/-- A writer that takes the first text, and one byte of the second. -/
def fullAfterOne : Native.Writer := ⟨fun number _ => if number = 2 then some (1, "short write") else none⟩

/-- Two texts are logged. -/
def logTwice : Program :=
  ⟨Dict.insert ∅ topLevel
    { name := topLevel
      code? := some #[{ op := .value, literal := .ofString "ab", line := 1 },
        { op := .call, name := "log", line := 1 }, { op := .pop, line := 1 },
        { op := .value, literal := .ofString "cd", line := 2 }, { op := .call, name := "log", line := 2 }] }⟩

/-- What was written before the failure stays, with one byte of the second line, which the error names. -/
theorem failures_leave_what_was_written_logTwice :
    let m : Machine := Machine.bind {} "log" 1 (Native.log fullAfterOne)
    let e : RuntimeError := ⟨topLevel, 4, 2, .nativeFailure "log" "short write"⟩
    (m.runFor 5 logTwice).outcome = .failed e ∧ (m.runFor 5 logTwice).output = "ab\nc" ∧
      ∃ s s' : State, s.FailsWith e s' ∧ (m.runFor 5 logTwice).machine.globals = s.globals ∧
        s'.world.output = "ab\nc" := by
  intro m e
  have hfailed : (m.runFor 5 logTwice).outcome = .failed e := Outcome.eq_failed (by decide +kernel)
  have houtput : (m.runFor 5 logTwice).output = "ab\nc" := by decide +kernel
  obtain ⟨main, s, s', -, -, -, hfails, hglobals, -, -, hwritten⟩ :=
    (failures_leave_what_was_written logTwice).2 m 5 false e (standard_log fullAfterOne 1) hfailed
  exact ⟨hfailed, houtput, s, s', hfails, hglobals, hwritten.symm.trans houtput⟩

/-- A call of `log` with a text, where the writer takes a byte and fails. -/
def shortCall : State where
  stack := #[.string "ab"]
  frame := { function := { name := topLevel, code? := some #[{ op := .call, name := "log", line := 1 }] } }
  globals := ∅
  world := {}
  natives := Dict.insert ∅ "log" ⟨Native.log ⟨fun _ _ => some (1, "short write")⟩, 1, 0⟩

/-- Failures are not without any effect. The output may have grown by a part of a line, and the instruction is
counted, also when it only meets a limit: a machine that stops a loop behind two instructions tells of three. -/
theorem failures_have_effects :
    (¬ ∀ (p : Program) (limits : Limits) (cancelled : Bool) (s s' : State) (e : RuntimeError),
      Standard s.natives → s.step p limits cancelled = .failed e s' → s'.world.output = s.world.output) ∧
    (¬ ∀ (p : Program) (limits : Limits) (cancelled : Bool) (s s' : State) (e : RuntimeError),
      Standard s.natives → s.step p limits cancelled = .failed e s' → s'.steps = s.steps) ∧
    ∃ p, ({} : Compiler).compileSource "while true\nend" = .ok p ∧
      (Machine.runFor { limits := { steps := 2 } } 3 p).outcome = .failed ⟨topLevel, 2, 1, .stepLimit⟩ ∧
      (Machine.runFor { limits := { steps := 2 } } 3 p).machine.steps = 3 := by
  have hshort : (proceed ⟨∅⟩ {} false 1 shortCall).1.error? =
        some ⟨topLevel, 0, 1, .nativeFailure "log" "short write"⟩ ∧
      (proceed ⟨∅⟩ {} false 1 shortCall).2.world.output = "a" ∧
      (proceed ⟨∅⟩ {} false 1 shortCall).2.steps = 1 := by
    decide +kernel
  obtain ⟨herror, houtput, hsteps⟩ := hshort
  have hstep := step_of_proceed (Prod.ext (Outcome.eq_failed herror) rfl)
  have hstandard : Standard shortCall.natives := standard_log _ 1
  refine ⟨fun h => ?_, fun h => ?_, ?_⟩
  · have hsame := houtput.symm.trans (h _ _ _ _ _ _ hstandard hstep)
    exact absurd hsame (by decide)
  · have hsame := hsteps.symm.trans (h _ _ _ _ _ _ hstandard hstep)
    exact absurd hsame (by decide)
  · have hloop : (({} : Compiler).compileSource "while true\nend").toOption.map (fun p =>
        ((Machine.runFor { limits := { steps := 2 } } 3 p).outcome.error?,
          (Machine.runFor { limits := { steps := 2 } } 3 p).machine.steps)) =
        some (some ⟨topLevel, 2, 1, .stepLimit⟩, 3) := by
      decide +kernel
    obtain ⟨p, hp, hrun⟩ := Option.map_eq_some_iff.mp hloop
    obtain ⟨hfailed, hcount⟩ := Prod.mk.inj hrun
    exact ⟨p, Registry.eq_ok_of_toOption hp, Outcome.eq_failed hfailed, hcount⟩

end Machine

end LineScript
