/-
# Executing instructions

One instruction at a time, a state is taken to the next one, to the end of the run, to an error or to
a breakdown of the host. An instruction that fails has taken nothing but its operands off the stack:
the globals, the variables of every call, the heap and the output are as they were, unless a host
function has changed the last two before it failed.
-/

import LineScript.Machine.State

namespace LineScript.Machine

open LineScript.Code

/-- What one step of a run leads to. -/
inductive Transition where
  | next (s : State)
  | finished (v : Value) (s : State)
  | failed (e : RuntimeError) (s : State)
  | breakdown (detail : String) (s : State)

namespace State

/-- The instruction fails. -/
def fail (s : State) (cause : Cause) : Transition := .failed (s.error cause) s

/-- Goes on with the topmost value, which stays on the stack. -/
@[inline] def withTop (s : State) (continuation : Value → State → Transition) : Transition :=
  if s.hasTop then continuation s.top s else s.fail .underflow

/-- Takes the topmost value off the stack and goes on with it. -/
@[inline] def popping (s : State) (continuation : Value → State → Transition) : Transition :=
  if s.hasTop then
    let v := s.top
    continuation v s.drop
  else s.fail .underflow

/-- Takes the two topmost values off the stack and goes on with them; the upper one comes second. -/
@[inline] def popping2 (s : State) (continuation : Value → Value → State → Transition) : Transition :=
  s.popping fun b s => s.popping fun a s => continuation a b s

/-- Puts the result of an operator on the stack, or fails as the operator did. -/
def pushing (s : State) : Except Cause Value → Transition
  | .ok v => .next (s.push v)
  | .error cause => s.fail cause

/-- Ends the running call with a value: its part of the stack is dropped and the caller gets the value;
at the top level the run is over. -/
def leave : State → Value → Transition
  | ⟨stack, frame, [], globals, world, natives, steps, trace?⟩, v =>
    .finished v ⟨stack.shrink frame.base, frame, [], globals, world, natives, steps, trace?⟩
  | ⟨stack, frame, caller :: callers, globals, world, natives, steps, trace?⟩, v =>
    .next ⟨(stack.shrink frame.base).push v, caller, callers, globals, world, natives, steps, trace?⟩

/-- The variables of a call: every parameter has its argument. -/
def arguments (params : List String) (values : List Value) : Dict Value :=
  (params.zip values).foldl (fun locals (param, v) => locals.insert param v) ∅

/-- Calls a function of the program: its arguments move from the stack into its variables. -/
def enter (s : State) (limits : Limits) (name : String) (f : Function) : Transition :=
  let arity := f.arity
  if s.stack.size < s.frame.base + arity then s.fail (.missingArguments name)
  else if 0 < limits.depth ∧ limits.depth ≤ s.depth then s.fail .depthLimit
  else
    let base := s.stack.size - arity
    let locals := arguments f.params (s.stack.extract base s.stack.size).toList
    .next { s with
      stack := s.stack.shrink base
      frame := { function := f, base := base, locals? := some locals }
      callers := s.frame :: s.callers }

/-- Hands arguments to a host function, whose answer is put on the stack. -/
def answer : State → String → Bound → List Value → Transition
  | ⟨stack, frame, callers, globals, world, natives, steps, trace?⟩, name, bound, args =>
    let calls := bound.calls + 1
    match bound.native.run calls args world with
    | (.value v, world) =>
      let natives := natives.insert name { bound with calls := calls }
      .next ⟨stack.push v, frame, callers, globals, world, natives, steps, trace?⟩
    | (.failure detail, world) =>
      fail ⟨stack, frame, callers, globals, world, natives, steps, trace?⟩ (.nativeFailure name detail)
    | (.breakdown detail, world) =>
      .breakdown detail ⟨stack, frame, callers, globals, world, natives, steps, trace?⟩

/-- Calls a host function: its arguments leave the stack. -/
def ask (s : State) (name : String) (bound : Bound) : Transition :=
  if (s.stack.size : Int) - bound.arity < s.frame.base then s.fail (.missingArguments name)
  else if bound.arity < 0 then .breakdown "negative argument count" s
  else
    let base := s.stack.size - bound.arity.toNat
    let args := (s.stack.extract base s.stack.size).toList
    answer { s with stack := s.stack.shrink base } name bound args

/-- Calls what a name stands for: a function of the program first, then a host function. The top level
cannot be called. -/
def call (s : State) (p : Program) (limits : Limits) (name : String) : Transition :=
  match (if name = topLevel then none else p.functions.get? name) with
  | some f => s.enter limits name f
  | none =>
    match s.natives.get? name with
    | some bound => s.ask name bound
    | none => s.fail (.undefinedFunction name)

/-- Carries out an instruction. -/
def execute (s : State) (p : Program) (limits : Limits) (i : Instruction) : Transition :=
  match i.op with
  | .value => .next (s.push (.ofLiteral i.literal))
  | .pop => s.popping fun _ s => .next s
  | .load => .next (s.push (s.load i.name))
  | .store => s.popping fun v s => .next (s.store i.name v)
  | .list => .next (s.pushNew (·.newList #[]))
  | .append =>
    s.popping fun v s => s.withTop fun c s =>
      match c with
      | .ref (.list place) => .next (s.mapHeap (·.append place v))
      | c => s.fail (.wrongKind "append to" c.kind)
  | .object => .next (s.pushNew (·.newObject {}))
  | .set =>
    s.popping fun v s => s.withTop fun c s =>
      match c with
      | .ref (.object place) => .next (s.mapHeap (·.setMember place i.name v))
      | c => s.fail (.wrongKind ("set member " ++ i.name ++ " of") c.kind)
  | .get =>
    s.popping fun c s =>
      match c with
      | .ref (.object place) => .next (s.push (((s.heap.object place).get? i.name).getD .null))
      | c => s.fail (.wrongKind ("get member " ++ i.name ++ " of") c.kind)
  | .index => s.popping2 fun c index s => s.pushing (element s.heap c index)
  | .put =>
    s.popping fun v s => s.popping2 fun c index s =>
      match slot s.heap c index with
      | .ok place => .next (s.mapHeap (·.write place v))
      | .error cause => s.fail cause
  | .call => s.call p limits i.name
  | .ret => s.popping fun v s => s.leave v
  | .jump => .next (s.jump i.target)
  | .branch => s.popping fun v s => .next (if v.truthy then s else s.jump i.target)
  | .skipAnd => s.withTop fun v s => .next (if v.truthy then s else s.jump i.target)
  | .skipOr => s.withTop fun v s => .next (if v.truthy then s.jump i.target else s)
  | .and => s.popping2 fun a b s => .next (s.push (.boolean (a.truthy && b.truthy)))
  | .or => s.popping2 fun a b s => .next (s.push (.boolean (a.truthy || b.truthy)))
  | .not => s.popping fun v s => .next (s.push (.boolean (!v.truthy)))
  | .negate =>
    s.popping fun v s =>
      match v with
      | .number x => .next (s.push (.number (-x)))
      | v => s.fail (.wrongKind "negate" v.kind)
  | .add => s.popping2 fun a b s => s.pushing (add s.heap a b)
  | .subtract | .multiply | .divide => s.popping2 fun a b s => s.pushing (arithmetic i.op a b)
  | .equal => s.popping2 fun a b s => .next (s.push (.boolean (a.equal b)))
  | .notEqual => s.popping2 fun a b s => .next (s.push (.boolean (!a.equal b)))
  | .less | .lessOrEqual | .greater | .greaterOrEqual =>
    s.popping2 fun a b s => s.pushing (compare i.op a b)
  | .unassigned _ => s.fail (.unknownOpcode i.op.label)

/-- The line that the record of a run has for an instruction. -/
def traceLine (s : State) (address : Nat) (i : Instruction) : String :=
  "[" ++ s.frame.function.name ++ " " ++ Text.fourDigits address ++ "] " ++ Text.padRight 24 i.text
    ++ " sp=" ++ toString s.stack.size ++ "\n"

/-- The state with the next instruction begun: counted, and passed over. -/
def begin : State → State
  | ⟨stack, ⟨function, ip, base, locals?⟩, callers, globals, world, natives, steps, trace?⟩ =>
    ⟨stack, ⟨function, ip + 1, base, locals?⟩, callers, globals, world, natives, steps + 1, trace?⟩

/-- Adds an instruction to the record, when one is kept. -/
def recorded (s : State) (address : Nat) (i : Instruction) : State :=
  match s.trace? with
  | none => s
  | some trace => { s with trace? := some (trace ++ s.traceLine address i) }

end State

/-- How often a run looks whether it has been cancelled. -/
def cancelInterval : Nat := 256

/-- One step: past the end of the code the call returns null, before its beginning the host breaks down,
and in between an instruction is executed unless a limit or a cancellation forbids it. -/
def State.step (s : State) (p : Program) (limits : Limits) (cancelled : Bool) : Transition :=
  if s.frame.ip < 0 then .breakdown "instruction address out of range" s
  else
    let address := s.frame.ip.toNat
    match s.frame.function.code[address]? with
    | none => s.leave .null
    | some i =>
      let s := s.begin
      if 0 < limits.steps ∧ limits.steps < s.steps then s.fail .stepLimit
      else if s.steps % cancelInterval = 0 ∧ cancelled then s.fail .cancelled
      else (s.recorded address i).execute p limits i

end LineScript.Machine
