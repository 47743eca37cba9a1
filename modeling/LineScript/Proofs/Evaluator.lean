/-
# The meaning of trees

What a script does, by recursion over its tree: no addresses, no stack and no jumps.
An expression gives a value, a statement goes on or gives a value back, and both may
fail. Only calls and loops can go on for ever. So calls are counted down along the
depth of the calls and loops along their rounds, and an evaluation whose count is spent
says so; a script runs for ever when every count is spent.

The operators on values, the heap and the host functions are those of the machine.
-/

import LineScript.Machine.Run
import LineScript.Proofs.Scope

namespace LineScript

open LineScript.Machine

/-! ## Operators -/

/-- Whether the left operand settles the value of an operator. -/
def BinaryOp.settles : BinaryOp → Value → Bool
  | .or, v => v.truthy
  | .and, v => !v.truthy
  | _, _ => false

/-- The value of an operator whose operands are both there. -/
def BinaryOp.apply (o : BinaryOp) (h : Heap) (a b : Value) : Except Cause Value :=
  match o with
  | .or => .ok (.boolean (a.truthy || b.truthy))
  | .and => .ok (.boolean (a.truthy && b.truthy))
  | .add => Machine.add h a b
  | .subtract | .multiply | .divide => arithmetic o.opcode a b
  | .equal => .ok (.boolean (a.equal b))
  | .notEqual => .ok (.boolean (!a.equal b))
  | .less | .lessOrEqual | .greater | .greaterOrEqual => compare o.opcode a b

/-- The value of a unary operator. A plus leaves its operand, whatever it is. -/
def UnaryOp.apply : UnaryOp → Value → Except Cause Value
  | .plus, v => .ok v
  | .minus, .number x => .ok (.number (-x))
  | .minus, v => .error (.wrongKind "negate" v.kind)
  | .not, v => .ok (.boolean (!v.truthy))

end LineScript

namespace LineScript.Tree

open LineScript.Machine

/-! ## Evaluations -/

/-- What an evaluation reads and changes. The top level has no variables besides the
globals. -/
structure Store where
  locals? : Option (Dict Value) := none
  globals : Dict Value
  world : World
  natives : Dict Bound

namespace Store

/-- Reads a variable: a local one when it is among the given ones, else a global. -/
def load (own : String → Bool) (name : String) (st : Store) : Value :=
  let scope := if own name then st.locals?.getD st.globals else st.globals
  (scope.get? name).getD .null

/-- Assigns a variable, local or global by the same rule. -/
def assign (own : String → Bool) (name : String) (v : Value) (st : Store) : Store :=
  match own name, st.locals? with
  | true, some locals => { st with locals? := some (locals.insert name v) }
  | _, _ => { st with globals := st.globals.insert name v }

/-- The heap. -/
def heap (st : Store) : Heap := st.world.heap

/-- Changes the heap. -/
def mapHeap (f : Heap → Heap) (st : Store) : Store :=
  { st with world := { st.world with heap := f st.world.heap } }

end Store

/-- How an evaluation ends. -/
inductive Ending (α : Type) where
  | done (a : α)
  | failed (cause : Cause)
  /-- The host broke down. -/
  | broken (detail : String)
  /-- A count was spent before the end. -/
  | spent

/-- An evaluation: it ends in some way and leaves a store. -/
def Eval (α : Type) : Type := Store → Ending α × Store

namespace Eval

variable {α β : Type}

/-- Goes on with a value, if there is one. -/
def andThen (m : Eval α) (f : α → Eval β) : Eval β := fun st =>
  match m st with
  | (.done a, st) => f a st
  | (.failed cause, st) => (.failed cause, st)
  | (.broken detail, st) => (.broken detail, st)
  | (.spent, st) => (.spent, st)

instance : Monad Eval where
  pure a := fun st => (.done a, st)
  bind := andThen

/-- Looks something up in the store. -/
def look (f : Store → α) : Eval α := fun st => (.done (f st), st)

/-- Changes the store. -/
def change (f : Store → Store) : Eval Unit := fun st => (.done (), f st)

/-- The result of an operator, or its failure. -/
def operate (f : Heap → Except Cause α) : Eval α := fun st =>
  match f st.heap with
  | .ok a => (.done a, st)
  | .error cause => (.failed cause, st)

/-- The count is spent. -/
def stop : Eval α := fun st => (.spent, st)

/-- Makes a new list and gives its place. -/
def newList : Eval Nat := fun st =>
  (.done st.heap.lists.size, st.mapHeap fun h => (h.newList #[]).2)

/-- Makes a new object and gives its place. -/
def newObject : Eval Nat := fun st =>
  (.done st.heap.objects.size, st.mapHeap fun h => (h.newObject {}).2)

theorem bind_done {m : Eval α} {k : α → Eval β} {st st' : Store} {a : α}
    (h : m st = (.done a, st')) : (m >>= k) st = k a st' := by
  change andThen m k st = k a st'
  unfold andThen
  rw [h]

theorem operate_bind_ok {f : Heap → Except Cause α} {k : α → Eval β} {st : Store} {a : α}
    (h : f st.heap = .ok a) : (operate f >>= k) st = k a st := by
  refine bind_done ?_
  unfold operate
  rw [h]

theorem operate_bind_error {f : Heap → Except Cause α} {k : α → Eval β} {st : Store}
    {cause : Cause} (h : f st.heap = .error cause) :
    (operate f >>= k) st = (.failed cause, st) := by
  change andThen (operate f) k st = _
  unfold andThen operate
  rw [h]

end Eval

/-! ## Expressions -/

/-- The member of an object. -/
def memberOf (name : String) (v : Value) (h : Heap) : Except Cause Value :=
  match v with
  | .ref (.object place) => .ok (((h.object place).get? name).getD .null)
  | v => .error (.wrongKind ("get member " ++ name ++ " of") v.kind)

/-- The object whose member is assigned. -/
def ownerOf (name : String) (v : Value) : Except Cause Nat :=
  match v with
  | .ref (.object place) => .ok place
  | v => .error (.wrongKind ("set member " ++ name ++ " of") v.kind)

section

variable (own : String → Bool) (invoke : String → List Value → Eval Value)

mutual

/-- The value of an expression. -/
def Expr.eval : Expr → Eval Value
  | .null => pure .null
  | .literal value => pure (.ofLiteral value)
  | .name text => Eval.look (Store.load own text)
  | .call function arguments => do
    let values ← arguments.eval
    invoke function values
  | .list items => do
    let place ← Eval.newList
    items.fill place
    pure (.list place)
  | .object members => do
    let place ← Eval.newObject
    members.fill place
    pure (.object place)
  | .index container position => do
    let c ← container.eval
    let i ← position.eval
    Eval.operate (element · c i)
  | .member object name => do
    let c ← object.eval
    Eval.operate (memberOf name c)
  | .unary o operand => do
    let v ← operand.eval
    Eval.operate fun _ => o.apply v
  | .binary o left right => do
    let a ← left.eval
    if o.settles a then pure a
    else
      let b ← right.eval
      Eval.operate (o.apply · a b)

/-- The values of arguments, from left to right. -/
def Exprs.eval : Exprs → Eval (List Value)
  | .nil => pure []
  | .cons first rest => do
    let v ← first.eval
    let values ← rest.eval
    pure (v :: values)

/-- Appends the values of elements to a list. -/
def Exprs.fill : Exprs → Nat → Eval Unit
  | .nil, _ => pure ()
  | .cons first rest, place => do
    let v ← first.eval
    Eval.change (Store.mapHeap (·.append place v))
    rest.fill place

/-- Sets the members of an object. -/
def Members.fill : Members → Nat → Eval Unit
  | .nil, _ => pure ()
  | .cons name value rest, place => do
    let v ← value.eval
    Eval.change (Store.mapHeap (·.setMember place name v))
    rest.fill place

end

/-! ## Statements -/

/-- How a statement leaves the function it stands in: going on, or giving a value
back. -/
inductive Flow where
  | next
  | back (v : Value)

/-- The effect of a simple statement. The container of an assigned element is looked up
before the position and the value. -/
def Simple.eval : Simple → Eval Flow
  | .assign name value => do
    let v ← value.eval own invoke
    Eval.change (Store.assign own name v)
    pure .next
  | .assignElement name position value => do
    let c ← Eval.look (Store.load own name)
    let i ← position.eval own invoke
    let v ← value.eval own invoke
    let place ← Eval.operate (slot · c i)
    Eval.change (Store.mapHeap (·.write place v))
    pure .next
  | .assignMember name member value => do
    let c ← Eval.look (Store.load own name)
    let v ← value.eval own invoke
    let place ← Eval.operate fun _ => ownerOf member c
    Eval.change (Store.mapHeap (·.setMember place member v))
    pure .next
  | .discard value => do
    let _ ← value.eval own invoke
    pure .next
  | .giveBack none => pure (.back .null)
  | .giveBack (some value) => do
    let v ← value.eval own invoke
    pure (.back v)

/-- Goes on behind a statement that went on. -/
def Eval.andNext (m rest : Eval Flow) : Eval Flow := do
  match ← m with
  | .next => rest
  | .back v => pure (.back v)

/-- One of two ways, by a condition. -/
def Eval.choose (condition : Eval Value) (yes no : Eval Flow) : Eval Flow := do
  let v ← condition
  if v.truthy then yes else no

/-- Rounds of a loop, at most as many as the count says. -/
def Eval.repeat (condition : Eval Value) (body : Eval Flow) : Nat → Eval Flow
  | 0 => Eval.stop
  | count + 1 =>
    Eval.choose condition (Eval.andNext body (Eval.repeat condition body count)) (pure .next)

mutual

/-- The effect of a statement. Where a function is defined, nothing happens. -/
def Stmt.eval (count : Nat) : Stmt → Eval Flow
  | .simple x => x.eval own invoke
  | .when condition x =>
    Eval.choose (condition.eval own invoke) (x.eval own invoke) (pure .next)
  | .choose condition body arms =>
    Eval.choose (condition.eval own invoke) (body.eval count) (arms.eval count)
  | .loop condition body => Eval.repeat (condition.eval own invoke) (body.eval count) count
  | .function _ _ _ => pure .next

/-- The effect of statements in a row. -/
def Block.eval (count : Nat) : Block → Eval Flow
  | .nil => pure .next
  | .cons first rest => Eval.andNext (first.eval count) (rest.eval count)

/-- The effect of the further arms of a conditional. -/
def Arms.eval (count : Nat) : Arms → Eval Flow
  | .done => pure .next
  | .otherwise body => body.eval count
  | .elif condition body arms =>
    Eval.choose (condition.eval own invoke) (body.eval count) (arms.eval count)

end

end

/-! ## Calls and scripts -/

/-- The value that statements give back; null when they went on to their end. -/
def Flow.value : Flow → Value
  | .next => .null
  | .back v => v

/-- Asks a host function, counting the call. -/
def host (name : String) (values : List Value) : Eval Value := fun st =>
  match st.natives.get? name with
  | none => (.failed (.undefinedFunction name), st)
  | some bound =>
    match bound.native.run (bound.calls + 1) values st.world with
    | (.value v, world) =>
      let natives := st.natives.insert name { bound with calls := bound.calls + 1 }
      (.done v, { st with world := world, natives := natives })
    | (.failure detail, world) => (.failed (.nativeFailure name detail), { st with world := world })
    | (.breakdown detail, world) => (.broken detail, { st with world := world })

/-- Evaluates the statements of a function with variables of its own. -/
def within (locals : Dict Value) (m : Eval Flow) : Eval Value := fun st =>
  let (ending, after) := m { st with locals? := some locals }
  let after := { after with locals? := st.locals? }
  match ending with
  | .done flow => (.done flow.value, after)
  | .failed cause => (.failed cause, after)
  | .broken detail => (.broken detail, after)
  | .spent => (.spent, after)

/-- The function with a name; a later one goes before an earlier one. -/
def Definition.find? (name : String) : List Definition → Option Definition
  | [] => none
  | f :: rest => (find? name rest).or (if name = f.name then some f else none)

/-- Calls what a name stands for: a function of the script first, then a host function.
Calls nest at most as deep as the count says. -/
def invoke (functions : List Definition) : Nat → String → List Value → Eval Value
  | 0, _, _ => Eval.stop
  | count + 1, name, values =>
    match Definition.find? name functions with
    | some f =>
      within (State.arguments f.params values) (f.body.eval f.own (invoke functions count) count)
    | none => host name values

/-- What a script gives back. It can call the functions it defines and the given earlier
ones. -/
def Block.run (earlier : List Definition) (scope : Scope) (count : Nat) (b : Block) : Eval Value := do
  let flow ← b.eval (b.after scope).own (invoke (earlier ++ b.definitions scope) count) count
  pure flow.value

end LineScript.Tree
