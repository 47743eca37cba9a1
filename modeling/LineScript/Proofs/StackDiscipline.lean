/-
# Runs keep to the stack heights

In every state of a run of a compiled program, the running call has exactly as many
values on the stack as the height of the next instruction says, and every caller will
have as many as its own height says once it gets its value back. This is an invariant:
one step preserves it, because each instruction fits, and a run is a sequence of
steps. Since no instruction needs more than the height, none ever finds the stack
short of a value.

The heights come from the code alone, and the arguments of a call from the signature
the compiler saw. So the machine has to have the host functions of the same registry.
-/

import LineScript.Registry
import LineScript.Proofs.ProgramTrees
import LineScript.Proofs.Scanning
import LineScript.Proofs.StackHeights

namespace LineScript.Machine

open LineScript.Code LineScript.Tree

/-! ## Failures of operators -/

/-- Whether a cause is a mistake in what a script computes with. -/
def Cause.isMistake : Cause → Bool
  | .wrongKind _ _ | .wrongKinds _ _ _ | .divisionByZero | .indexNotNumber _ | .indexNotInteger _
  | .indexOutOfRange _ _ | .keyNotString _ => true
  | _ => false

theorem Cause.category_of_isMistake {cause : Cause} (h : cause.isMistake = true) :
    cause.category = .other := by
  cases cause
  case wrongKind | wrongKinds | divisionByZero | indexNotNumber | indexNotInteger |
      indexOutOfRange | keyNotString => rfl
  all_goals cases h

/-- A result whose failures are mistakes of the script. -/
def Ordinary {α : Type} (r : Except Cause α) : Prop := ∀ cause, r = .error cause → cause.isMistake = true

theorem ordinary_ok {α : Type} (a : α) : Ordinary (.ok a) := nofun

theorem ordinary_error {α : Type} {cause : Cause} (h : cause.isMistake = true) :
    Ordinary (.error cause : Except Cause α) := by
  rintro _ ⟨⟩
  exact h

theorem Ordinary.map {α β : Type} {r : Except Cause α} (h : Ordinary r) (f : α → β) :
    Ordinary (r.map f) := by
  cases r with
  | error cause => exact ordinary_error (h cause rfl)
  | ok a => exact ordinary_ok _

theorem ordinary_add (h : Heap) (a b : Value) : Ordinary (add h a b) := by
  unfold add
  split
  · exact ordinary_ok _
  · split
    · exact ordinary_ok _
    · exact ordinary_error rfl

theorem ordinary_arithmetic (op : Opcode) (a b : Value) : Ordinary (arithmetic op a b) := by
  unfold arithmetic
  split
  · split
    · exact ordinary_ok _
    · exact ordinary_ok _
    · split
      · exact ordinary_error rfl
      · exact ordinary_ok _
  · exact ordinary_error rfl

theorem ordinary_order (a b : Value) : Ordinary (order a b) := by
  unfold order
  split
  · exact ordinary_ok _
  · exact ordinary_ok _
  · exact ordinary_error rfl

theorem ordinary_compare (op : Opcode) (a b : Value) : Ordinary (compare op a b) :=
  (ordinary_order a b).map _

theorem ordinary_position (index : Value) (length : Nat) : Ordinary (position index length) := by
  unfold position
  split
  · dsimp only
    split
    · exact ordinary_error rfl
    · split
      · exact ordinary_ok _
      · exact ordinary_error rfl
  · exact ordinary_error rfl

theorem ordinary_element (h : Heap) (container index : Value) :
    Ordinary (element h container index) := by
  unfold element
  split
  · exact (ordinary_position _ _).map _
  · exact (ordinary_position _ _).map _
  · split
    · exact ordinary_ok _
    · exact ordinary_error rfl
  · exact ordinary_error rfl

theorem ordinary_slot (h : Heap) (container index : Value) : Ordinary (slot h container index) := by
  unfold slot
  split
  · exact (ordinary_position _ _).map _
  · split
    · exact ordinary_ok _
    · exact ordinary_error rfl
  · exact ordinary_error rfl

/-! ## The invariant -/

/-- A transition that keeps to the stack: the next state has the invariant, a failure
is not for want of a value, and the end of the run leaves what the machine keeps. -/
def Transition.Safe (inv ended : State → Prop) : Transition → Prop
  | .next s => inv s
  | .failed e s => e.cause.category ≠ .underflow ∧ ended s
  | .finished _ s | .breakdown _ s => ended s

/-- The heights of all functions of a program are right. -/
def Fitting (c : Compiler) (p : Program) : Prop :=
  ∀ name f, p.functions.get? name = some f →
    ∃ boundaries, Fitted (c.arity? p) (f.code.toList.map Instruction.unplaced) boundaries

/-- The height at an address of a function. -/
def height (c : Compiler) (p : Program) (f : Function) (address : Nat) : Nat :=
  heightAt (c.arity? p) (f.code.toList.map Instruction.unplaced) address

/-- A call stands at an address of a function of the program. -/
structure Standing (p : Program) (frame : Frame) (address : Nat) : Prop where
  function : ∃ name, p.functions.get? name = some frame.function
  ip : frame.ip = address
  le : address ≤ frame.function.length

/-- Every waiting call gets the height its next instruction asks for when the call above
it, which begins at the given place, hands over its value. -/
def Waiting (c : Compiler) (p : Program) : Nat → List Frame → Prop
  | _, [] => True
  | base, caller :: callers =>
    (∃ address, Standing p caller address ∧
      base + 1 = caller.base + height c p caller.function address) ∧
    Waiting c p caller.base callers

/-- The host functions that a compiler knows are there and take as many arguments. -/
def Served (c : Compiler) (natives : Dict Bound) : Prop :=
  ∀ name params, c.natives.get? name = some params →
    ∃ bound, natives.get? name = some bound ∧ bound.arity = params.length

/-- Counting a call of a host function leaves what it takes. -/
theorem Served.insert {c : Compiler} {natives : Dict Bound} {name : String} {bound : Bound}
    (calls : Nat) (h : Served c natives) (hbound : natives.get? name = some bound) :
    Served c (natives.insert name { bound with calls := calls }) := by
  intro n params hn
  obtain ⟨found, hfound, hcount⟩ := h n params hn
  by_cases hname : n = name
  · subst hname
    rw [hbound] at hfound
    cases hfound
    exact ⟨_, Dict.get?_insert_self _ _ _, hcount⟩
  · exact ⟨found, by rw [Dict.get?_insert_of_ne _ _ hname]; exact hfound, hcount⟩

/-- A state that stands at an address with the given number of values of its own on
the stack. -/
structure Holding (c : Compiler) (p : Program) (s : State) (address count : Nat) :
    Prop where
  standing : Standing p s.frame address
  size : s.stack.size = s.frame.base + count
  waiting : Waiting c p s.frame.base s.callers
  served : Served c s.natives

/-- A state with as many values on the stack as the height says. -/
def Balanced (c : Compiler) (p : Program) (s : State) : Prop :=
  ∃ address, Holding c p s address (height c p s.frame.function address)

namespace Holding

variable {c : Compiler} {p : Program} {s : State} {address count : Nat}
  {inv ended : State → Prop}

theorem balanced (h : Holding c p s address count)
    (hcount : height c p s.frame.function address = count) : Balanced c p s :=
  ⟨address, by rwa [hcount]⟩

theorem push (h : Holding c p s address count) (v : Value) :
    Holding c p (s.push v) address (count + 1) := by
  refine ⟨h.standing, ?_, h.waiting, h.served⟩
  have hsize : (s.push v).stack.size = s.stack.size + 1 := Array.size_push v
  rw [hsize, h.size]
  rfl

theorem drop (h : Holding c p s address (count + 1)) : Holding c p s.drop address count := by
  refine ⟨h.standing, ?_, h.waiting, h.served⟩
  have hsize : s.drop.stack.size = s.stack.size - 1 := Array.size_pop
  rw [hsize, h.size]
  rfl

theorem mapHeap (h : Holding c p s address count) (f : Heap → Heap) :
    Holding c p (s.mapHeap f) address count :=
  ⟨h.standing, h.size, h.waiting, h.served⟩

theorem pushNew (h : Holding c p s address count) (make : Heap → Value × Heap) :
    Holding c p (s.pushNew make) address (count + 1) := by
  refine ⟨h.standing, ?_, h.waiting, h.served⟩
  have hsize : (s.pushNew make).stack.size = s.stack.size + 1 := Array.size_push _
  rw [hsize, h.size]
  rfl

theorem store (h : Holding c p s address count) (name : String) (v : Value) :
    Holding c p (s.store name v) address count := by
  unfold State.store
  split
  · exact ⟨⟨h.standing.function, h.standing.ip, h.standing.le⟩, h.size, h.waiting, h.served⟩
  · exact ⟨h.standing, h.size, h.waiting, h.served⟩

theorem jump (h : Holding c p s address count) {target : Nat}
    (hle : target ≤ s.frame.function.length) : Holding c p (s.jump target) target count :=
  ⟨⟨h.standing.function, rfl, hle⟩, h.size, h.waiting, h.served⟩

theorem hasTop (h : Holding c p s address (count + 1)) : s.hasTop = true := by
  unfold State.hasTop
  rw [h.size]
  simp

theorem popping (h : Holding c p s address (count + 1)) {k : Value → State → Transition}
    (hk : ∀ v, Holding c p s.drop address count → (k v s.drop).Safe inv ended) :
    (s.popping k).Safe inv ended := by
  unfold State.popping
  rw [if_pos h.hasTop]
  exact hk _ h.drop

theorem popping2 (h : Holding c p s address (count + 2)) {k : Value → Value → State → Transition}
    (hk : ∀ a b, Holding c p s.drop.drop address count →
      (k a b s.drop.drop).Safe inv ended) :
    (s.popping2 k).Safe inv ended := by
  unfold State.popping2
  exact h.popping fun b h => h.popping fun a h => hk a b h

theorem withTop (h : Holding c p s address (count + 1)) {k : Value → State → Transition}
    (hk : ∀ v, (k v s).Safe inv ended) : (s.withTop k).Safe inv ended := by
  unfold State.withTop
  rw [if_pos h.hasTop]
  exact hk _

theorem fail (h : Holding c p s address count) {cause : Cause}
    (hcause : cause.category ≠ .underflow) :
    (s.fail cause).Safe inv (fun s => Served c s.natives) :=
  ⟨hcause, h.served⟩

theorem pushing (h : Holding c p s address count) {r : Except Cause Value} (hr : Ordinary r)
    (hnext : ∀ v, Holding c p (s.push v) address (count + 1) → inv (s.push v)) :
    (s.pushing r).Safe inv (fun s => Served c s.natives) := by
  cases r with
  | ok v => exact hnext v (h.push v)
  | error cause => exact h.fail (by rw [Cause.category_of_isMistake (hr cause rfl)]; decide)

/-- Handing a value to the caller gives it the height it waits for. -/
theorem leave (h : Holding c p s address count) (v : Value) :
    (s.leave v).Safe (Balanced c p) (fun s => Served c s.natives) := by
  obtain ⟨stack, frame, callers, globals, world, natives, steps, trace?⟩ := s
  cases callers with
  | nil => exact h.served
  | cons caller callers =>
      obtain ⟨⟨callerAddress, hstanding, hbase⟩, hwaiting⟩ := h.waiting
      refine ⟨callerAddress, hstanding, ?_, hwaiting, h.served⟩
      have hsize := h.size
      dsimp only at hsize hbase ⊢
      rw [Array.size_push, Array.size_shrink, hsize]
      omega

/-- A function of the program begins with nothing on the stack, and its caller waits for
one value in the place of the arguments. -/
theorem enter (h : Holding c p s address count) {limits : Limits} {name callee : String}
    {f : Function} (hf : p.functions.get? callee = some f) (hcount : f.arity ≤ count)
    (hnext : height c p s.frame.function address + f.arity = count + 1) :
    (s.enter limits name f).Safe (Balanced c p) (fun s => Served c s.natives) := by
  have hsize := h.size
  unfold State.enter
  dsimp only
  rw [if_neg (by omega)]
  split
  · exact h.fail (by decide)
  · refine ⟨0, ⟨⟨callee, hf⟩, rfl, Nat.zero_le _⟩, ?_, ⟨⟨address, h.standing, ?_⟩, h.waiting⟩,
      h.served⟩
    · change (s.stack.shrink _).size = s.stack.size - f.arity + 0
      rw [Array.size_shrink]
      omega
    · change s.stack.size - f.arity + 1 = _
      omega

/-- A host function puts one value in the place of its arguments. -/
theorem ask (h : Holding c p s address count) {name : String} {bound : Bound} {taken : Nat}
    (hbound : s.natives.get? name = some bound) (harity : bound.arity = taken)
    (htaken : taken ≤ count)
    (hnext : height c p s.frame.function address + taken = count + 1) :
    (s.ask name bound).Safe (Balanced c p) (fun s => Served c s.natives) := by
  have hsize := h.size
  unfold State.ask
  rw [if_neg (by omega), if_neg (by omega)]
  dsimp only
  unfold State.answer
  dsimp only
  split
  · refine ⟨address, h.standing, ?_, h.waiting, Served.insert _ h.served hbound⟩
    change (Array.push (s.stack.shrink _) _).size = s.frame.base + height c p s.frame.function address
    rw [Array.size_push, Array.size_shrink, harity]
    omega
  · exact ⟨by simp [State.error, Cause.category], h.served⟩
  · exact h.served

/-- A call that fits keeps to the stack. -/
theorem call (h : Holding c p s address count) {limits : Limits} {name : String} {taken : Nat}
    (harity : c.arity? p name = some taken) (htaken : taken ≤ count)
    (hnext : height c p s.frame.function address + taken = count + 1) :
    (s.call p limits name).Safe (Balanced c p) (fun s => Served c s.natives) := by
  unfold Compiler.arity? at harity
  unfold State.call
  split
  · rename_i f hlookup
    have hname : name ≠ topLevel := by
      intro hname
      rw [if_pos hname] at hlookup
      cases hlookup
    rw [hlookup] at harity
    rw [if_neg hname] at hlookup
    cases harity
    exact h.enter hlookup htaken hnext
  · rename_i hlookup
    rw [hlookup] at harity
    obtain ⟨params, hparams, rfl⟩ := Option.map_eq_some_iff.mp harity
    obtain ⟨bound, hbound, hbarity⟩ := h.served name params hparams
    rw [hbound]
    exact h.ask hbound hbarity htaken hnext

end Holding

/-! ## One step -/

/-- What lies under the operands of an instruction is left under its results. -/
theorem exists_rest {before after pops pushes : Nat} (hpops : pops ≤ before)
    (heffect : after + pops = before + pushes) :
    ∃ rest, before = rest + pops ∧ after = rest + pushes :=
  ⟨before - pops, by omega, by omega⟩

theorem function_store (s : State) (name : String) (v : Value) :
    (s.store name v).frame.function = s.frame.function := by
  unfold State.store
  split <;> rfl

/-- An instruction that fits keeps to the stack. The state has already gone on to the
next address. -/
theorem Holding.execute {c : Compiler} {p : Program} {s : State} {i : Instruction}
    (limits : Limits) (address : Nat)
    (h : Holding c p s (address + 1) (height c p s.frame.function address))
    (hfits : i.Fits (c.arity? p) s.frame.function.length (height c p s.frame.function) address) :
    (s.execute p limits i).Safe (Balanced c p) (fun s => Served c s.natives) := by
  obtain ⟨op, literal, name, target, line⟩ := i
  unfold State.execute
  cases op <;> dsimp only
  case unassigned => exact hfits.elim
  case jump =>
    obtain ⟨target', htarget, hle, hsame⟩ := hfits
    change Balanced c p (s.jump target)
    rw [show target = target' from htarget]
    exact (h.jump hle).balanced hsame
  case branch =>
    obtain ⟨heffect, target', htarget, hle, hsame⟩ := hfits
    rw [heffect] at h
    refine h.popping fun v h => ?_
    change Balanced c p (if v.truthy then s.drop else s.drop.jump target)
    split
    · exact h.balanced rfl
    · rw [show target = target' from htarget]
      refine (h.jump hle).balanced ?_
      change height c p s.frame.function target' = _
      omega
  case skipAnd | skipOr =>
    obtain ⟨hvalue, hafter, target', htarget, hle, hsame⟩ := hfits
    obtain ⟨rest, hbefore⟩ := Nat.exists_eq_add_of_le' hvalue
    rw [hbefore] at h hsame hafter
    refine h.withTop fun v => ?_
    change Balanced c p (if v.truthy then _ else _)
    have hjump : Balanced c p (s.jump target) := by
      rw [show target = target' from htarget]
      exact (h.jump hle).balanced hsame
    split
    · first | exact hjump | exact h.balanced hafter
    · first | exact hjump | exact h.balanced hafter
  case ret =>
    obtain ⟨rest, hbefore⟩ := Nat.exists_eq_add_of_le' hfits
    rw [hbefore] at h
    exact h.popping fun v h => h.leave v
  case call =>
    obtain ⟨count, harity, hcount, heffect⟩ := hfits
    exact h.call harity hcount heffect
  all_goals
    obtain ⟨_, ⟨⟩, hcount, heffect⟩ := hfits
    obtain ⟨rest, hbefore, hafter⟩ := exists_rest hcount heffect
    rw [hbefore] at h
  case value | load => exact (h.push _).balanced hafter
  case list | object => exact (h.pushNew _).balanced hafter
  case pop => exact h.popping fun _ h => h.balanced hafter
  case store =>
    exact h.popping fun v h => (h.store _ v).balanced (by rw [function_store]; exact hafter)
  case append | set =>
    refine h.popping fun v h => h.withTop fun c => ?_
    split
    · exact (h.mapHeap _).balanced hafter
    · exact h.fail (by simp [Cause.category])
  case get | negate =>
    refine h.popping fun c h => ?_
    split
    · exact (h.push _).balanced hafter
    · exact h.fail (by simp [Cause.category])
  case not => exact h.popping fun v h => (h.push _).balanced hafter
  case index =>
    exact h.popping2 fun c j h => h.pushing (ordinary_element _ c j) fun v h => h.balanced hafter
  case put =>
    refine h.popping fun v h => h.popping2 fun c j h => ?_
    split
    · exact (h.mapHeap _).balanced hafter
    · rename_i cause hslot
      exact h.fail (by rw [Cause.category_of_isMistake (ordinary_slot _ _ _ cause hslot)]; decide)
  case and | or | equal | notEqual =>
    exact h.popping2 fun a b h => (h.push _).balanced hafter
  case add =>
    exact h.popping2 fun a b h => h.pushing (ordinary_add _ a b) fun v h => h.balanced hafter
  case subtract | multiply | divide =>
    exact h.popping2 fun a b h => h.pushing (ordinary_arithmetic _ a b) fun v h => h.balanced hafter
  case less | lessOrEqual | greater | greaterOrEqual =>
    exact h.popping2 fun a b h => h.pushing (ordinary_compare _ a b) fun v h => h.balanced hafter

theorem Holding.begin {c : Compiler} {p : Program} {s : State} {address count : Nat}
    (h : Holding c p s address count) (hlt : address < s.frame.function.length) :
    Holding c p s.begin (address + 1) count := by
  refine ⟨⟨h.standing.function, ?_, hlt⟩, h.size, h.waiting, h.served⟩
  change s.frame.ip + 1 = ((address + 1 : Nat) : Int)
  rw [h.standing.ip]
  rfl

theorem recorded_eq (s : State) (address : Nat) (i : Instruction) :
    ∃ trace?, s.recorded address i = { s with trace? := trace? } := by
  unfold State.recorded
  split
  · exact ⟨s.trace?, rfl⟩
  · exact ⟨_, rfl⟩

/-- One step keeps to the stack. -/
theorem Balanced.step {c : Compiler} {p : Program} {s : State} (hp : Fitting c p)
    (h : Balanced c p s) (limits : Limits) (cancelled : Bool) :
    (s.step p limits cancelled).Safe (Balanced c p) (fun s => Served c s.natives) := by
  obtain ⟨address, h⟩ := h
  unfold State.step
  rw [h.standing.ip, if_neg (by omega), Int.toNat_natCast]
  dsimp only
  cases hi : s.frame.function.code[address]? with
  | none => exact h.leave .null
  | some i =>
      have hlt : address < s.frame.function.length := (Array.getElem?_eq_some_iff.mp hi).1
      have hbegun := h.begin hlt
      dsimp only
      split
      · exact hbegun.fail (by decide)
      · split
        · exact hbegun.fail (by decide)
        · obtain ⟨trace?, hrecorded⟩ := recorded_eq s.begin address i
          rw [hrecorded]
          apply Holding.execute limits address
          · exact ⟨hbegun.standing, hbegun.size, hbegun.waiting, hbegun.served⟩
          · obtain ⟨name, hname⟩ := h.standing.function
            obtain ⟨boundaries, hfitted⟩ := hp name _ hname
            have hfits := hfitted.fits address i.unplaced (by simp [hi])
            rw [List.length_map] at hfits
            exact hfits

/-! ## Runs -/

/-- The states that a run can come to, whenever it is cancelled. -/
inductive Reachable (p : Program) (limits : Limits) (first : State) : State → Prop
  | first : Reachable p limits first first
  | next {s s' : State} (cancelled : Bool) (h : Reachable p limits first s)
      (hstep : s.step p limits cancelled = .next s') : Reachable p limits first s'

/-- Every state of a run keeps to the stack when the first one does. -/
theorem Balanced.reachable {c : Compiler} {p : Program} {limits : Limits} {first s : State}
    (hp : Fitting c p) (hfirst : Balanced c p first) (h : Reachable p limits first s) :
    Balanced c p s := by
  induction h with
  | first => exact hfirst
  | next cancelled _ hstep ih =>
      have hsafe := ih.step hp limits cancelled
      rw [hstep] at hsafe
      exact hsafe

/-- A run that begins balanced does not fail for want of a value, and leaves the host
functions as they are. -/
theorem Balanced.proceed {c : Compiler} {p : Program} {limits : Limits} (cancelled : Bool)
    (hp : Fitting c p) (patience : Nat) {s : State} (h : Balanced c p s) :
    (∀ e, (proceed p limits cancelled patience s).1 = .failed e →
      e.cause.category ≠ .underflow) ∧
    Served c (Machine.proceed p limits cancelled patience s).2.natives := by
  induction patience generalizing s with
  | zero => exact ⟨nofun, h.choose_spec.served⟩
  | succ patience ih =>
      have hsafe := h.step hp limits cancelled
      unfold Machine.proceed
      cases hstep : s.step p limits cancelled <;> rw [hstep] at hsafe
      case next s' => exact ih hsafe
      case finished v s' => exact ⟨nofun, hsafe⟩
      case breakdown detail s' => exact ⟨nofun, hsafe⟩
      case failed e s' =>
        refine ⟨?_, hsafe.2⟩
        rintro _ ⟨⟩
        exact hsafe.1

/-- The first state of a run is balanced. -/
theorem balanced_start {c : Compiler} {m : Machine} {p : Program} {main : Function}
    (hserved : Served c m.natives) (hmain : p.main? = some main) : Balanced c p (m.start main) :=
  ⟨0, ⟨⟨topLevel, hmain⟩, rfl, Nat.zero_le _⟩, rfl, trivial, hserved⟩

end LineScript.Machine

namespace LineScript.Registry

open LineScript.Code LineScript.Tree LineScript.Machine

/-! ## Sessions -/

/-- The compilers and machines that a registry prepares: both are given its host
functions, and then any number of scripts are compiled on top of each other and run
for any time. -/
inductive Prepares (r : Registry) : Compiler → Machine → Prop
  | installed {c : Compiler} {m₀ m : Machine} (hcompiler : r.compiler = .ok c)
      (hmachine : r.machine m₀ = .ok m) : Prepares r c m
  | entered {c : Compiler} {m : Machine} {source : String} {p : Program} (patience : Nat)
      (cancelled : Bool) (h : Prepares r c m) (hcompile : c.compileSource source = .ok p) :
      Prepares r { c with prelude? := some p } (m.runFor patience p cancelled).machine

/-- The first entry that is imported has a new name and a signature, and the others are imported
after it. -/
theorem installCompiler_cons_eq_ok {e : Entry} {rest : List Entry} {c c' : Compiler}
    (h : installCompiler c (e :: rest) = .ok c') :
    ∃ params, c.natives.get? e.name = none ∧ Signature.parse e.signature = .ok params ∧
      installCompiler { c with natives := c.natives.insert e.name params } rest = .ok c' := by
  unfold installCompiler Compiler.importNative at h
  split at h
  · rename_i imported himport
    split at himport
    · cases himport
    · rename_i hnew
      split at himport
      · rename_i params hparse
        cases himport
        exact ⟨params, Option.not_isSome_iff_eq_none.mp hnew, hparse, h⟩
      · cases himport
  · cases h

/-- Binding entries gives every one of them its number of arguments, and leaves what
other names have. -/
theorem served_bindAll {entries : List Entry} {c c' : Compiler} {m m' : Machine}
    (hserved : Served c m.natives) (hcompiler : installCompiler c entries = .ok c')
    (hmachine : bindAll m entries = (m', none)) : Served c' m'.natives := by
  induction entries generalizing c m with
  | nil =>
      cases hcompiler
      cases hmachine
      exact hserved
  | cons e rest ih =>
      obtain ⟨params, -, hparse, hcompiler⟩ := installCompiler_cons_eq_ok hcompiler
      unfold bindAll at hmachine
      rw [hparse] at hmachine
      refine ih ?_ hcompiler hmachine
      intro name known hname
      change Dict.get? (c.natives.insert e.name params) name = some known at hname
      by_cases heq : name = e.name
      · subst heq
        rw [Dict.get?_insert_self] at hname
        cases hname
        exact ⟨_, Dict.get?_insert_self _ _ _, rfl⟩
      · rw [Dict.get?_insert_of_ne _ _ heq] at hname
        obtain ⟨bound, hbound, hcount⟩ := hserved name known hname
        exact ⟨bound, (Dict.get?_insert_of_ne _ _ heq).trans hbound, hcount⟩

/-- A compiler starts with the host functions of the registry and nothing before it. -/
theorem prelude?_installCompiler {entries : List Entry} {c c' : Compiler}
    (h : installCompiler c entries = .ok c') : c'.prelude? = c.prelude? := by
  induction entries generalizing c with
  | nil =>
      cases h
      rfl
  | cons e rest ih =>
      obtain ⟨params, -, -, h⟩ := installCompiler_cons_eq_ok h
      have hrest := ih h
      exact hrest

end LineScript.Registry

namespace LineScript.Compiler

open LineScript.Code LineScript.Tree LineScript.Machine

/-- Every function of the prelude is what a well-scoped definition is compiled to. -/
def Traced (c : Compiler) : Prop :=
  ∀ name shape, c.shapes name = some shape →
    ∃ f : Definition, shape = f.shape ∧ f.Within c.scope.arity

theorem shapes_of_prelude?_eq_none {c : Compiler} (h : c.prelude? = none) (name : String) :
    c.shapes name = none := by
  unfold shapes Compile.Draft.shapes draft
  rw [h]
  rfl

theorem shapes_topLevel (c : Compiler) : c.shapes topLevel = none := by
  unfold shapes Compile.Draft.shapes draft
  rw [Dict.get?_erase_self]
  rfl

theorem traced_of_prelude?_eq_none {c : Compiler} (h : c.prelude? = none) : c.Traced := by
  intro name shape hshape
  rw [shapes_of_prelude?_eq_none h] at hshape
  cases hshape

theorem exists_of_install {definitions : List Definition} {table : String → Option Shape}
    {name : String} {shape : Shape}
    (h : definitions.foldl Definition.install table name = some shape) :
    (∃ f ∈ definitions, shape = f.shape) ∨ table name = some shape := by
  induction definitions generalizing table with
  | nil => exact .inr h
  | cons f rest ih =>
      rw [List.foldl_cons] at h
      obtain ⟨g, hg, hshape⟩ | hfound := ih h
      · exact .inl ⟨g, List.mem_cons_of_mem _ hg, hshape⟩
      · unfold Definition.install at hfound
        split at hfound
        · cases hfound
          exact .inl ⟨f, List.mem_cons_self, rfl⟩
        · exact .inr hfound

/-- What can be compiled before a script can be compiled together with it. -/
theorem Compiles.within {c : Compiler} {b : Block} {p : Program} (h : c.Compiles b p)
    {f : Definition} (hf : f.Within c.scope.arity) : f.Within (c.arity? p) := by
  obtain ⟨hname, scope, hscoped, hwithin⟩ := hf
  refine ⟨hname, scope, hscoped, fun n count hn => ?_⟩
  rw [← h.arity_eq]
  exact b.within_of_after _ h.inScope (Scope.within_refl _) n count (hwithin n count hn)

/-- Every function of a compiled program is what a well-scoped definition is compiled
to. -/
theorem Compiles.exists_definition {c : Compiler} {b : Block} {p : Program} (h : c.Compiles b p)
    (hc : c.Traced) {name : String} {f : Function} (hname : name ≠ topLevel)
    (hf : p.functions.get? name = some f) :
    ∃ g : Definition, f.shape = g.shape ∧ g.Within (c.arity? p) := by
  have hshape : (p.function? name).map Function.shape = some f.shape := by
    rw [Program.function?, hf, Option.map_some]
  rw [h.functions name hname] at hshape
  obtain ⟨g, hg, heq⟩ | hfound := exists_of_install hshape
  · refine ⟨g, heq, ?_⟩
    rw [← h.arity_eq]
    exact b.definitions_within _ h.inScope (Scope.within_refl _) g hg
  · obtain ⟨g, heq, hwithin⟩ := hc name _ hfound
    exact ⟨g, heq, h.within hwithin⟩

/-- A program can call what its compiler could, and what the next script on top of it
can. -/
theorem arity_scope_prelude (c : Compiler) (p : Program) :
    ({ c with prelude? := some p } : Compiler).scope.arity = c.arity? p := by
  funext name
  change (Compiler.draft { c with prelude? := some p } []).arity? name = c.arity? p name
  by_cases hname : name = topLevel
  · unfold Compile.Draft.arity? draft arity?
    dsimp only [Option.map_some, Option.getD_some]
    rw [if_pos hname, hname, Dict.get?_erase_self]
  · have hlookup : (Compiler.draft { c with prelude? := some p } []).functions.get? name =
        p.functions.get? name := Dict.get?_erase_of_ne _ hname
    symm
    unfold arity?
    rw [if_neg hname, ← hlookup]
    rfl

theorem Compiles.traced {c : Compiler} {b : Block} {p : Program} (h : c.Compiles b p)
    (hc : c.Traced) : ({ c with prelude? := some p } : Compiler).Traced := by
  intro name shape hshape
  have hname : name ≠ topLevel := by
    rintro rfl
    unfold shapes Compile.Draft.shapes draft at hshape
    rw [Dict.get?_erase_self] at hshape
    cases hshape
  unfold shapes Compile.Draft.shapes draft at hshape
  rw [Dict.get?_erase_of_ne _ hname] at hshape
  obtain ⟨f, hf, rfl⟩ := Option.map_eq_some_iff.mp hshape
  rw [arity_scope_prelude]
  exact h.exists_definition hc hname hf

/-- The heights of the top level of a compiled program are right. -/
theorem Compiles.fitted_main {c : Compiler} {b : Block} {p : Program} (h : c.Compiles b p)
    {main : Function} (hmain : p.main? = some main) :
    Fitted (c.arity? p) (main.code.toList.map Instruction.unplaced) (b.boundaries 0) := by
  have hshape := h.main
  rw [hmain, Option.map_some] at hshape
  have hcode : main.code.toList.map Instruction.unplaced = b.code 0 :=
    congrArg Shape.code (Option.some.inj hshape)
  rw [hcode, ← h.arity_eq]
  exact Block.fitted h.inScope (Scope.within_refl _)

/-- The heights of the functions of a compiled program are right. -/
theorem Compiles.fitted_function {c : Compiler} {b : Block} {p : Program} (h : c.Compiles b p)
    (hc : c.Traced) {name : String} {f : Function} (hname : name ≠ topLevel)
    (hf : p.functions.get? name = some f) :
    ∃ body : Block, f.code.toList.map Instruction.unplaced = functionCode body ∧
      Fitted (c.arity? p) (f.code.toList.map Instruction.unplaced) (body.boundaries 0) := by
  obtain ⟨g, hshape, hwithin⟩ := h.exists_definition hc hname hf
  have hcode : f.code.toList.map Instruction.unplaced = functionCode g.body :=
    congrArg Shape.code hshape
  refine ⟨g.body, hcode, ?_⟩
  rw [hcode]
  exact Definition.fitted hwithin

theorem Compiles.fitting {c : Compiler} {b : Block} {p : Program} (h : c.Compiles b p)
    (hc : c.Traced) : Fitting c p := by
  intro name f hf
  by_cases hname : name = topLevel
  · subst hname
    exact ⟨_, h.fitted_main hf⟩
  · obtain ⟨body, -, hfitted⟩ := h.fitted_function hc hname hf
    exact ⟨_, hfitted⟩

/-- A script that compiles reads as a tree. -/
theorem exists_tree {c : Compiler} {source : String} {p : Program}
    (h : c.compileSource source = .ok p) :
    ∃ tokens b, Token.scan source = .ok tokens ∧ Block.words b = Word.ofTokens tokens ∧
      c.Compiles b p := by
  unfold compileSource at h
  cases hscan : Token.scan source with
  | error e =>
      rw [hscan] at h
      cases h
  | ok tokens =>
      rw [hscan] at h
      obtain ⟨hproper, -, -⟩ := Token.proper_of_scan hscan
      have hsound := c.sound_compile (fun t ht h => ((hproper t ht).2 h).2)
        (fun t ht => (hproper t ht).1)
      have h : c.compile tokens = .ok p := h
      rw [h] at hsound
      obtain ⟨b, hwords, hcompiles⟩ := hsound
      exact ⟨tokens, b, rfl, hwords, hcompiles⟩

end LineScript.Compiler

namespace LineScript.Registry

open LineScript.Code LineScript.Tree LineScript.Machine

/-- What a run leaves of the host functions serves the compiler as before. -/
theorem served_runFor {c : Compiler} {m : Machine} {p : Program} (hp : Fitting c p)
    (hserved : Served c m.natives) (patience : Nat) (cancelled : Bool) :
    Served c (m.runFor patience p cancelled).machine.natives := by
  unfold Machine.runFor
  cases hmain : p.main? with
  | none => exact hserved
  | some main => exact ((balanced_start hserved hmain).proceed cancelled hp patience).2

/-- What a registry prepares stays in order from one script to the next. -/
theorem Prepares.traced_served {r : Registry} {c : Compiler} {m : Machine}
    (h : r.Prepares c m) : c.Traced ∧ Served c m.natives := by
  induction h with
  | installed hcompiler hmachine =>
      refine ⟨Compiler.traced_of_prelude?_eq_none (prelude?_installCompiler hcompiler), ?_⟩
      unfold machine at hmachine
      split at hmachine
      · rename_i hbind
        cases hmachine
        refine served_bindAll ?_ hcompiler hbind
        rintro name params ⟨⟩
      · cases hmachine
  | entered patience cancelled _ hcompile ih =>
      obtain ⟨-, b, -, -, hcompiles⟩ := Compiler.exists_tree hcompile
      exact ⟨hcompiles.traced ih.1, served_runFor (hcompiles.fitting ih.1) ih.2 patience cancelled⟩

/-! ## The stack discipline -/

/-- Heights that are right for a function whose statements are the given ones: zero at
every boundary of a statement and at the end, and nowhere less than what the
instruction there takes or looks at. -/
structure Levels (arity : String → Option Nat) (f : Function) (body : Block) (h : Nat → Nat) :
    Prop where
  boundary : ∀ b ∈ body.boundaries 0, h b = 0
  ending : h f.length = 0
  enough : ∀ (a : Nat) (i : Instruction), f.code[a]? = some i →
    ∃ count, i.needs arity = some count ∧ count ≤ h a

theorem levels_of_fitted {c : Compiler} {p : Program} {f : Function} {body : Block}
    (h : Fitted (c.arity? p) (f.code.toList.map Instruction.unplaced) (body.boundaries 0)) :
    Levels (c.arity? p) f body (height c p f) := by
  refine ⟨h.zero, ?_, fun a i hi => ?_⟩
  · have hending := h.ending
    rw [List.length_map] at hending
    exact hending
  · have hfits := h.fits a i.unplaced (by simp [hi])
    exact hfits.needs_le

/-- Every function of a compiled program has heights, zero at the boundaries of its
statements, that tell in every reachable state how many values the running call has on
the stack. So no run ends for want of a value. -/
theorem stack_discipline {r : Registry} {c : Compiler} {m : Machine} {source : String} {p : Program}
    (hprepared : r.Prepares c m) (hcompile : c.compileSource source = .ok p) :
    ∃ (tokens : List Token) (tree : Block) (h : Function → Nat → Nat),
      Token.scan source = .ok tokens ∧ tree.words = Word.ofTokens tokens ∧ c.Compiles tree p ∧
      (∀ main, p.main? = some main → Levels (c.arity? p) main tree (h main)) ∧
      (∀ name f, name ≠ topLevel → p.functions.get? name = some f →
        ∃ body : Block, f.code.toList.map Instruction.unplaced = functionCode body ∧
          Levels (c.arity? p) f body (h f)) ∧
      (∀ main limits s, p.main? = some main → Reachable p limits (m.start main) s →
        ∃ name address, p.functions.get? name = some s.frame.function ∧
          s.frame.ip = (address : Nat) ∧ address ≤ s.frame.function.length ∧
          s.stack.size = s.frame.base + h s.frame.function address) ∧
      ∀ patience cancelled e, (m.runFor patience p cancelled).outcome = .failed e →
        e.cause.category ≠ .underflow := by
  obtain ⟨htraced, hserved⟩ := hprepared.traced_served
  obtain ⟨tokens, tree, hscan, hwords, hcompiles⟩ := Compiler.exists_tree hcompile
  have hfitting := hcompiles.fitting htraced
  refine ⟨tokens, tree, height c p, hscan, hwords, hcompiles, ?_, ?_, ?_, ?_⟩
  · intro main hmain
    exact levels_of_fitted (hcompiles.fitted_main hmain)
  · intro name f hname hf
    obtain ⟨body, hcode, hfitted⟩ := hcompiles.fitted_function htraced hname hf
    exact ⟨body, hcode, levels_of_fitted hfitted⟩
  · intro main limits s hmain hreachable
    obtain ⟨address, hholding⟩ := (balanced_start hserved hmain).reachable hfitting hreachable
    obtain ⟨name, hname⟩ := hholding.standing.function
    exact ⟨name, address, hname, hholding.standing.ip, hholding.standing.le, hholding.size⟩
  · intro patience cancelled e houtcome
    unfold Machine.runFor at houtcome
    cases hmain : p.main? with
    | none =>
        rw [hmain] at houtcome
        cases houtcome
    | some main =>
        rw [hmain] at houtcome
        exact ((balanced_start hserved hmain).proceed cancelled hfitting patience).1 e houtcome

theorem exists_of_isOk {ε α : Type} : ∀ {r : Except ε α}, r.isOk = true → ∃ a, r = .ok a
  | .ok a, _ => ⟨a, rfl⟩

theorem eq_ok_of_toOption {ε α : Type} {r : Except ε α} {a : α} (h : r.toOption = some a) : r = .ok a := by
  cases r <;> cases h
  rfl

/-- A loop that logs a value again and again never runs the stack dry. -/
theorem stack_discipline_log :
    ∃ p, Compiler.compileSource { natives := Dict.insert ∅ "log" ["value"] }
        "x = log(true)\nwhile x and not x\n  log(x)\nend" = .ok p ∧
      ∀ patience cancelled e,
        ((Machine.bind {} "log" 1 Native.log).runFor patience p cancelled).outcome = .failed e →
          e.cause.category ≠ .underflow := by
  have hcompiler : Registry.compiler ⟨[⟨"log", "log(value)", Native.log⟩]⟩ =
      .ok { natives := Dict.insert ∅ "log" ["value"] } := by rfl
  have hmachine : Registry.machine ⟨[⟨"log", "log(value)", Native.log⟩]⟩ {} =
      .ok (Machine.bind {} "log" 1 Native.log) := by rfl
  have hok : (Compiler.compileSource { natives := Dict.insert ∅ "log" ["value"] }
      "x = log(true)\nwhile x and not x\n  log(x)\nend").isOk = true := by decide +kernel
  obtain ⟨p, hcompile⟩ := exists_of_isOk hok
  obtain ⟨-, -, -, -, -, -, -, -, -, hunderflow⟩ :=
    stack_discipline (.installed hcompiler hmachine) hcompile
  exact ⟨p, hcompile, hunderflow⟩

end LineScript.Registry
