/-
# Checked programs run safely

A program in which the check finds nothing need not come from the compiler: it may jump
into the middle of an expression, call with too few values, or return from anywhere. Such
mistakes end a run with an error, but nothing a run does ever reaches outside what it
works on. The calls of a run are nested, each standing at an address of its function or
at its end, with its part of the stack above that of its caller; every instruction
preserves this, whatever it finds. So instructions are fetched, values taken, calls cut
off and elements accessed within bounds only, and the host breaks down only where a host
function does.

Most instructions stay in the running call, which is said once for all of them. Calls and
returns are the others.
-/

import LineScript.Proofs.StackDiscipline
import LineScript.Proofs.WellFormed

namespace LineScript.Machine

open LineScript.Code

/-! ## Elements -/

/-- Whatever value is used as an index, a position lies within the sequence. -/
theorem lt_of_position {index : Value} {length i : Nat} (h : position index length = .ok i) :
    i < length := by
  unfold position at h
  split at h
  · dsimp only at h
    split at h
    · cases h
    · rename_i n _
      split at h
      · rename_i hrange
        cases h
        omega
      · cases h
  · cases h

theorem element_list {h : Heap} {place : Nat} {index v : Value}
    (helement : element h (.list place) index = .ok v) :
    ∃ i, position index (h.list place).size = .ok i ∧ (h.list place)[i]? = some v := by
  unfold element at helement
  dsimp only at helement
  cases hposition : position index (h.list place).size with
  | error cause =>
      rw [hposition] at helement
      cases helement
  | ok i =>
      rw [hposition] at helement
      cases helement
      have hlt := lt_of_position hposition
      refine ⟨i, rfl, ?_⟩
      change _ = some ((h.list place).getD i .null)
      rw [Array.getD_eq_getD_getElem?, Array.getElem?_eq_getElem hlt, Option.getD_some]

theorem element_string {h : Heap} {text : String} {index v : Value}
    (helement : element h (.string text) index = .ok v) :
    ∃ i c, position index text.toList.length = .ok i ∧ text.toList[i]? = some c ∧
      v = .string (String.ofList [c]) := by
  unfold element at helement
  dsimp only at helement
  cases hposition : position index text.toList.length with
  | error cause =>
      rw [hposition] at helement
      cases helement
  | ok i =>
      rw [hposition] at helement
      cases helement
      have hget := List.getElem?_eq_getElem (lt_of_position hposition)
      refine ⟨i, _, rfl, hget, ?_⟩
      change Value.string (String.ofList text.toList[i]?.toList) = _
      rw [hget, Option.toList_some]

theorem slot_list {h : Heap} {place : Nat} {index : Value} {found : Slot}
    (hslot : slot h (.list place) index = .ok found) :
    ∃ i, position index (h.list place).size = .ok i ∧ i < (h.list place).size ∧
      found = .element place i := by
  unfold slot at hslot
  dsimp only at hslot
  cases hposition : position index (h.list place).size with
  | error cause =>
      rw [hposition] at hslot
      cases hslot
  | ok i =>
      rw [hposition] at hslot
      cases hslot
      exact ⟨i, rfl, lt_of_position hposition, rfl⟩

/-! ## Instructions that stay in the running call -/

/-- What an instruction does to the calls when it neither calls nor returns: the running
call goes on at the next address or at the target, and keeps what lies below it. -/
structure Stays (i : Instruction) (s s' : State) : Prop where
  function : s'.frame.function = s.frame.function
  base : s'.frame.base = s.frame.base
  ip : s'.frame.ip = s.frame.ip ∨ i.op.isJump = true ∧ s'.frame.ip = i.target
  callers : s'.callers = s.callers
  natives : s'.natives = s.natives
  size : s.frame.base ≤ s.stack.size → s'.frame.base ≤ s'.stack.size

/-- A transition within the running call, or a failure for want of a value or by a mistake
of the script. -/
def Transition.Stays (i : Instruction) (s : State) : Transition → Prop
  | .next s' => Machine.Stays i s s'
  | .failed e _ => e.cause = .underflow ∨ e.cause.isMistake = true
  | .finished _ _ | .breakdown _ _ => False

/-- A cause that is neither is not how an instruction within the running call fails. -/
theorem Transition.Stays.cause_ne {i : Instruction} {s s' : State} {e : RuntimeError}
    (h : (Transition.failed e s').Stays i s) {cause : Cause} (hunderflow : cause ≠ .underflow)
    (hmistake : cause.isMistake = false) : e.cause ≠ cause := by
  rintro rfl
  obtain h | h := h
  · exact hunderflow h
  · cases hmistake.symm.trans h

namespace Stays

variable {i : Instruction} {s₀ s : State}

theorem refl (i : Instruction) (s : State) : Stays i s s :=
  ⟨rfl, rfl, .inl rfl, rfl, rfl, id⟩

theorem push (h : Stays i s₀ s) (v : Value) : Stays i s₀ (s.push v) := by
  refine ⟨h.function, h.base, h.ip, h.callers, h.natives, fun hbase => ?_⟩
  have hsize : (s.push v).stack.size = s.stack.size + 1 := Array.size_push v
  rw [hsize]
  exact Nat.le_succ_of_le (h.size hbase)

theorem pushNew (h : Stays i s₀ s) (make : Heap → Value × Heap) : Stays i s₀ (s.pushNew make) := by
  refine ⟨h.function, h.base, h.ip, h.callers, h.natives, fun hbase => ?_⟩
  have hsize : (s.pushNew make).stack.size = s.stack.size + 1 := Array.size_push _
  rw [hsize]
  exact Nat.le_succ_of_le (h.size hbase)

theorem mapHeap (h : Stays i s₀ s) (f : Heap → Heap) : Stays i s₀ (s.mapHeap f) :=
  ⟨h.function, h.base, h.ip, h.callers, h.natives, h.size⟩

theorem store (h : Stays i s₀ s) (name : String) (v : Value) : Stays i s₀ (s.store name v) := by
  unfold State.store
  split
  · exact ⟨h.function, h.base, h.ip, h.callers, h.natives, h.size⟩
  · exact ⟨h.function, h.base, h.ip, h.callers, h.natives, h.size⟩

theorem jump (h : Stays i s₀ s) (hop : i.op.isJump = true) : Stays i s₀ (s.jump i.target) :=
  ⟨h.function, h.base, .inr ⟨hop, rfl⟩, h.callers, h.natives, h.size⟩

theorem drop (h : Stays i s₀ s) (htop : s.hasTop = true) : Stays i s₀ s.drop := by
  refine ⟨h.function, h.base, h.ip, h.callers, h.natives, fun _ => ?_⟩
  have hlt : s.frame.base < s.stack.size := of_decide_eq_true htop
  have hsize : s.drop.stack.size = s.stack.size - 1 := Array.size_pop
  rw [hsize]
  exact Nat.le_sub_one_of_lt hlt

theorem popping (h : Stays i s₀ s) {k : Value → State → Transition}
    (hk : ∀ v, Stays i s₀ s.drop → (k v s.drop).Stays i s₀) : (s.popping k).Stays i s₀ := by
  unfold State.popping
  split
  · rename_i htop
    exact hk _ (h.drop htop)
  · exact .inl rfl

theorem popping2 (h : Stays i s₀ s) {k : Value → Value → State → Transition}
    (hk : ∀ a b, Stays i s₀ s.drop.drop → (k a b s.drop.drop).Stays i s₀) :
    (s.popping2 k).Stays i s₀ := by
  unfold State.popping2
  exact h.popping fun b h => h.popping fun a h => hk a b h

theorem withTop {k : Value → State → Transition} (hk : ∀ v, (k v s).Stays i s₀) :
    (s.withTop k).Stays i s₀ := by
  unfold State.withTop
  split
  · exact hk _
  · exact .inl rfl

theorem fail {cause : Cause} (h : cause.isMistake = true) : (s.fail cause).Stays i s₀ := .inr h

theorem pushing (h : Stays i s₀ s) {r : Except Cause Value} (hr : Ordinary r) :
    (s.pushing r).Stays i s₀ := by
  cases r with
  | ok v => exact h.push v
  | error cause => exact fail (hr cause rfl)

end Stays

/-- Every operation but a call, a return and what is no operation stays in the running
call. -/
theorem execute_stays {s : State} (p : Program) (limits : Limits) {i : Instruction}
    (hassigned : i.op.isAssigned = true) (hcall : i.op ≠ .call) (hret : i.op ≠ .ret) :
    (s.execute p limits i).Stays i s := by
  obtain ⟨op, literal, name, target, line⟩ := i
  have h := Stays.refl ⟨op, literal, name, target, line⟩ s
  unfold State.execute
  cases op <;> dsimp only
  case unassigned => cases hassigned
  case call => exact absurd rfl hcall
  case ret => exact absurd rfl hret
  case value | load => exact h.push _
  case list | object => exact h.pushNew _
  case pop => exact h.popping fun _ h => h
  case store => exact h.popping fun v h => h.store _ v
  case append | set =>
    refine h.popping fun v h => Stays.withTop fun c => ?_
    split
    · exact h.mapHeap _
    · exact Stays.fail rfl
  case get | negate =>
    refine h.popping fun c h => ?_
    split
    · exact h.push _
    · exact Stays.fail rfl
  case not => exact h.popping fun v h => h.push _
  case index => exact h.popping2 fun c j h => h.pushing (ordinary_element _ c j)
  case put =>
    refine h.popping fun v h => h.popping2 fun c j h => ?_
    split
    · exact h.mapHeap _
    · rename_i cause hslot
      exact Stays.fail (ordinary_slot _ _ _ cause hslot)
  case jump => exact h.jump rfl
  case branch =>
    refine h.popping fun v h => ?_
    change Stays _ s (if v.truthy then s.drop else s.drop.jump target)
    split
    · exact h
    · exact h.jump rfl
  case skipAnd | skipOr =>
    refine Stays.withTop fun v => ?_
    change Stays _ s (if v.truthy then _ else _)
    split
    · first | exact h | exact h.jump rfl
    · first | exact h | exact h.jump rfl
  case and | or | equal | notEqual => exact h.popping2 fun a b h => h.push _
  case add => exact h.popping2 fun a b h => h.pushing (ordinary_add _ a b)
  case subtract | multiply | divide =>
    exact h.popping2 fun a b h => h.pushing (ordinary_arithmetic _ a b)
  case less | lessOrEqual | greater | greaterOrEqual =>
    exact h.popping2 fun a b h => h.pushing (ordinary_compare _ a b)

/-! ## The invariant -/

/-- A host function that takes a possible number of arguments and always comes back when
it is given that many. -/
def Bound.Orderly (b : Bound) : Prop :=
  0 ≤ b.arity ∧ ∀ (calls : Nat) (args : List Value) (world : World) (detail : String),
    (args.length : Int) = b.arity → (b.native.run calls args world).1 ≠ .breakdown detail

/-- Calls that lie on each other in a stack of the given size: each stands at an address
of a function of the program, and has its part of the stack above that of its caller. -/
def Nested (p : Program) : Nat → List Frame → Prop
  | _, [] => True
  | size, frame :: rest =>
    (∃ address, Standing p frame address) ∧ frame.base ≤ size ∧ Nested p frame.base rest

/-- A state whose calls are nested and whose host functions are orderly. -/
structure Bounded (p : Program) (s : State) : Prop where
  calls : Nested p s.stack.size (s.frame :: s.callers)
  natives : ∀ name bound, s.natives.get? name = some bound → bound.Orderly

/-- A transition without breakdown: the next state has the invariant, and a failure is not
for want of an operation. -/
def Transition.Orderly (inv : State → Prop) : Transition → Prop
  | .next s => inv s
  | .failed e _ => ∀ label, e.cause ≠ .unknownOpcode label
  | .finished _ _ => True
  | .breakdown _ _ => False

namespace Bounded

variable {p : Program} {s : State}

/-- An instruction that stays in the running call keeps the invariant. -/
theorem stays {natives : Dict Nat} {i : Instruction} {t : Transition} (h : Bounded p s)
    (hi : i.WellFormed p natives s.frame.function.length) (ht : t.Stays i s) :
    t.Orderly (Bounded p) := by
  cases t with
  | finished | breakdown => exact ht.elim
  | failed e s' => exact fun label => ht.cause_ne nofun rfl
  | next s' =>
      obtain ⟨⟨⟨address, hfunction, hip, hle⟩, hbase, hcallers⟩, hnatives⟩ := h
      refine ⟨⟨?_, ht.size hbase, ?_⟩, ?_⟩
      · obtain hsame | ⟨hop, htarget⟩ := ht.ip
        · exact ⟨address, ht.function ▸ hfunction, hsame.trans hip, ht.function ▸ hle⟩
        · obtain ⟨target, heq, htarget_le⟩ := hi.target hop
          exact ⟨target, ht.function ▸ hfunction, htarget.trans heq, ht.function ▸ htarget_le⟩
      · rw [ht.base, ht.callers]
        exact hcallers
      · rw [ht.natives]
        exact hnatives

/-- Returning cuts the call off and hands a value to its caller. -/
theorem leave (h : Bounded p s) (v : Value) : (s.leave v).Orderly (Bounded p) := by
  obtain ⟨stack, frame, callers, globals, world, natives, steps, trace?⟩ := s
  cases callers with
  | nil => exact trivial
  | cons caller callers =>
      obtain ⟨⟨-, hbase, hstanding, hcaller, hcallers⟩, hnatives⟩ := h
      refine ⟨⟨hstanding, ?_, hcallers⟩, hnatives⟩
      dsimp only at hbase hcaller ⊢
      rw [Array.size_push, Array.size_shrink]
      omega

/-- A function of the program begins with nothing on the stack, above its caller. -/
theorem enter (h : Bounded p s) {name callee : String} {f : Function}
    (hf : p.functions.get? callee = some f) (limits : Limits) :
    (s.enter limits name f).Orderly (Bounded p) := by
  obtain ⟨⟨hstanding, hbase, hcallers⟩, hnatives⟩ := h
  unfold State.enter
  dsimp only
  split
  · exact nofun
  · split
    · exact nofun
    · refine ⟨⟨⟨0, ⟨callee, hf⟩, rfl, Nat.zero_le _⟩, ?_, hstanding, ?_, hcallers⟩, hnatives⟩
      · change s.stack.size - f.arity ≤ (s.stack.shrink _).size
        rw [Array.size_shrink]
        omega
      · change s.frame.base ≤ s.stack.size - f.arity
        omega

/-- An orderly host function gives a value or fails; its calls are counted. -/
theorem ask (h : Bounded p s) {name : String} {bound : Bound}
    (hbound : s.natives.get? name = some bound) : (s.ask name bound).Orderly (Bounded p) := by
  obtain ⟨⟨hstanding, hbase, hcallers⟩, hnatives⟩ := h
  obtain ⟨harity, hreplies⟩ := hnatives name bound hbound
  unfold State.ask
  split
  · exact nofun
  · rw [if_neg (by omega)]
    dsimp only
    unfold State.answer
    dsimp only
    split
    · refine ⟨⟨hstanding, ?_, hcallers⟩, Dict.forall_get?_insert ⟨harity, hreplies⟩ hnatives⟩
      change s.frame.base ≤ (Array.push (s.stack.shrink _) _).size
      rw [Array.size_push, Array.size_shrink]
      omega
    · exact nofun
    · rename_i detail world hreply
      refine hreplies _ _ _ detail ?_ (congrArg Prod.fst hreply)
      rw [Array.length_toList, Array.size_extract]
      omega

theorem call (h : Bounded p s) (limits : Limits) (name : String) :
    (s.call p limits name).Orderly (Bounded p) := by
  unfold State.call
  split
  · rename_i f hlookup
    split at hlookup
    · cases hlookup
    · exact h.enter hlookup limits
  · split
    · rename_i bound hbound
      exact h.ask hbound
    · exact nofun

/-- An instruction of a checked program keeps the invariant. -/
theorem execute {natives : Dict Nat} {i : Instruction} (h : Bounded p s)
    (hi : i.WellFormed p natives s.frame.function.length) (limits : Limits) :
    (s.execute p limits i).Orderly (Bounded p) := by
  by_cases hcall : i.op = .call
  · unfold State.execute
    rw [hcall]
    exact h.call limits i.name
  · by_cases hret : i.op = .ret
    · unfold State.execute State.popping
      rw [hret]
      dsimp only
      split
      · rename_i htop
        have hlt : s.frame.base < s.stack.size := of_decide_eq_true htop
        obtain ⟨⟨hstanding, -, hcallers⟩, hnatives⟩ := h
        refine leave (s := s.drop) ⟨⟨hstanding, ?_, hcallers⟩, hnatives⟩ _
        change s.frame.base ≤ s.stack.pop.size
        rw [Array.size_pop]
        omega
      · exact nofun
    · exact h.stays hi (execute_stays p limits hi.assigned hcall hret)

/-- One step of a checked program keeps the invariant. -/
theorem step {natives : Dict Nat} (hp : p.WellFormed natives) (h : Bounded p s) (limits : Limits)
    (cancelled : Bool) : (s.step p limits cancelled).Orderly (Bounded p) := by
  obtain ⟨address, hfunction, hip, hle⟩ := h.calls.1
  unfold State.step
  rw [hip, if_neg (by omega), Int.toNat_natCast]
  dsimp only
  cases hi : s.frame.function.code[address]? with
  | none => exact h.leave .null
  | some i =>
      have hlt : address < s.frame.function.length := (Array.getElem?_eq_some_iff.mp hi).1
      have hbegun : Bounded p s.begin := by
        refine ⟨⟨⟨address + 1, hfunction, ?_, hlt⟩, h.calls.2⟩, h.natives⟩
        change s.frame.ip + 1 = ((address + 1 : Nat) : Int)
        rw [hip]
        rfl
      dsimp only
      split
      · exact nofun
      · split
        · exact nofun
        · obtain ⟨trace?, hrecorded⟩ := recorded_eq s.begin address i
          obtain ⟨name, hname⟩ := hfunction
          have hwellFormed := hp.code name _ hname i (Array.mem_of_getElem? hi)
          rw [hrecorded]
          exact execute (s := { s.begin with trace? := trace? })
            ⟨hbegun.calls, hbegun.natives⟩ hwellFormed limits

/-- Every state of a run keeps the invariant when the first one does. -/
theorem reachable {natives : Dict Nat} (hp : p.WellFormed natives) {limits : Limits} {first : State}
    (hfirst : Bounded p first) (h : Reachable p limits first s) : Bounded p s := by
  induction h with
  | first => exact hfirst
  | next cancelled _ hstep ih =>
      have horderly := ih.step hp limits cancelled
      rw [hstep] at horderly
      exact horderly

end Bounded

/-! ## Runs -/

/-- What the next step accesses lies within bounds. -/
structure State.InBounds (s : State) (p : Program) : Prop where
  /-- The next instruction is fetched from the code, unless the call is at its end. -/
  fetch : 0 ≤ s.frame.ip ∧ (s.frame.ip < s.frame.function.length →
    ∃ i, s.frame.function.code[s.frame.ip.toNat]? = some i)
  /-- The value that is taken or looked at is the last one on the stack. -/
  top : s.hasTop = true → s.stack[s.stack.size - 1]? = some s.top
  /-- Where a call takes its arguments, there are that many above the running call's base. -/
  arguments : ∀ taken, s.frame.base + taken ≤ s.stack.size →
    (s.stack.extract (s.stack.size - taken) s.stack.size).size = taken ∧
      s.frame.base ≤ (s.stack.shrink (s.stack.size - taken)).size
  /-- Every call has a function of the program and stands at an address of it. -/
  standing : ∀ frame ∈ s.frame :: s.callers, ∃ address, Standing p frame address
  /-- Every call is cut off within the stack, and above its caller. -/
  bases : s.frame.base ≤ s.stack.size ∧
    (s.frame :: s.callers).Pairwise fun upper lower => lower.base ≤ upper.base
  /-- Elements of lists are read within the list. -/
  element : ∀ place index v, Machine.element s.heap (.list place) index = .ok v →
    ∃ i, position index (s.heap.list place).size = .ok i ∧ (s.heap.list place)[i]? = some v
  /-- Characters are read within the text. -/
  character : ∀ text index v, Machine.element s.heap (.string text) index = .ok v →
    ∃ i c, position index text.toList.length = .ok i ∧ text.toList[i]? = some c ∧
      v = .string (String.ofList [c])
  /-- Elements of lists are assigned within the list. -/
  slot : ∀ place index found, Machine.slot s.heap (.list place) index = .ok found →
    ∃ i, position index (s.heap.list place).size = .ok i ∧ i < (s.heap.list place).size ∧
      found = .element place i

/-- How a run may end, or not yet have ended: with a value or a runtime error other than
for want of an operation. -/
def Outcome.Orderly : Outcome → Prop
  | .value _ | .unfinished => True
  | .failed e => ∀ label, e.cause ≠ .unknownOpcode label
  | .noTopLevel | .breakdown _ => False

theorem Nested.base_le {p : Program} {size : Nat} {frames : List Frame} (h : Nested p size frames) :
    ∀ frame ∈ frames, frame.base ≤ size := by
  induction frames generalizing size with
  | nil => nofun
  | cons upper rest ih =>
      obtain ⟨-, hbase, hrest⟩ := h
      rintro frame (_ | ⟨_, hframe⟩)
      · exact hbase
      · exact Nat.le_trans (ih hrest frame hframe) hbase

theorem Nested.pairwise {p : Program} {size : Nat} {frames : List Frame} (h : Nested p size frames) :
    frames.Pairwise fun upper lower => lower.base ≤ upper.base := by
  induction frames generalizing size with
  | nil => exact .nil
  | cons upper rest ih => exact .cons h.2.2.base_le (ih h.2.2)

theorem Nested.standing {p : Program} {size : Nat} {frames : List Frame} (h : Nested p size frames) :
    ∀ frame ∈ frames, ∃ address, Standing p frame address := by
  induction frames generalizing size with
  | nil => nofun
  | cons upper rest ih => exact List.forall_mem_cons.mpr ⟨h.1, ih h.2.2⟩

theorem Bounded.inBounds {p : Program} {s : State} (h : Bounded p s) : s.InBounds p where
  fetch := by
    obtain ⟨address, -, hip, hle⟩ := h.calls.1
    rw [hip]
    refine ⟨Int.natCast_nonneg _, fun hlt => ?_⟩
    exact ⟨_, Array.getElem?_eq_getElem (Int.ofNat_lt.mp hlt)⟩
  top := by
    intro htop
    have hlt : s.frame.base < s.stack.size := of_decide_eq_true htop
    unfold State.top
    rw [Array.back?_eq_getElem?, Array.getElem?_eq_getElem (by omega), Option.getD_some]
  arguments := by
    intro taken htaken
    rw [Array.size_extract, Array.size_shrink]
    omega
  standing := h.calls.standing
  bases := ⟨h.calls.2.1, h.calls.pairwise⟩
  element := fun _ _ _ => element_list
  character := fun _ _ _ => element_string
  slot := fun _ _ _ => slot_list

/-- A run that begins with the invariant ends orderly. -/
theorem Bounded.proceed {p : Program} {natives : Dict Nat} (hp : p.WellFormed natives)
    (limits : Limits) (cancelled : Bool) (patience : Nat) {s : State} (h : Bounded p s) :
    (Machine.proceed p limits cancelled patience s).1.Orderly := by
  induction patience generalizing s with
  | zero => exact trivial
  | succ patience ih =>
      have horderly := h.step hp limits cancelled
      unfold Machine.proceed
      cases hstep : s.step p limits cancelled <;> rw [hstep] at horderly
      case next s' => exact ih horderly
      case finished v s' => exact trivial
      case failed e s' => exact horderly
      case breakdown detail s' => exact horderly.elim

theorem bounded_start {m : Machine} {p : Program} {main : Function}
    (hnatives : ∀ name bound, m.natives.get? name = some bound → bound.Orderly)
    (hmain : p.main? = some main) : Bounded p (m.start main) :=
  ⟨⟨⟨0, ⟨topLevel, hmain⟩, rfl, Nat.zero_le _⟩, Nat.le_refl _, trivial⟩, hnatives⟩

/-- A program in which the check finds nothing runs safely on every machine whose host
functions are orderly: no step of any run accesses anything out of bounds or breaks the
host down, and a run that ends does so with a value or an error, never for want of an
operation. -/
theorem safe_of_invalid?_eq_none {p : Program} {natives : Dict Nat} {m : Machine}
    (hvalid : p.invalid? natives = none)
    (hnatives : ∀ name bound, m.natives.get? name = some bound → bound.Orderly) :
    (∀ main s, p.main? = some main → Reachable p m.limits (m.start main) s →
      s.InBounds p ∧
        ∀ cancelled detail s', s.step p m.limits cancelled ≠ .breakdown detail s') ∧
    ∀ patience cancelled, (m.runFor patience p cancelled).outcome.Orderly := by
  have hp := Program.invalid?_eq_none_iff.mp hvalid
  constructor
  · intro main s hmain hreachable
    have hbounded := (bounded_start hnatives hmain).reachable hp hreachable
    refine ⟨hbounded.inBounds, fun cancelled detail s' hstep => ?_⟩
    have horderly := hbounded.step hp m.limits cancelled
    rw [hstep] at horderly
    exact horderly
  · intro patience cancelled
    obtain ⟨main, hmain⟩ := hp.main
    unfold runFor
    rw [hmain]
    exact (bounded_start hnatives hmain).proceed hp m.limits cancelled patience

/-- Logging always comes back when it is given its value. -/
theorem orderly_log (name : String) (bound : Bound)
    (hbound : (Machine.bind {} "log" 1 Native.log).natives.get? name = some bound) : bound.Orderly := by
  unfold Machine.bind at hbound
  by_cases hname : name = "log"
  · subst hname
    rw [Dict.get?_insert_self] at hbound
    cases hbound
    refine ⟨by decide, fun calls args world detail hlength => ?_⟩
    obtain ⟨v, rfl⟩ := List.length_eq_one_iff.mp (Int.ofNat_inj.mp hlength)
    exact nofun
  · rw [Dict.get?_insert_of_ne _ _ hname] at hbound
    cases hbound

/-- A program that no script is compiled to: it jumps over the value that its call takes. -/
def jumpToCall : Program :=
  ⟨Dict.insert ∅ topLevel
    { name := topLevel
      code? := some #[{ op := .jump, target := 2 }, { op := .list }, { op := .call, name := "log" }] }⟩

/-- The call without its argument passes the check and fails in order. -/
theorem safe_jumpToCall :
    jumpToCall.invalid? (Dict.insert ∅ "log" 1) = none ∧
      ∀ patience cancelled,
        ((Machine.bind {} "log" 1 Native.log).runFor patience jumpToCall cancelled).outcome.Orderly := by
  have hvalid : jumpToCall.invalid? (Dict.insert ∅ "log" 1) = none := by decide +kernel
  exact ⟨hvalid, (safe_of_invalid?_eq_none hvalid orderly_log).2⟩

end LineScript.Machine
