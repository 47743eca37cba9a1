/-
# A run in the middle of a longer one

A program and a longer one that has its functions, and its top level in the middle of its own. What
the first one does, the longer one does when it comes to that place: step by step, with what was
written and counted before, until the first one falls off the end of its top level. There it would
be over, and the longer one goes on.

Once more this is an exchange of the setting. What it asks for holds in every state of a run
of a compiled program: the top level is the lowest call, the only one without variables of its own,
and nothing is called but functions of the program and host functions.
-/

import LineScript.Proofs.CompiledCode
import LineScript.Proofs.FrameIsolation
import LineScript.Proofs.JoinedEntries

namespace LineScript.Machine

open LineScript.Code LineScript.Tree

/-! ## Calls above the top level -/

/-- Host functions that take no notice of what was written before. -/
def Heedless (natives : Dict Bound) : Prop :=
  ∀ name bound, natives.get? name = some bound → ∀ before, bound.native.Heedless before

/-- The calls of a run, innermost first: the lowest is the top level, which has no variables of its
own, and the others are functions. -/
def Rooted (main : Function) : List Frame → Prop
  | [] => False
  | [f] => f.function = main ∧ f.locals? = none
  | f :: caller :: callers => f.function.name ≠ topLevel ∧ Rooted main (caller :: callers)

section

variable {p : Program} {limits : Limits} {s s' : State} {main : Function}

/-- What a transition to another state keeps: whether the running call has variables of its own. -/
def Transition.KeepsLocals (own : Bool) : Transition → Prop
  | .next s => s.frame.locals?.isSome = own
  | _ => True

theorem keepsLocals_popping {own : Bool} {k : Value → State → Transition}
    (hk : ∀ v, (k v s.drop).KeepsLocals own) : (s.popping k).KeepsLocals own := by
  unfold State.popping
  split
  · exact hk _
  · trivial

theorem keepsLocals_withTop {own : Bool} {k : Value → State → Transition}
    (hk : ∀ v, (k v s).KeepsLocals own) : (s.withTop k).KeepsLocals own := by
  unfold State.withTop
  split
  · exact hk _
  · trivial

theorem keepsLocals_pushing (r : Except Cause Value) :
    (s.pushing r).KeepsLocals s.frame.locals?.isSome := by
  cases r with
  | ok v => rfl
  | error cause => trivial

theorem isSome_locals?_store (s : State) (name : String) (v : Value) :
    (s.store name v).frame.locals?.isSome = s.frame.locals?.isSome := by
  unfold State.store
  split
  · rename_i locals _ hlocals
    rw [hlocals]
    rfl
  · rfl

/-- An instruction within the running call only changes variables that are there. -/
theorem keepsLocals_execute (limits : Limits) {i : Instruction} (hcall : i.op ≠ .call)
    (hret : i.op ≠ .ret) : (s.execute p limits i).KeepsLocals s.frame.locals?.isSome := by
  obtain ⟨op, literal, name, target, line⟩ := i
  unfold State.execute
  cases op <;> dsimp only
  case call => exact absurd rfl hcall
  case ret => exact absurd rfl hret
  case unassigned => trivial
  case value | load | list | object | jump => rfl
  case pop | not => exact keepsLocals_popping fun _ => rfl
  case store => exact keepsLocals_popping fun v => isSome_locals?_store _ name v
  case append | set =>
    refine keepsLocals_popping fun v => keepsLocals_withTop fun c => ?_
    split
    · rfl
    · trivial
  case get | negate =>
    refine keepsLocals_popping fun c => ?_
    split
    · rfl
    · trivial
  case put =>
    refine keepsLocals_popping fun v => keepsLocals_popping fun j => keepsLocals_popping fun c => ?_
    dsimp only
    split
    · rfl
    · trivial
  case branch =>
    refine keepsLocals_popping fun v => ?_
    split <;> rfl
  case skipAnd | skipOr =>
    refine keepsLocals_withTop fun v => ?_
    split <;> rfl
  case and | or | equal | notEqual =>
    exact keepsLocals_popping fun b => keepsLocals_popping fun a => rfl
  case index | add | subtract | multiply | divide | less | lessOrEqual | greater | greaterOrEqual =>
    exact keepsLocals_popping fun b => keepsLocals_popping fun a => keepsLocals_pushing _

/-- What a step keeps of the host functions and of the variables of the running call. -/
structure KeepsSetting (s s' : State) : Prop where
  heedless : Heedless s.natives → Heedless s'.natives
  locals : s'.callers = s.callers → s'.frame.locals?.isSome = s.frame.locals?.isSome

theorem keepsSetting_of_enter {name : String} {f : Function}
    (h : s.enter limits name f = .next s') : KeepsSetting s s' := by
  unfold State.enter at h
  dsimp only at h
  split at h
  · cases h
  · split at h
    · cases h
    · cases h
      exact ⟨id, fun hcallers => absurd hcallers (List.cons_ne_self _ _)⟩

theorem keepsSetting_of_ask {name : String} {bound : Bound} (hbound : s.natives.get? name = some bound)
    (h : s.ask name bound = .next s') : KeepsSetting s s' := by
  obtain ⟨base, v, world, -, -, -, rfl⟩ := ask_eq_next h
  refine ⟨fun hheedless => ?_, fun _ => rfl⟩
  exact Dict.forall_get?_insert (hheedless name bound hbound) hheedless

theorem keepsSetting_of_leave {v : Value} (h : s.leave v = .next s') : KeepsSetting s s' := by
  obtain ⟨stack, frame, callers, globals, world, natives, steps, trace?⟩ := s
  cases callers with
  | nil => cases h
  | cons caller callers =>
      cases h
      exact ⟨id, fun hcallers => absurd hcallers.symm (List.cons_ne_self _ _)⟩

theorem keepsSetting_of_execute {i : Instruction} (h : s.execute p limits i = .next s') :
    KeepsSetting s s' := by
  by_cases hcall : i.op = .call
  · unfold State.execute at h
    rw [hcall] at h
    unfold State.call at h
    dsimp only at h
    split at h
    · exact keepsSetting_of_enter h
    · split at h
      · rename_i hbound
        exact keepsSetting_of_ask hbound h
      · cases h
  by_cases hret : i.op = .ret
  · unfold State.execute State.popping at h
    rw [hret] at h
    dsimp only at h
    split at h
    · obtain ⟨hheedless, hlocals⟩ := keepsSetting_of_leave h
      exact ⟨hheedless, hlocals⟩
    · cases h
  have hlocals := keepsLocals_execute (p := p) (s := s) limits hcall hret
  rw [h] at hlocals
  refine ⟨fun hheedless => ?_, fun _ => hlocals⟩
  by_cases hassigned : i.op.isAssigned = true
  · have hstays := execute_stays (s := s) p limits hassigned hcall hret
    rw [h] at hstays
    rwa [hstays.natives]
  · obtain ⟨op, literal, name, target, line⟩ := i
    cases op <;> first | exact absurd rfl hassigned | cases h

/-- What a state with a place in the code does next. -/
theorem step_of_ip {address : Nat} (hsteps : limits.steps ≤ 0) (hip : s.frame.ip = address) :
    s.step p limits false =
      match s.frame.function.code[address]? with
      | none => s.leave .null
      | some i => (s.begin.recorded address i).execute p limits i := by
  unfold State.step
  rw [hip, if_neg (by omega), Int.toNat_natCast]
  dsimp only
  cases s.frame.function.code[address]? with
  | none => rfl
  | some i =>
      dsimp only
      rw [if_neg (by omega), if_neg (by simp)]

theorem keepsSetting_of_step {cancelled : Bool} (h : s.step p limits cancelled = .next s') :
    KeepsSetting s s' := by
  unfold State.step at h
  split at h
  · cases h
  · dsimp only at h
    split at h
    · exact keepsSetting_of_leave h
    · rename_i i _
      split at h
      · cases h
      · split at h
        · cases h
        · obtain ⟨trace?, hrecorded⟩ := recorded_eq s.begin s.frame.ip.toNat i
          rw [hrecorded] at h
          obtain ⟨hheedless, hlocals⟩ := keepsSetting_of_execute h
          exact ⟨hheedless, hlocals⟩

/-- The calls of a run stand above the top level. -/
theorem Rooted.step {cancelled : Bool} (hp : p.Keyed) (h : Rooted main (s.frame :: s.callers))
    (hstep : s.step p limits cancelled = .next s') : Rooted main (s'.frame :: s'.callers) := by
  obtain ⟨-, hlocals⟩ := keepsSetting_of_step hstep
  obtain hremains | ⟨f, args, henters⟩ | ⟨v, hreturns⟩ := step_cases hstep
  · have hsame := hlocals hremains.callers
    rw [hremains.callers]
    cases hcallers : s.callers with
    | nil =>
        rw [hcallers] at h
        obtain ⟨hmain, hnone⟩ := h
        rw [hnone] at hsame
        exact ⟨hremains.function.trans hmain, Option.isNone_iff_eq_none.mp (by simpa using hsame)⟩
    | cons caller callers =>
        rw [hcallers] at h
        obtain ⟨hname, hrest⟩ := h
        exact ⟨by rw [hremains.function]; exact hname, hrest⟩
  · obtain ⟨name, hname, hf⟩ := henters.function
    rw [henters.callers, henters.frame]
    refine ⟨by rw [hp name f hf]; exact hname, ?_⟩
    cases hcallers : s.callers with
    | nil =>
        rw [hcallers] at h
        exact h
    | cons caller callers =>
        rw [hcallers] at h
        exact h
  · rw [hreturns.callers] at h
    exact h.2

end

/-! ## The states of a run -/

/-- What holds in every state of a run of a compiled program. -/
structure Regular (c : Compiler) (p : Program) (main : Function) (s : State) : Prop where
  balanced : Balanced c p s
  layered : Layered s
  rooted : Rooted main (s.frame :: s.callers)
  heedless : Heedless s.natives

namespace Regular

variable {c : Compiler} {p : Program} {limits : Limits} {main : Function} {s t : State}

theorem start {m : Machine} (hserved : Served c m.natives) (hheedless : Heedless m.natives)
    (hmain : p.main? = some main) : Regular c p main (m.start main) :=
  ⟨balanced_start hserved hmain, .start m main, ⟨rfl, rfl⟩, hheedless⟩

theorem step (hkeyed : p.Keyed) (hp : Fitting c p) (h : Regular c p main s)
    (hstep : s.step p limits false = .next t) : Regular c p main t := by
  have hsafe := h.balanced.step hp limits false
  rw [hstep] at hsafe
  exact ⟨hsafe, h.layered.step hstep, h.rooted.step hkeyed hstep,
    (keepsSetting_of_step hstep).heedless h.heedless⟩

theorem steps (hkeyed : p.Keyed) (hp : Fitting c p) {count : Nat} (h : Regular c p main s)
    (hsteps : Steps p limits count s t) : Regular c p main t := by
  induction hsteps with
  | refl s => exact h
  | step hstep _ ih => exact ih (h.step hkeyed hp hstep)

/-- At the end of the top level nothing is left on the stack. -/
theorem ended (hp : Fitting c p) (h : Regular c p main t) (hcallers : t.callers = [])
    (hend : t.frame.function.code[t.frame.ip.toNat]? = none) :
    t.stack = #[] ∧ t.frame = { function := main, ip := main.length } := by
  obtain ⟨⟨address, hholding⟩, hlayered, hrooted, -⟩ := h
  rw [hcallers] at hrooted
  obtain ⟨hmain, hlocals⟩ := hrooted
  have hbase : t.frame.base = 0 := by
    have hbottom := hlayered.bottom
    unfold State.bases at hbottom
    rw [hcallers] at hbottom
    exact Option.some.inj hbottom
  have haddress : address = t.frame.function.length := by
    have hle := hholding.standing.le
    rw [hholding.standing.ip, Int.toNat_natCast, Array.getElem?_eq_none_iff] at hend
    exact Nat.le_antisymm hle hend
  constructor
  · obtain ⟨name, hname⟩ := hholding.standing.function
    obtain ⟨boundaries, hfitted⟩ := hp name _ hname
    have hending := hfitted.ending
    rw [List.length_map, Array.length_toList] at hending
    have hsize := hholding.size
    rw [hbase, haddress] at hsize
    exact Array.eq_empty_of_size_eq_zero (hsize.trans ((Nat.zero_add _).trans hending))
  · have hip := hholding.standing.ip
    rw [haddress, hmain] at hip
    generalize t.frame = frame at hmain hlocals hbase hip ⊢
    obtain ⟨function, ip, base, locals?⟩ := frame
    dsimp only at hmain hlocals hbase hip
    rw [hmain, hlocals, hbase, hip]

end Regular

/-! ## A program within a longer one -/

/-- The function of a program under the name of another. -/
def counterpart (q : Program) (f : Function) : Function := (q.functions.get? f.name).getD f

/-- How far the instructions of a function move when the top level has others before. -/
def distance (before : Nat) (f : Function) : Nat := if f.name = topLevel then before else 0

/-- The longer program in place of the other, with something written and counted before. -/
def Recasting.into (q : Program) (before : Nat) (output : String) (steps : Nat)
    (trace? : Option String) : Recasting where
  function := counterpart q
  shift f := (distance before f : Nat)
  output := output
  steps := steps
  trace _ := trace?

/-- A program within a longer one: its functions are there, and the code of its top level
stands behind other code. -/
structure Part (c : Compiler) (before : List Instruction) (p q : Program) : Prop where
  keyed : p.Keyed
  fitting : Fitting c p
  main : ∀ main, p.main? = some main → ∃ main' after, q.main? = some main' ∧
    main'.code.toList.map Instruction.unplaced =
      before ++ main.code.toList.map (Instruction.moved before.length) ++ after
  functions : ∀ name f, name ≠ topLevel → p.functions.get? name = some f →
    ∃ f', q.functions.get? name = some f' ∧ f'.shape = f.shape
  natives : ∀ name, c.natives.contains name = true → name ≠ topLevel →
    p.functions.get? name = none → q.functions.get? name = none

namespace Part

variable {c : Compiler} {before : List Instruction} {p q : Program} {limits : Limits}
  {main : Function} {s t : State} {output : String} {begun : Nat} {trace? : Option String}

theorem shape_counterpart (h : Part c before p q) {name : String} {f : Function}
    (hname : name ≠ topLevel) (hf : p.functions.get? name = some f) :
    (counterpart q f).shape = f.shape := by
  obtain ⟨f', hf', hshape⟩ := h.functions name f hname hf
  rw [counterpart, h.keyed name f hf, hf']
  exact hshape

theorem distance_eq_zero (h : Part c before p q) {name : String} {f : Function}
    (hname : name ≠ topLevel) (hf : p.functions.get? name = some f) :
    distance before.length f = 0 := by
  rw [distance, h.keyed name f hf, if_neg hname]

/-- The code of a function in the longer program. -/
theorem code_counterpart (h : Part c before p q) {name : String} {f : Function}
    (hf : p.functions.get? name = some f) :
    ∃ before' after, before'.length = distance before.length f ∧
      (counterpart q f).code.toList.map Instruction.unplaced =
        before' ++ f.code.toList.map (Instruction.moved (distance before.length f)) ++ after ∧
      (name ≠ topLevel → after = []) := by
  by_cases hname : name = topLevel
  · subst hname
    obtain ⟨main', after, hmain', hcode⟩ := h.main f hf
    rw [counterpart, distance, h.keyed _ f hf, if_pos rfl,
      show q.functions.get? topLevel = some main' from hmain']
    exact ⟨before, after, rfl, hcode, fun hne => absurd rfl hne⟩
  · refine ⟨[], [], (h.distance_eq_zero hname hf).symm, ?_, fun _ => rfl⟩
    have hcode : (counterpart q f).code.toList.map Instruction.unplaced =
        f.code.toList.map Instruction.unplaced := congrArg Shape.code (h.shape_counterpart hname hf)
    rw [hcode, h.distance_eq_zero hname hf, List.append_nil, List.nil_append,
      List.map_congr_left fun i _ => Instruction.moved_zero i]

/-- Where an instruction stands in the longer program. -/
theorem getElem?_counterpart (h : Part c before p q) {name : String} {f : Function}
    (hf : p.functions.get? name = some f) {address : Nat} {i : Instruction}
    (hi : f.code[address]? = some i) :
    ∃ i', (counterpart q f).code[address + distance before.length f]? = some i' ∧
      i'.unplaced = i.moved (distance before.length f) := by
  obtain ⟨before', after, hlength, hcode, -⟩ := h.code_counterpart hf
  have hlookup := congrArg (fun code => code[address + distance before.length f]?) hcode
  rw [List.append_assoc, List.getElem?_append_right (by omega), hlength, Nat.add_sub_cancel,
    List.getElem?_append_left (by simpa using (Array.getElem?_eq_some_iff.mp hi).1),
    List.getElem?_map, List.getElem?_map, Array.getElem?_toList, Array.getElem?_toList, hi,
    Option.map_some, Option.map_eq_some_iff] at hlookup
  exact hlookup

/-- A function ends at the same place. -/
theorem getElem?_counterpart_eq_none (h : Part c before p q) {name : String} {f : Function}
    (hname : name ≠ topLevel) (hf : p.functions.get? name = some f) {address : Nat}
    (hi : f.code[address]? = none) :
    (counterpart q f).code[address + distance before.length f]? = none := by
  have hlength := congrArg (fun shape => shape.code.length) (h.shape_counterpart hname hf)
  simp only [Function.shape, List.length_map, Array.length_toList] at hlength
  rw [Array.getElem?_eq_none_iff] at hi ⊢
  omega

theorem covers (h : Part c before p q) (hs : Regular c p main s) :
    (Recasting.into q before.length output begun trace?).Covers s := by
  obtain ⟨address, hholding⟩ := hs.balanced
  refine ⟨Nat.zero_le _, hs.layered.top, Nat.zero_le _, fun hlocals => ?_⟩
  obtain ⟨name, hf⟩ := hholding.standing.function
  have hname : name ≠ topLevel := by
    have hrooted := hs.rooted
    cases hcallers : s.callers with
    | nil =>
        rw [hcallers] at hrooted
        exact absurd hrooted.2 hlocals
    | cons caller callers =>
        rw [hcallers] at hrooted
        rw [← h.keyed name _ hf]
        exact hrooted.1
  exact congrFun (congrArg Shape.own (h.shape_counterpart hname hf))

/-- A name that can be called stands for the same. -/
theorem resolves (h : Part c before p q) {name : String} {count : Nat}
    (hname : c.arity? p name = some count) :
    (Recasting.into q before.length output begun trace?).Resolves p q name := by
  constructor
  · by_cases hreserved : name = topLevel
    · rw [if_pos hreserved, if_pos hreserved]
      rfl
    · rw [if_neg hreserved, if_neg hreserved]
      cases hf : p.functions.get? name with
      | some f =>
          obtain ⟨f', hf', -⟩ := h.functions name f hreserved hf
          change _ = some (counterpart q f)
          rw [counterpart, h.keyed name f hf, hf']
          rfl
      | none =>
          obtain ⟨-, hcontains⟩ | hnative := Compiler.callee_of_arity? hname
          · obtain ⟨f, hf'⟩ := Dict.contains_iff.mp hcontains
            rw [hf] at hf'
            cases hf'
          · refine h.natives name ?_ hreserved hf
            obtain ⟨count', hcount⟩ := Dict.contains_iff.mp hnative
            rw [Compiler.arities, Dict.get?_map, Option.map_eq_some_iff] at hcount
            obtain ⟨params, hparams, -⟩ := hcount
            exact Dict.contains_iff.mpr ⟨params, hparams⟩
  · intro f hf hreserved
    refine ⟨congrArg Shape.params (h.shape_counterpart hreserved hf), ?_⟩
    exact congrArg Nat.cast (h.distance_eq_zero hreserved hf)

/-- An instruction that fits is moved as a whole: its target, if it has one, is known. -/
theorem moved {i i' : Instruction} {f : Function} {arity : String → Option Nat} {length address : Nat}
    {height : Nat → Nat} (hfits : i.unplaced.Fits arity length height address)
    (hsame : i'.unplaced = i.moved (distance before.length f)) :
    (Recasting.into q before.length output begun trace?).Moved f i i' := by
  have hop : i'.unplaced.op = i.op := by
    rw [hsame]
    rfl
  have hliteral : i'.unplaced.literal = i.literal := by
    rw [hsame]
    rfl
  have hname : i'.unplaced.name = i.name := by
    rw [hsame]
    rfl
  refine ⟨hop, hliteral, hname, fun hjump => ?_⟩
  obtain ⟨target, htarget, -⟩ := hfits.target hjump
  have hknown : i.target ≠ unresolvedTarget := by
    rw [show i.target = target from htarget]
    unfold unresolvedTarget
    omega
  have hmoved : i'.unplaced.target = (i.moved (distance before.length f)).target := by rw [hsame]
  unfold Instruction.moved at hmoved
  rw [if_pos ⟨hjump, hknown⟩] at hmoved
  exact hmoved

/-- A step of the program is a step of the longer one. -/
theorem step (h : Part c before p q) (hfree : limits.Free) (hs : Regular c p main s)
    (hstep : s.step p limits false = .next t) (output : String) (begun : Nat) (trace? : Option String) :
    ∃ trace?', ((Recasting.into q before.length output begun trace?).state s).step q limits false =
      .next ((Recasting.into q before.length output begun trace?').state t) := by
  have hcovers : ∀ trace?, (Recasting.into q before.length output begun trace?).Covers s :=
    fun _ => h.covers hs
  obtain ⟨address, hholding⟩ := hs.balanced
  obtain ⟨name, hf⟩ := hholding.standing.function
  have hip := hholding.standing.ip
  have hip' : ((Recasting.into q before.length output begun trace?).state s).frame.ip =
      (address + distance before.length s.frame.function : Nat) := by
    rw [(hcovers trace?).frame_eq, Int.natCast_add, ← hip]
    rfl
  have hfunction : ((Recasting.into q before.length output begun trace?).state s).frame.function =
      counterpart q s.frame.function := by
    rw [(hcovers trace?).frame_eq]
    rfl
  rw [step_of_ip hfree.steps hip] at hstep
  rw [step_of_ip hfree.steps hip', hfunction]
  cases hi : s.frame.function.code[address]? with
  | none =>
      rw [hi] at hstep
      dsimp only at hstep
      -- Only a function returns at the end of its code; at that of the top level the run is over.
      have hname : name ≠ topLevel := by
        have hrooted := hs.rooted
        rw [(returns_of_leave hstep).callers] at hrooted
        rw [← h.keyed name _ hf]
        exact hrooted.1
      rw [h.getElem?_counterpart_eq_none hname hf hi]
      dsimp only
      rw [(hcovers trace?).leave, hstep]
      exact ⟨trace?, rfl⟩
  | some i =>
      rw [hi] at hstep
      dsimp only at hstep
      obtain ⟨boundaries, hfitted⟩ := h.fitting name _ hf
      have hfits := hfitted.fits address i.unplaced (by simp [hi])
      obtain ⟨i', hi', hsame⟩ := h.getElem?_counterpart hf hi
      rw [hi']
      dsimp only
      -- The record of the longer run is whatever it is.
      obtain ⟨record?, hrecorded⟩ := recorded_eq s.begin address i
      obtain ⟨trace?', hrecorded'⟩ := recorded_eq
        ((Recasting.into q before.length output begun trace?).state s.begin)
        (address + distance before.length s.frame.function) i'
      have hcovers' := (hcovers trace?').begin.recorded address i
      rw [hrecorded] at hstep hcovers'
      rw [(hcovers trace?).begin_eq, hrecorded']
      have hexecute := hcovers'.execute limits (moved hfits hsame)
        (fun hop => h.resolves (hfits.callee hop).choose_spec)
        (fun name bound hbound => hs.heedless name bound hbound output)
      rw [hstep] at hexecute
      exact ⟨trace?', hexecute⟩

/-- A run of the program is a run of the longer one. -/
theorem steps (h : Part c before p q) (hfree : limits.Free) {count : Nat} (hs : Regular c p main s)
    (hsteps : Steps p limits count s t) (output : String) (begun : Nat) (trace? : Option String) :
    ∃ trace?', Steps q limits count
      ((Recasting.into q before.length output begun trace?).state s)
      ((Recasting.into q before.length output begun trace?').state t) := by
  induction hsteps generalizing trace? with
  | refl s => exact ⟨trace?, .refl _⟩
  | step hstep _ ih =>
      obtain ⟨trace?₁, hstep'⟩ := h.step hfree hs hstep output begun trace?
      obtain ⟨trace?₂, hsteps'⟩ := ih (hs.step h.keyed h.fitting hstep) trace?₁
      exact ⟨trace?₂, .step hstep' hsteps'⟩

end Part

/-! ## Runs to the end of the top level -/

section

variable {p : Program} {limits : Limits} {s s' : State} {v : Value}

theorem callers_of_leave {w : Value} (h : s.leave w = .finished v s') :
    s.callers = [] ∧ s'.globals = s.globals ∧ s'.world = s.world ∧ s'.natives = s.natives := by
  obtain ⟨stack, frame, callers, globals, world, natives, steps, trace?⟩ := s
  cases callers with
  | nil =>
      cases h
      exact ⟨rfl, rfl, rfl, rfl⟩
  | cons caller callers => cases h

/-- Only a return ends a run. -/
theorem ret_of_execute {i : Instruction} (h : s.execute p limits i = .finished v s') :
    i.op = .ret ∧ s.callers = [] := by
  by_cases hcall : i.op = .call
  · unfold State.execute at h
    rw [hcall] at h
    unfold State.call at h
    dsimp only at h
    split at h
    · unfold State.enter at h
      dsimp only at h
      split at h
      · cases h
      · split at h <;> cases h
    · split at h
      · unfold State.ask at h
        split at h
        · cases h
        · split at h
          · cases h
          · obtain ⟨stack, frame, callers, globals, world, natives, steps, trace?⟩ := s
            unfold State.answer at h
            dsimp only at h
            split at h <;> cases h
      · cases h
  by_cases hret : i.op = .ret
  · unfold State.execute State.popping at h
    rw [hret] at h
    dsimp only at h
    split at h
    · exact ⟨hret, (callers_of_leave h).1⟩
    · cases h
  by_cases hassigned : i.op.isAssigned = true
  · have hstays := execute_stays (s := s) p limits hassigned hcall hret
    rw [h] at hstays
    exact hstays.elim
  · obtain ⟨op, literal, name, target, line⟩ := i
    cases op <;> first | exact absurd rfl hassigned | cases h

/-- A run is over at the end of the top level, or with a return there. -/
theorem end_or_ret_of_step (h : s.step p limits false = .finished v s') :
    s.callers = [] ∧
      ((s.frame.function.code[s.frame.ip.toNat]? = none ∧
          s'.globals = s.globals ∧ s'.world = s.world ∧ s'.natives = s.natives) ∨
        ∃ i, s.frame.function.code[s.frame.ip.toNat]? = some i ∧ i.op = .ret) := by
  unfold State.step at h
  split at h
  · cases h
  · dsimp only at h
    split at h
    · rename_i hend
      obtain ⟨hcallers, hkept⟩ := callers_of_leave h
      exact ⟨hcallers, .inl ⟨hend, hkept⟩⟩
    · rename_i i hi
      split at h
      · cases h
      · split at h
        · cases h
        · obtain ⟨trace?, hrecorded⟩ := recorded_eq s.begin s.frame.ip.toNat i
          rw [hrecorded] at h
          obtain ⟨hret, hcallers⟩ := ret_of_execute h
          exact ⟨hcallers, .inr ⟨i, hi, hret⟩⟩

/-- The last step of a run that ends with a value. -/
theorem exists_steps_of_proceed {patience : Nat}
    (h : proceed p limits false patience s = (.value v, s')) :
    ∃ count t, Steps p limits count s t ∧ t.step p limits false = .finished v s' := by
  induction patience generalizing s with
  | zero => cases h
  | succ patience ih =>
      unfold proceed at h
      cases hstep : s.step p limits false <;> rw [hstep] at h
      case next u =>
        obtain ⟨count, t, hsteps, hend⟩ := ih h
        exact ⟨count + 1, t, .step hstep hsteps, hend⟩
      case finished w u =>
        cases h
        exact ⟨0, s, .refl s, hstep⟩
      all_goals cases h

theorem Steps.reachable {count : Nat} (h : Steps p limits count s s') : Reachable p limits s s' := by
  induction h with
  | refl s => exact .first
  | step hstep _ ih =>
      clear * - hstep ih
      induction ih with
      | first => exact .next false .first hstep
      | next cancelled _ hstep' ih => exact .next cancelled ih hstep'

end

/-- A run goes to the end of the top level: no error stops it, and no return there. -/
structure RunsThrough (m : Machine) (p : Program) : Prop where
  value : ∃ v, (m.run p).outcome = .value v
  returns : ∀ main s i, p.main? = some main → Reachable p m.limits (m.start main) s →
    s.callers = [] → s.frame.function.code[s.frame.ip.toNat]? = some i → i.op ≠ .ret

/-- The function at the bottom of a run is the one it began with. -/
theorem function_of_reachable {p : Program} {limits : Limits} {m : Machine} {main : Function}
    {s : State} (h : Reachable p limits (m.start main) s) :
    ((s.frame :: s.callers).map Frame.function).getLast? = some main := by
  induction h with
  | first => rfl
  | @next s s' cancelled _ hstep ih =>
      obtain hremains | ⟨f, args, henters⟩ | ⟨v, hreturns⟩ := step_cases hstep
      · rw [hremains.callers, List.map_cons, hremains.function]
        exact ih
      · rw [henters.callers, List.map_cons, List.map_cons, List.getLast?_cons_cons]
        exact ih
      · rw [hreturns.callers, List.map_cons, List.map_cons, List.getLast?_cons_cons] at ih
        exact ih

/-- A run that ends with a value goes to the end of the top level when there is no return in
it. -/
theorem RunsThrough.of_code {m : Machine} {p : Program} (hvalue : ∃ v, (m.run p).outcome = .value v)
    (hcode : ∀ main, p.main? = some main → ∀ i ∈ main.code, i.op ≠ .ret) : m.RunsThrough p := by
  refine ⟨hvalue, fun main s i hmain hreachable hcallers hi => ?_⟩
  have hbottom := function_of_reachable hreachable
  rw [hcallers] at hbottom
  have hfunction : s.frame.function = main := Option.some.inj hbottom
  rw [hfunction] at hi
  exact hcode main hmain i (Array.mem_of_getElem? hi)

/-- The last state of a run to the end of the top level, and what the machine keeps of it. -/
theorem RunsThrough.ends {c : Compiler} {p : Program} {main : Function} {m : Machine}
    (h : m.RunsThrough p) (hkeyed : p.Keyed) (hp : Fitting c p) (hmain : p.main? = some main)
    (hserved : Served c m.natives) (hheedless : Heedless m.natives) :
    ∃ count t, Steps p m.limits count (m.start main) t ∧ Regular c p main t ∧
      t.stack = #[] ∧ t.frame = { function := main, ip := main.length } ∧ t.callers = [] ∧
      (m.run p).output = t.world.output ∧ ∃ steps, (m.run p).machine = { m with
        natives := t.natives, globals := t.globals, heap := t.world.heap, steps := steps } := by
  have hrun : m.run p = m.report (proceed p m.limits false patience (m.start main)).1
      (proceed p m.limits false patience (m.start main)).2 := by
    unfold run runFor
    rw [hmain]
  obtain ⟨v, hvalue⟩ := h.value
  rw [hrun] at hvalue ⊢
  have hproceed : proceed p m.limits false patience (m.start main) =
      (.value v, (proceed p m.limits false patience (m.start main)).2) := Prod.ext hvalue rfl
  obtain ⟨count, t, hsteps, hend⟩ := exists_steps_of_proceed hproceed
  generalize proceed p m.limits false patience (m.start main) = ended at hend ⊢
  have ht := (Regular.start hserved hheedless hmain).steps hkeyed hp hsteps
  obtain ⟨hcallers, ⟨hlast, hglobals, hworld, hnatives⟩ | ⟨i, hi, hret⟩⟩ := end_or_ret_of_step hend
  · obtain ⟨hstack, hframe⟩ := ht.ended hp hcallers hlast
    refine ⟨count, t, hsteps, ht, hstack, hframe, hcallers, ?_, ended.2.steps, ?_⟩
    · exact congrArg World.output hworld
    · unfold report
      dsimp only
      rw [hglobals, hworld, hnatives]
  · exact absurd hret (h.returns main t i hmain hsteps.reachable hcallers hi)

theorem limits_run (m : Machine) (p : Program) : (m.run p).machine.limits = m.limits := by
  unfold run runFor
  split <;> rfl

/-- The state of a run at an address of its top level, with nothing on the stack. -/
def resting (m : Machine) (main : Function) (address : Nat) (output : String) (steps : Nat)
    (trace? : Option String) : State where
  frame := { function := main, ip := address }
  globals := m.globals
  world := { heap := m.heap, output := output }
  natives := m.natives
  steps := steps
  trace? := trace?

namespace Part

variable {c : Compiler} {before : List Instruction} {p q : Program} {main main' : Function}

/-- A state between two statements of the top level, in the longer program. -/
theorem state_into {s : State} {address : Nat} (h : Part c before p q)
    (hmain : p.main? = some main) (hmain' : q.main? = some main') (hstack : s.stack = #[])
    (hframe : s.frame = { function := main, ip := address }) (hcallers : s.callers = [])
    (output : String) (steps : Nat) (trace? : Option String) :
    (Recasting.into q before.length output steps trace?).state s =
      { frame := { function := main', ip := (before.length + address : Nat) }
        globals := s.globals
        world := s.world.behind output
        natives := s.natives
        steps := steps + s.steps
        trace? := trace? } := by
  have hname : main.name = topLevel := h.keyed topLevel main hmain
  have hcounterpart : counterpart q main = main' := by
    rw [counterpart, hname, show q.functions.get? topLevel = some main' from hmain']
    rfl
  have hdistance : (Recasting.into q before.length output steps trace?).shift main =
      (before.length : Nat) := by
    change ((distance before.length main : Nat) : Int) = before.length
    rw [distance, if_pos hname]
  have hnew : (Recasting.into q before.length output steps trace?).frame
        { function := main, ip := address } =
      { function := main', ip := (before.length + address : Nat) } := by
    rw [← hcounterpart, Int.natCast_add, Int.add_comm, ← hdistance]
    rfl
  rw [Recasting.state_eq (Nat.zero_le _), hstack, hframe, hcallers, hnew]
  rfl

/-- A run to the end of the top level takes the longer program past the code that it runs. -/
theorem runs {m : Machine} (h : Part c before p q) (hmain : p.main? = some main)
    (hmain' : q.main? = some main') (hserved : Served c m.natives) (hheedless : Heedless m.natives)
    (hfree : m.limits.Free) (hthrough : m.RunsThrough p) (output : String) (steps : Nat)
    (trace? : Option String) :
    ∃ count steps' trace?', Steps q m.limits count
      (m.resting main' before.length output steps trace?)
      ((m.run p).machine.resting main' (before.length + main.length) (output ++ (m.run p).output)
        steps' trace?') := by
  obtain ⟨count, t, hsteps, ht, hstack, hframe, hcallers, houtput, steps₁, hmachine⟩ :=
    hthrough.ends h.keyed h.fitting hmain hserved hheedless
  obtain ⟨trace?', hsteps'⟩ :=
    h.steps hfree (.start hserved hheedless hmain) hsteps output steps trace?
  rw [h.state_into hmain hmain' rfl rfl rfl, h.state_into hmain hmain' hstack hframe hcallers]
    at hsteps'
  have hworld : (m.start main).world.behind output = { heap := m.heap, output := output } := by
    unfold World.behind
    rw [show (m.start main).world.output = "" from rfl, String.append_empty]
    rfl
  rw [hworld] at hsteps'
  refine ⟨count, steps + t.steps, trace?', ?_⟩
  rw [houtput, hmachine]
  exact hsteps'

end Part

end LineScript.Machine
