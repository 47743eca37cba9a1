/-
# What calls resolve to

Three parts look up what a call names: the compiler, the check of a program, and the
machine. The machine takes a function of the program first and a host function next, and
never calls the top level. The check asks for the same, except that it takes the top level
for a function that can be called. So the two agree on every other name, and the one
mistake the check lets through is a call of the top level: a checked program can fail for
want of a function there, and nowhere else.
-/

import LineScript.Proofs.Safety

namespace LineScript.Machine

open LineScript.Code

/-- Whether the machine finds something under the name of a call. -/
def State.Finds (s : State) (p : Program) (limits : Limits) (name : String) : Prop :=
  ∀ e s', s.call p limits name = .failed e s' → e.cause ≠ .undefinedFunction name

/-- A transition that keeps an invariant and fails for want of a function only under the
given names. -/
def Transition.Resolves (inv : State → Prop) (missing : String → Prop) : Transition → Prop
  | .next s => inv s
  | .failed e _ => ∀ name, e.cause = .undefinedFunction name → missing name
  | .finished _ _ | .breakdown _ _ => True

theorem Transition.Resolves.mono {inv : State → Prop} {missing missing' : String → Prop}
    {t : Transition} (h : t.Resolves inv missing) (hmissing : ∀ n, missing n → missing' n) :
    t.Resolves inv missing' := by
  cases t with
  | next | finished | breakdown => exact h
  | failed e s => exact fun n hcause => hmissing n (h n hcause)

/-- Names that neither the program nor the host has a callable function for. -/
def Missing (p : Program) (natives : Dict Nat) (name : String) : Prop :=
  (name = topLevel ∨ p.functions.contains name = false) ∧ natives.contains name = false

/-- A state whose calls are of functions of the program, on a machine with the given host
functions. -/
structure Resolving (p : Program) (natives : Dict Nat) (s : State) : Prop where
  functions : ∀ frame ∈ s.frame :: s.callers, ∃ name, p.functions.get? name = some frame.function
  natives : ∀ name, s.natives.contains name = natives.contains name

namespace Resolving

variable {p : Program} {natives : Dict Nat} {s : State} {missing : String → Prop}

theorem stays {i : Instruction} {t : Transition} (h : Resolving p natives s) (ht : t.Stays i s) :
    t.Resolves (Resolving p natives) missing := by
  cases t with
  | finished | breakdown => exact trivial
  | failed e s' => exact fun name hcause => absurd hcause (ht.cause_ne nofun rfl)
  | next s' =>
      refine ⟨?_, fun name => by rw [ht.natives]; exact h.natives name⟩
      obtain ⟨hrunning, hcallers⟩ := List.forall_mem_cons.mp h.functions
      rw [ht.callers]
      exact List.forall_mem_cons.mpr ⟨ht.function ▸ hrunning, hcallers⟩

theorem leave (h : Resolving p natives s) (v : Value) :
    (s.leave v).Resolves (Resolving p natives) missing := by
  obtain ⟨stack, frame, callers, globals, world, bound, steps, trace?⟩ := s
  cases callers with
  | nil => exact trivial
  | cons caller callers => exact ⟨(List.forall_mem_cons.mp h.functions).2, h.natives⟩

theorem enter (h : Resolving p natives s) {name callee : String} {f : Function}
    (hf : p.functions.get? callee = some f) (limits : Limits) :
    (s.enter limits name f).Resolves (Resolving p natives) missing := by
  unfold State.enter
  dsimp only
  split
  · exact nofun
  · split
    · exact nofun
    · exact ⟨List.forall_mem_cons.mpr ⟨⟨callee, hf⟩, h.functions⟩, h.natives⟩

theorem ask (h : Resolving p natives s) {name : String} {bound : Bound}
    (hbound : s.natives.get? name = some bound) :
    (s.ask name bound).Resolves (Resolving p natives) missing := by
  unfold State.ask
  split
  · exact fun n hcause => by cases hcause
  · split
    · exact trivial
    · dsimp only
      unfold State.answer
      dsimp only
      split
      · refine ⟨h.functions, fun n => ?_⟩
        rw [← h.natives]
        -- The calls are counted under the name that was there.
        by_cases hn : n = name
        · subst hn
          rw [Dict.contains, Dict.contains, Dict.get?_insert_self, hbound]
          rfl
        · rw [Dict.contains, Dict.contains, Dict.get?_insert_of_ne _ _ hn]
      · exact fun n hcause => by cases hcause
      · exact trivial

theorem call (h : Resolving p natives s) (limits : Limits) (name : String) :
    (s.call p limits name).Resolves (Resolving p natives)
      fun n => n = name ∧ Missing p natives n := by
  unfold State.call
  split
  · rename_i f hlookup
    split at hlookup
    · cases hlookup
    · exact h.enter hlookup limits
  · rename_i hlookup
    split
    · rename_i bound hbound
      exact h.ask hbound
    · rename_i hnone
      rintro n ⟨⟩
      refine ⟨rfl, ?_, ?_⟩
      · split at hlookup
        · rename_i hname
          exact .inl hname
        · exact .inr (by rw [Dict.contains, hlookup]; rfl)
      · rw [← h.natives, Dict.contains, hnone]
        rfl

theorem execute (h : Resolving p natives s) (limits : Limits) (i : Instruction) :
    (s.execute p limits i).Resolves (Resolving p natives)
      fun n => i.op = .call ∧ n = i.name ∧ Missing p natives n := by
  by_cases hcall : i.op = .call
  · unfold State.execute
    rw [hcall]
    simpa only [true_and] using h.call limits i.name
  by_cases hret : i.op = .ret
  · unfold State.execute State.popping
    rw [hret]
    dsimp only
    split
    · exact leave (s := s.drop) ⟨h.functions, h.natives⟩ _
    · exact nofun
  cases hassigned : i.op.isAssigned with
  | true => exact h.stays (execute_stays p limits hassigned hcall hret)
  | false =>
      unfold State.execute
      cases hop : i.op <;> rw [hop] at hassigned <;> cases hassigned
      exact nofun

/-- A step fails for want of a function only at a call of the running function. -/
theorem step (h : Resolving p natives s) (limits : Limits) (cancelled : Bool) :
    (s.step p limits cancelled).Resolves (Resolving p natives) fun n =>
      ∃ i ∈ s.frame.function.code, i.op = .call ∧ n = i.name ∧ Missing p natives n := by
  unfold State.step
  split
  · exact trivial
  · dsimp only
    split
    · exact h.leave .null
    · rename_i i hi
      split
      · exact nofun
      · split
        · exact nofun
        · obtain ⟨trace?, hrecorded⟩ := recorded_eq s.begin s.frame.ip.toNat i
          have hbegun : Resolving p natives { s.begin with trace? := trace? } :=
            ⟨List.forall_mem_cons.mpr (List.forall_mem_cons.mp h.functions), h.natives⟩
          rw [hrecorded]
          exact (hbegun.execute limits i).mono fun n hn => ⟨i, Array.mem_of_getElem? hi, hn⟩

theorem reachable {limits : Limits} {first : State} (hfirst : Resolving p natives first)
    (h : Reachable p limits first s) : Resolving p natives s := by
  induction h with
  | first => exact hfirst
  | next cancelled _ hstep ih =>
      have hresolves := ih.step limits cancelled
      rw [hstep] at hresolves
      exact hresolves

end Resolving

theorem resolving_start {m : Machine} {p : Program} {natives : Dict Nat} {main : Function}
    (hnatives : ∀ name, m.natives.contains name = natives.contains name)
    (hmain : p.main? = some main) : Resolving p natives (m.start main) := by
  refine ⟨?_, hnatives⟩
  rintro frame (_ | ⟨_, hframe⟩)
  · exact ⟨topLevel, hmain⟩
  · cases hframe

/-- The machine finds every function of the program but the top level, and every host
function. -/
theorem State.finds_iff {p : Program} {natives : Dict Nat} {s : State} (h : Resolving p natives s)
    (limits : Limits) (name : String) :
    s.Finds p limits name ↔
      name ≠ topLevel ∧ p.functions.contains name = true ∨ natives.contains name = true := by
  have hmissing : Missing p natives name ↔
      ¬(name ≠ topLevel ∧ p.functions.contains name = true ∨ natives.contains name = true) := by
    unfold Missing
    grind
  constructor
  · intro hfinds
    apply Decidable.byContradiction
    intro hnot
    obtain ⟨hcallee, hnative⟩ := hmissing.mpr hnot
    have hlookup : (if name = topLevel then none else p.functions.get? name) = none := by
      obtain hname | habsent := hcallee
      · rw [if_pos hname]
      · rw [Dict.contains, Option.isSome_eq_false_iff, Option.isNone_iff_eq_none] at habsent
        rw [habsent, ite_self]
    have hbound : s.natives.get? name = none := by
      rw [← h.natives, Dict.contains, Option.isSome_eq_false_iff, Option.isNone_iff_eq_none] at hnative
      exact hnative
    refine hfinds (s.error (.undefinedFunction name)) s ?_ rfl
    unfold State.call
    rw [hlookup]
    dsimp only
    rw [hbound]
    rfl
  · intro hfound e s' hcall hcause
    have hresolves := h.call limits name
    rw [hcall] at hresolves
    exact hmissing.mp (hresolves name hcause).2 hfound

/-- A call of a checked program that finds nothing names the top level. -/
theorem Resolving.eq_topLevel {p : Program} {natives : Dict Nat} {s : State}
    (hp : p.WellFormed natives) (h : Resolving p natives s) {i : Instruction}
    (hi : i ∈ s.frame.function.code) (hop : i.op = .call) (hmissing : Missing p natives i.name) :
    i.name = topLevel ∧ natives.contains topLevel = false := by
  obtain ⟨name, hname⟩ := h.functions s.frame List.mem_cons_self
  obtain ⟨hname | habsent, hnative⟩ := hmissing
  · exact ⟨hname, hname ▸ hnative⟩
  · have hcallee := (hp.code name _ hname i hi).callee hop
    rw [habsent, hnative] at hcallee
    simp at hcallee

theorem Resolving.proceed {p : Program} {natives : Dict Nat} (hp : p.WellFormed natives)
    (limits : Limits) (cancelled : Bool) (patience : Nat) {s : State} (h : Resolving p natives s)
    {e : RuntimeError} (he : (Machine.proceed p limits cancelled patience s).1 = .failed e)
    {name : String} (hcause : e.cause = .undefinedFunction name) :
    name = topLevel ∧ natives.contains topLevel = false := by
  induction patience generalizing s with
  | zero => cases he
  | succ patience ih =>
      have hresolves := h.step limits cancelled
      unfold Machine.proceed at he
      cases hstep : s.step p limits cancelled <;> rw [hstep] at hresolves he
      case next s' => exact ih hresolves he
      case finished v s' => cases he
      case breakdown detail s' => cases he
      case failed e' s' =>
        cases he
        obtain ⟨i, hi, hop, rfl, hmissing⟩ := hresolves name hcause
        exact h.eq_topLevel hp hi hop hmissing

/-- The check and the machine agree on what calls resolve to, but for the top level. At
every state of every run, the check accepts a call exactly when the machine finds
something under its name, or the name is that of the top level. So a checked program
fails for want of a function at a call of the top level only. -/
theorem fault?_eq_none_iff_finds {p : Program} {natives : Dict Nat} {m : Machine}
    (hnatives : ∀ name, m.natives.contains name = natives.contains name) :
    (∀ main s limits, p.main? = some main → Reachable p limits (m.start main) s →
      ∀ (i : Instruction) (length : Nat), i.op = .call → i.name ≠ "" →
        (i.fault? p natives length = none ↔ s.Finds p limits i.name ∨ i.name = topLevel)) ∧
    (p.invalid? natives = none → ∀ patience cancelled e name,
      (m.runFor patience p cancelled).outcome = .failed e → e.cause = .undefinedFunction name →
        name = topLevel ∧ natives.contains topLevel = false) := by
  constructor
  · intro main s limits hmain hreachable i length hop hname
    have hmain' : p.functions.contains topLevel = true := Dict.contains_iff.mpr ⟨main, hmain⟩
    rw [Instruction.fault?_eq_none_iff,
      State.finds_iff ((resolving_start hnatives hmain).reachable hreachable)]
    constructor
    · intro hwellFormed
      by_cases htop : i.name = topLevel
      · exact .inr htop
      · exact .inl ((hwellFormed.callee hop).imp_left fun hcallee => ⟨htop, hcallee⟩)
    · intro hfound
      refine ⟨by rw [hop]; rfl, by rw [hop]; nofun, fun _ => hname, fun _ => ?_⟩
      obtain (⟨-, hcallee⟩ | hnative) | htop := hfound
      · exact .inl hcallee
      · exact .inr hnative
      · exact .inl (htop ▸ hmain')
  · intro hvalid patience cancelled e name he hcause
    have hp := Program.invalid?_eq_none_iff.mp hvalid
    obtain ⟨main, hmain⟩ := hp.main
    unfold runFor at he
    rw [hmain] at he
    exact (resolving_start hnatives hmain).proceed hp m.limits cancelled patience he hcause

/-- A program whose only instruction calls the top level. -/
def callTopLevel : Program :=
  ⟨Dict.insert ∅ topLevel
    { name := topLevel, code? := some #[{ op := .call, name := topLevel, line := 1 }] }⟩

/-- The program passes the check, and its call can only fail as the one exception. -/
theorem fault?_eq_none_iff_finds_callTopLevel :
    callTopLevel.invalid? ∅ = none ∧
      ∀ e name, (Machine.runFor {} 1 callTopLevel).outcome = .failed e →
        e.cause = .undefinedFunction name →
          name = topLevel ∧ (∅ : Dict Nat).contains topLevel = false := by
  have hvalid : callTopLevel.invalid? ∅ = none := by decide +kernel
  have hnatives : ∀ name, ({} : Machine).natives.contains name = (∅ : Dict Nat).contains name :=
    fun _ => rfl
  exact ⟨hvalid, (fault?_eq_none_iff_finds hnatives).2 hvalid 1 false⟩

/-- On a machine without host functions, a call of the top level passes the check and
fails for want of a function. -/
theorem callTopLevel_undefined :
    callTopLevel.invalid? ∅ = none ∧
      ∃ e, (Machine.runFor {} 1 callTopLevel).outcome = .failed e ∧
        e.cause = .undefinedFunction topLevel := by
  refine ⟨by decide +kernel, ⟨topLevel, 0, 1, .undefinedFunction topLevel⟩, ?_, rfl⟩
  rfl

end LineScript.Machine
