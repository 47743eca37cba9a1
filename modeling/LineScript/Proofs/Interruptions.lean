/-
# Runs that are stopped

A limit on the steps or on the depth of calls and a cancellation all do the same to a run: they stop
it at some step, and up to there it is the run without them. So what is known of the way that a run
takes without limits is known of every other run, except that it may be stopped on this way.
-/

import LineScript.Proofs.LoopFreeRuns

namespace LineScript.Machine

open LineScript.Code LineScript.Tree

/-! ## Steps -/

/-- No limits. -/
def unlimited : Limits := { depth := 0 }

theorem free_unlimited : unlimited.Free := ⟨Int.le_refl 0, Int.le_refl 0⟩

/-- One step of a run with limits, in which a cancellation is seen or not depending on how many
instructions have begun. -/
def limited (p : Program) (limits : Limits) (cancelled : Nat → Bool) (s : State) : Transition :=
  s.step p limits (cancelled s.steps)

/-- What stops a run from outside the script, and when. -/
inductive Halts (limits : Limits) (cancelled : Nat → Bool) (s : State) : Cause → Prop
  | steps (h : s.Spent limits) : Halts limits cancelled s .stepLimit
  | depth (hpos : 0 < limits.depth) (hle : limits.depth ≤ s.depth) :
      Halts limits cancelled s .depthLimit
  | cancelled (h : cancelled s.steps = true) : Halts limits cancelled s .cancelled

/-- Two ways to step that differ only where the second one is stopped. -/
def Interrupts (go go' : State → Transition) (halts : State → Cause → Prop) : Prop :=
  ∀ s, go' s = go s ∨ ∃ e t, go' s = .failed e t ∧ halts s e.cause

section

variable {p : Program} {limits : Limits} {s s' : State}

theorem enter_cases (limits : Limits) (name : String) (f : Function) :
    s.enter limits name f = s.enter unlimited name f ∨
      s.enter limits name f = s.fail .depthLimit ∧ 0 < limits.depth ∧ limits.depth ≤ s.depth := by
  unfold State.enter
  dsimp only
  split
  · exact .inl rfl
  · split
    · exact .inr ⟨rfl, ‹_›⟩
    · exact .inl rfl

theorem execute_cases_unlimited (p : Program) (limits : Limits) (i : Instruction) :
    s.execute p limits i = s.execute p unlimited i ∨
      s.execute p limits i = s.fail .depthLimit ∧ 0 < limits.depth ∧ limits.depth ≤ s.depth := by
  obtain ⟨op, literal, name, target, line⟩ := i
  cases op
  case call =>
    unfold State.execute State.call
    dsimp only
    split
    · exact enter_cases limits name _
    · exact .inl rfl
  all_goals exact .inl rfl

theorem step_cases_unlimited (p : Program) (limits : Limits) (cancelled : Nat → Bool) (s : State) :
    s.step p limits false = s.step p unlimited false ∨
      ∃ e t, s.step p limits false = .failed e t ∧ Halts limits cancelled s e.cause := by
  cases hi : s.instruction? with
  | none =>
      rw [step_of_instruction?_eq_none hi, step_of_instruction?_eq_none hi]
      exact .inl rfl
  | some i =>
      rw [step_of_instruction?_eq_some hi, step_of_instruction?_eq_some hi,
        if_neg (not_spent_of_free free_unlimited.steps)]
      split
      · exact .inr ⟨_, _, rfl, .steps ‹_›⟩
      · obtain ⟨trace?, hrecorded⟩ := recorded_eq s.begin s.frame.ip.toNat i
        rw [hrecorded]
        obtain hsame | ⟨hfails, hpos, hle⟩ :=
          execute_cases_unlimited (s := { s.begin with trace? := trace? }) p limits i
        · exact .inl hsame
        · exact .inr ⟨_, _, hfails, .depth hpos hle⟩

/-- A limit or a cancellation stops a run or makes no difference. -/
theorem interrupts_limited (p : Program) (limits : Limits) (cancelled : Nat → Bool) :
    Interrupts (going p unlimited) (limited p limits cancelled) (Halts limits cancelled) := by
  intro s
  unfold limited going
  cases hcancelled : cancelled s.steps with
  | false => exact step_cases_unlimited p limits cancelled s
  | true =>
      obtain heq | ⟨-, heq⟩ := step_cancelled_cases p limits s true
      · rw [heq]
        exact step_cases_unlimited p limits cancelled s
      · exact .inr ⟨_, _, heq, .cancelled hcancelled⟩

end

/-! ## Runs -/

/-- A run is stopped while it is inside. -/
def Stopped (go : State → Transition) (inside : State → Prop) (halts : State → Cause → Prop)
    (s : State) : Prop :=
  ∃ s' e s'', Path go inside s s' ∧ inside s' ∧ go s' = .failed e s'' ∧ halts s' e.cause

section

variable {s s' : State} {go go' : State → Transition} {inside inside' : State → Prop}
  {halts : State → Cause → Prop}

theorem Stopped.mono (h : Stopped go inside halts s) (hinside : ∀ s, inside s → inside' s) :
    Stopped go inside' halts s := by
  obtain ⟨s', e, s'', hpath, hs', hfails⟩ := h
  exact ⟨s', e, s'', hpath.mono hinside, hinside s' hs', hfails⟩

theorem Stopped.prepend (h : Path go inside s s') (h' : Stopped go inside halts s') :
    Stopped go inside halts s := by
  obtain ⟨t, e, t', hpath, hfails⟩ := h'
  exact ⟨t, e, t', h.trans hpath, hfails⟩

section

variable (hinterrupts : Interrupts go go' halts)
include hinterrupts

theorem Path.stopped_or (h : Path go inside s s') :
    Stopped go' inside halts s ∨ Path go' inside s s' := by
  induction h with
  | refl s => exact .inr (.refl s)
  | @step s t u hs hstep _ ih =>
      obtain hsame | ⟨e, t, hfails⟩ := hinterrupts s
      · have hone : Path go' inside s t := .step hs (hsame.trans hstep) (.refl t)
        exact ih.imp (Stopped.prepend hone) hone.trans
      · exact .inl ⟨s, e, t, .refl s, hs, hfails⟩

/-- The next step too is the same unless it is the one that is stopped. -/
theorem Path.stopped_or_step (h : Path go inside s s') (hinside : inside s') :
    Stopped go' inside halts s ∨ Path go' inside s s' ∧ go' s' = go s' := by
  obtain hstopped | hpath := h.stopped_or hinterrupts
  · exact .inl hstopped
  · obtain hsame | ⟨e, t, hhalts⟩ := hinterrupts s'
    · exact .inr ⟨hpath, hsame⟩
    · exact .inl ⟨s', e, t, hpath, hinside, hhalts⟩

theorem Endless.stopped_or (h : Endless go inside s) :
    Stopped go' inside halts s ∨ Endless go' inside s := by
  obtain ⟨run, rfl, hrun⟩ := h
  have hpath : ∀ n, Path go inside (run 0) (run n) := by
    intro n
    induction n with
    | zero => exact .refl _
    | succ n ih => exact ih.trans (.step (hrun n).1 (hrun n).2 (.refl _))
  refine or_iff_not_imp_left.mpr fun hstopped => ⟨run, rfl, fun n => ⟨(hrun n).1, ?_⟩⟩
  obtain ⟨-, hsame⟩ := ((hpath n).stopped_or_step hinterrupts (hrun n).1).resolve_left hstopped
  exact hsame.trans (hrun n).2

/-- A run that may be stopped passes through an evaluation unless it is stopped before. -/
theorem Passes.stopped_or {α : Type} {good : α → Store → State → Prop} {lost : State → Prop}
    (hlost : ∀ s, lost s → inside s) {r : Ending α × Store}
    (h : Passes go inside (Endless go lost) good s r) :
    Stopped go' inside halts s ∨ Passes go' inside (Endless go' lost) good s r := by
  obtain ⟨ending, st⟩ := r
  cases ending with
  | done a =>
      obtain ⟨t, hpath, ht⟩ := h
      exact (hpath.stopped_or hinterrupts).imp_right fun hpath => ⟨t, hpath, ht⟩
  | failed cause =>
      obtain ⟨t, e, t', hpath, ht, hstep, hfails⟩ := h
      exact (hpath.stopped_or_step hinterrupts ht).imp_right fun ⟨hpath, hsame⟩ =>
        ⟨t, e, t', hpath, ht, hsame.trans hstep, hfails⟩
  | broken detail =>
      obtain ⟨t, t', hpath, ht, hstep, hbreaks⟩ := h
      exact (hpath.stopped_or_step hinterrupts ht).imp_right fun ⟨hpath, hsame⟩ =>
        ⟨t, t', hpath, ht, hsame.trans hstep, hbreaks⟩
  | spent =>
      obtain ⟨t, hpath, ht⟩ := h
      obtain hstopped | hpath := hpath.stopped_or hinterrupts
      · exact .inl hstopped
      · exact (ht.stopped_or hinterrupts).imp (fun hstopped => .prepend hpath (hstopped.mono hlost))
          fun ht => ⟨t, hpath, ht⟩

end

end

end LineScript.Machine
