/-
# Compiled programs behave like their trees

What can be seen of a script from outside is how it ends, if it ends, and what it leaves
behind: the globals, the heap, the output and the host functions. A run ends only in one
way, however long one waits for it, and so does an evaluation. The program that a tree
is compiled to and the tree itself are compared by what can be seen of them.
-/

import LineScript.Proofs.Calls

namespace LineScript.Tree

open LineScript.Machine

/-! ## What can be seen -/

/-- What is left of a store when a script is over. -/
def Store.lasting (st : Store) : Store := { st with locals? := none }

/-- Evaluating a script ends in the given way and leaves the given store. -/
def Block.Ends (earlier : List Definition) (scope : Scope) (b : Block) (st : Store)
    (ending : Ending Value) (after : Store) : Prop :=
  ending ≠ .spent ∧ ∃ count, (b.run earlier scope count st).1 = ending ∧
    (b.run earlier scope count st).2.lasting = after

/-- Evaluating a script never ends. -/
def Block.Diverges (earlier : List Definition) (scope : Scope) (b : Block) (st : Store) : Prop :=
  ∀ count, (b.run earlier scope count st).1 = .spent

end LineScript.Tree

namespace LineScript.Machine

open LineScript.Code LineScript.Tree

/-- What a run starts from. -/
def store (m : Machine) : Store :=
  { globals := m.globals, world := { heap := m.heap }, natives := m.natives }

/-- What a run leaves behind. -/
def Report.store (r : Report) : Store :=
  { globals := r.machine.globals
    world := { heap := r.machine.heap, output := r.output }
    natives := r.machine.natives }

/-- The outcome of a run and the end of an evaluation are the same; of an error only the
cause counts. -/
def Outcome.Is : Outcome → Ending Value → Prop
  | .value v, .done w => v = w
  | .failed e, .failed cause => e.cause = cause
  | .breakdown detail, .broken detail' => detail = detail'
  | _, _ => False

/-- Running a program ends in the given way and leaves the given store. -/
def Ends (m : Machine) (p : Program) (ending : Ending Value) (after : Store) : Prop :=
  ∃ patience, (m.runFor patience p).outcome.Is ending ∧ (m.runFor patience p).store = after

/-- Running a program never ends. -/
def Diverges (m : Machine) (p : Program) : Prop :=
  ∀ patience, (m.runFor patience p).outcome = .unfinished

/-! ## Runs end in one way -/

section

variable {p : Program} {limits : Limits} {s s' : State}

theorem proceed_of_steps {count : Nat} (h : Steps p limits count s s') (patience : Nat) :
    proceed p limits false (count + patience) s = proceed p limits false patience s' := by
  induction h with
  | refl s => rw [Nat.zero_add]
  | step hstep _ ih =>
      rw [Nat.add_right_comm, proceed, hstep]
      exact ih

/-- While a run takes steps it is unfinished. -/
theorem proceed_of_le {count patience : Nat} (h : Steps p limits count s s')
    (hle : patience ≤ count) : (proceed p limits false patience s).1 = .unfinished := by
  induction h generalizing patience with
  | refl s =>
      cases Nat.le_zero.mp hle
      rfl
  | step hstep _ ih =>
      cases patience with
      | zero => rfl
      | succ patience =>
          rw [proceed, hstep]
          exact ih (Nat.le_of_succ_le_succ hle)

/-- More patience does not change how a run ends. -/
theorem proceed_add {patience : Nat} (h : (proceed p limits false patience s).1 ≠ .unfinished)
    (more : Nat) :
    proceed p limits false (patience + more) s = proceed p limits false patience s := by
  induction patience generalizing s with
  | zero => exact absurd rfl h
  | succ patience ih =>
      rw [Nat.add_right_comm, proceed, proceed]
      rw [proceed] at h
      cases hstep : s.step p limits false with
      | next s' =>
          rw [hstep] at h
          exact ih h
      | _ => rfl

theorem proceed_unique {patience patience' : Nat}
    (h : (proceed p limits false patience s).1 ≠ .unfinished)
    (h' : (proceed p limits false patience' s).1 ≠ .unfinished) :
    proceed p limits false patience s = proceed p limits false patience' s := by
  rw [← proceed_add h patience', Nat.add_comm, proceed_add h' patience]

/-- A state from which the next step ends the run with a value. -/
def Finished (p : Program) (limits : Limits) : Value → Store → State → Prop :=
  fun v st s => ∃ s', s.step p limits false = .finished v s' ∧ Keeping st s'

/-- A run that meets an evaluation that ends, ends in the same way. -/
theorem Meets.ends {count : Nat} {r : Ending Value × Store}
    (h : Meets p limits count (Finished p limits) s r) (hr : r.1 ≠ .spent) :
    ∃ patience, (proceed p limits false patience s).1.Is r.1 ∧
      Keeping r.2 (proceed p limits false patience s).2 := by
  obtain ⟨ending, st⟩ := r
  cases ending with
  | done v =>
      obtain ⟨k, t, hsteps, t', hstep, hkeeping⟩ := h
      have hproceed : proceed p limits false (k + 1) s = (.value v, t') := by
        rw [proceed_of_steps hsteps, proceed, hstep]
      refine ⟨k + 1, ?_⟩
      rw [hproceed]
      exact ⟨rfl, hkeeping⟩
  | failed cause =>
      obtain ⟨k, t, e, t', hsteps, hstep, hcause, hkeeping⟩ := h
      have hproceed : proceed p limits false (k + 1) s = (.failed e, t') := by
        rw [proceed_of_steps hsteps, proceed, hstep]
      refine ⟨k + 1, ?_⟩
      rw [hproceed]
      exact ⟨hcause, hkeeping⟩
  | broken detail =>
      obtain ⟨k, t, t', hsteps, hstep, hkeeping⟩ := h
      have hproceed : proceed p limits false (k + 1) s = (.breakdown detail, t') := by
        rw [proceed_of_steps hsteps, proceed, hstep]
      refine ⟨k + 1, ?_⟩
      rw [hproceed]
      exact ⟨rfl, hkeeping⟩
  | spent => exact absurd rfl hr

/-- A run that meets an evaluation with a spent count goes on at least that long. -/
theorem Meets.unfinished {count : Nat} {r : Ending Value × Store}
    (h : Meets p limits count (Finished p limits) s r) (hr : r.1 = .spent) :
    (proceed p limits false count s).1 = .unfinished := by
  obtain ⟨ending, st⟩ := r
  subst hr
  obtain ⟨k, t, hle, hsteps⟩ := h
  exact proceed_of_le hsteps hle

end

/-- Handing a value back from the top level ends the run. -/
theorem finished_of_leave {t : State} {st : Store} (h : Keeping st t) (hcallers : t.callers = [])
    (v : Value) : ∃ t', t.leave v = .finished v t' ∧ Keeping st t' := by
  obtain ⟨stack, frame, callers, globals, world, natives, steps, trace?⟩ := t
  dsimp only at hcallers
  subst hcallers
  exact ⟨_, rfl, h.globals_eq, h.world_eq, h.natives_eq⟩

section

variable {c : Compiler} {p : Program} {limits : Limits} {site : Site} {st : Store} {ip : Nat}
  {stack : List Value} {s : State}

/-- Behind its last instruction the top level ends with null. -/
theorem Shows.finished_of_end (h : Shows c site st ip stack s) (hcallers : site.callers = [])
    (hend : site.code[ip]? = none) : Finished p limits .null st s := by
  have hip : s.frame.ip = ip := by rw [h.frame_eq]
  have hnone : s.frame.function.code[ip]? = none := by
    rw [h.frame_eq]
    simpa [Site.code] using hend
  obtain ⟨t', hleave, hkeeping⟩ :=
    finished_of_leave h.toKeeping (h.callers_eq.trans hcallers) .null
  refine ⟨t', ?_, hkeeping⟩
  unfold State.step
  rw [hip, if_neg (by omega), Int.toNat_natCast]
  dsimp only
  rw [hnone]
  exact hleave

/-- A return at the top level ends the run. -/
theorem Shows.finished_of_ret {v : Value} (h : Shows c site st ip (stack ++ [v]) s)
    (hfree : limits.Free) (hcallers : site.callers = []) (hbase : site.base ≤ stack.length)
    (hi : site.code[ip]? = some (plain .ret)) : Finished p limits v st s := by
  obtain ⟨t, hstep, ht⟩ := h.step_eq (p := p) hfree.steps hi
  obtain ⟨t', hleave, hkeeping⟩ :=
    finished_of_leave ht.drop.toKeeping (ht.drop.callers_eq.trans hcallers) v
  refine ⟨t', ?_, hkeeping⟩
  rw [hstep]
  unfold State.execute plain
  dsimp only
  rw [ht.popping_eq hbase]
  exact hleave

end

theorem Outcome.Is.ne_unfinished {outcome : Outcome} {ending : Ending Value} (h : outcome.Is ending) :
    outcome ≠ .unfinished := by
  intro hunfinished
  subst hunfinished
  exact h

theorem Outcome.Is.ne_spent {outcome : Outcome} {ending : Ending Value} (h : outcome.Is ending) :
    ending ≠ .spent := by
  intro hspent
  subst hspent
  cases outcome <;> exact h

/-- An outcome is the same as one end only. -/
theorem Outcome.Is.unique {outcome : Outcome} {ending ending' : Ending Value}
    (h : outcome.Is ending) (h' : outcome.Is ending') : ending = ending' := by
  cases outcome <;> cases ending <;> first | exact h.elim | skip
  all_goals cases ending' <;> first | exact h'.elim | skip
  · exact congrArg Ending.done (Eq.trans (Eq.symm h) h')
  · exact congrArg Ending.failed (Eq.trans (Eq.symm h) h')
  · exact congrArg Ending.broken (Eq.trans (Eq.symm h) h')

/-- When the runs of a machine meet the evaluations of a script, whatever their count,
the two cannot be told apart from outside. -/
theorem ends_iff_of_meets {m : Machine} {p : Program} {main : Function} {b : Block}
    {earlier : List Definition} {scope : Scope} (hmain : p.main? = some main)
    (h : ∀ count, Meets p m.limits count (Finished p m.limits) (m.start main)
      (b.run earlier scope count m.store)) :
    (∀ ending after, b.Ends earlier scope m.store ending after ↔ m.Ends p ending after) ∧
      (b.Diverges earlier scope m.store ↔ m.Diverges p) := by
  have houtcome : ∀ patience, (m.runFor patience p).outcome =
      (proceed p m.limits false patience (m.start main)).1 := by
    intro patience
    unfold runFor
    rw [hmain]
    rfl
  have hstore : ∀ patience st, Keeping st (proceed p m.limits false patience (m.start main)).2 →
      (m.runFor patience p).store = st.lasting := by
    intro patience st hkeeping
    unfold runFor
    rw [hmain]
    unfold Report.store report Store.lasting
    dsimp only
    rw [hkeeping.globals_eq, hkeeping.world_eq, hkeeping.natives_eq]
  -- An evaluation that ends is matched by a run that ends.
  have hforward : ∀ ending after, b.Ends earlier scope m.store ending after →
      m.Ends p ending after := by
    rintro ending after ⟨hspent, count, rfl, rfl⟩
    obtain ⟨patience, his, hkeeping⟩ := (h count).ends hspent
    exact ⟨patience, by rw [houtcome]; exact his, hstore patience _ hkeeping⟩
  -- The patience of a run that ends is a count that is large enough.
  have hbackward : ∀ patience, (m.runFor patience p).outcome ≠ .unfinished →
      (b.run earlier scope patience m.store).1 ≠ .spent := by
    intro patience hfinished hspent
    rw [houtcome] at hfinished
    exact hfinished ((h patience).unfinished hspent)
  refine ⟨fun ending after => ⟨hforward ending after, ?_⟩, ?_, ?_⟩
  · rintro ⟨patience, his, hafter⟩
    have hspent := hbackward patience his.ne_unfinished
    obtain ⟨patience', his', hafter'⟩ := hforward _ _ ⟨hspent, patience, rfl, rfl⟩
    have hsame : m.runFor patience p = m.runFor patience' p := by
      have hfinished := his.ne_unfinished
      have hfinished' := his'.ne_unfinished
      rw [houtcome] at hfinished hfinished'
      unfold runFor
      rw [hmain]
      dsimp only
      rw [proceed_unique hfinished hfinished']
    rw [← hsame] at his' hafter'
    exact ⟨his.ne_spent, patience, his'.unique his, hafter'.symm.trans hafter⟩
  · intro hdiverges patience
    rw [houtcome]
    exact (h patience).unfinished (hdiverges patience)
  · intro hdiverges count
    apply Classical.byContradiction
    intro hspent
    obtain ⟨patience, his, -⟩ := hforward _ _ ⟨hspent, count, rfl, rfl⟩
    exact his.ne_unfinished (hdiverges patience)

end LineScript.Machine

namespace LineScript.Compiler

open LineScript.Code LineScript.Tree LineScript.Machine

/-! ## Compiled programs -/

/-- A compiler whose prelude was compiled from the given definitions, script by script. -/
inductive Recalls : Compiler → List Definition → Prop
  | nothing {c : Compiler} (h : c.prelude? = none) : c.Recalls []
  | compiled {c : Compiler} {earlier : List Definition} {b : Block} {p : Program}
      (h : c.Recalls earlier) (hcompiles : c.Compiles b p) :
      Recalls { c with prelude? := some p } (earlier ++ b.definitions c.scope)

theorem install_eq_find? (definitions : List Definition) (table : String → Option Shape)
    (name : String) :
    definitions.foldl Definition.install table name =
      ((Definition.find? name definitions).map Definition.shape).or (table name) := by
  induction definitions generalizing table with
  | nil => rfl
  | cons f rest ih =>
      rw [List.foldl_cons, ih, Definition.find?, Definition.install]
      cases Definition.find? name rest with
      | some g => rfl
      | none =>
          by_cases hname : name = f.name
          · simp [hname]
          · simp [hname]

/-- A prelude consists of the given definitions, and these can be compiled. -/
structure Consists (c : Compiler) (earlier : List Definition) : Prop where
  shapes_eq : ∀ name, c.shapes name = (Definition.find? name earlier).map Definition.shape
  within : ∀ f ∈ earlier, f.Within c.scope.arity

/-- The functions of a compiled program are those of the prelude and those of its tree. -/
theorem Compiles.knows {c : Compiler} {earlier : List Definition} {b : Block} {p : Program}
    (h : c.Compiles b p) (hearlier : c.Consists earlier) :
    Knows c p (earlier ++ b.definitions c.scope) := by
  have hwithin : ∀ f ∈ earlier ++ b.definitions c.scope, f.Within (c.arity? p) := by
    intro f hf
    obtain hf | hf := List.mem_append.mp hf
    · exact h.within (hearlier.within f hf)
    · rw [← h.arity_eq]
      exact b.definitions_within _ h.inScope (Scope.within_refl _) f hf
  refine ⟨fun name => ?_, hwithin⟩
  by_cases hname : name = topLevel
  · subst hname
    rw [if_pos rfl]
    cases hfind : Definition.find? topLevel (earlier ++ b.definitions c.scope) with
    | none => rfl
    | some f =>
        obtain ⟨hmem, hname⟩ := mem_of_find? hfind
        exact absurd hname (hwithin f hmem).1
  · rw [if_neg hname]
    have hshapes : c.shapes = earlier.foldl Definition.install fun _ => none := by
      funext n
      rw [hearlier.shapes_eq, install_eq_find?, Option.or_none]
    have hfunctions := h.functions name hname
    rw [hshapes, ← List.foldl_append, install_eq_find?, Option.or_none] at hfunctions
    exact hfunctions

theorem shapes_prelude (c : Compiler) (p : Program) (name : String) :
    ({ c with prelude? := some p } : Compiler).shapes name =
      ((if name = topLevel then none else p.functions.get? name) : Option Function).map
        Function.shape := by
  unfold shapes Compile.Draft.shapes draft
  dsimp only [Option.map_some, Option.getD_some]
  by_cases hname : name = topLevel
  · rw [if_pos hname, hname, Dict.get?_erase_self]
  · rw [if_neg hname, Dict.get?_erase_of_ne _ hname]

theorem Recalls.consists {c : Compiler} {earlier : List Definition} (h : c.Recalls earlier) :
    c.Consists earlier := by
  induction h with
  | @nothing c h =>
      refine ⟨fun name => ?_, nofun⟩
      unfold shapes Compile.Draft.shapes draft
      rw [h]
      rfl
  | @compiled c earlier b p _ hcompiles ih =>
      have hknows := hcompiles.knows ih
      refine ⟨fun name => ?_, ?_⟩
      · rw [shapes_prelude]
        exact hknows.shape_eq name
      · rw [arity_scope_prelude]
        exact hknows.within

/-- The runs of a compiled program meet the evaluations of its tree. -/
theorem Compiles.meets {c : Compiler} {earlier : List Definition} {b : Block} {p : Program}
    {m : Machine} {main : Function} (h : c.Compiles b p) (hrecalls : c.Recalls earlier)
    (hserved : Served c m.natives) (hfree : m.limits.Free) (hmain : p.main? = some main)
    (count : Nat) :
    Meets p m.limits count (Finished p m.limits) (m.start main)
      (b.run earlier c.scope count m.store) := by
  have hshape := h.main
  rw [hmain, Option.map_some] at hshape
  have hown : main.declares = (b.after c.scope).own := congrArg Shape.own (Option.some.inj hshape)
  let site : Site := ⟨main, 0, []⟩
  have hcode : site.code = b.code 0 := congrArg Shape.code (Option.some.inj hshape)
  have hplaced : Placed site.code 0 (b.code 0) :=
    ⟨[], [], by rw [hcode, List.append_nil, List.nil_append], rfl⟩
  have hstart : Shows c site m.store 0 [] (m.start main) :=
    ⟨⟨rfl, rfl, rfl⟩, rfl, rfl, rfl, hserved⟩
  have hwithin : (b.after c.scope).Within (c.arity? p) := by
    rw [← h.arity_eq]
    exact Scope.within_refl _
  have hblock := Block.meets hfree (answers hfree (h.knows hrecalls.consists) count) b h.inScope
    hwithin hplaced (Nat.zero_add _).symm hstart (Nat.le_refl _)
  unfold Block.run
  rw [← hown]
  refine hblock.bind fun flow st s hs => ?_
  cases flow with
  | next =>
      refine .done (hs.finished_of_end rfl ?_)
      rw [hcode]
      exact List.getElem?_eq_none (Nat.le_of_eq (b.length_code 0))
  | back v =>
      obtain ⟨address, hret, hs⟩ := hs
      exact .done (hs.finished_of_ret hfree rfl (Nat.zero_le _) hret)

/-- A compiled program behaves like its tree. -/
theorem Compiles.ends_iff {c : Compiler} {earlier : List Definition} {b : Block} {p : Program}
    {m : Machine} (h : c.Compiles b p) (hrecalls : c.Recalls earlier)
    (hserved : Served c m.natives) (hfree : m.limits.Free) :
    (∀ ending after, b.Ends earlier c.scope m.store ending after ↔ m.Ends p ending after) ∧
      (b.Diverges earlier c.scope m.store ↔ m.Diverges p) := by
  have hmain := h.main
  obtain ⟨main, hmain, -⟩ := Option.map_eq_some_iff.mp hmain
  exact ends_iff_of_meets hmain fun count => h.meets hrecalls hserved hfree hmain count

end LineScript.Compiler
