/-
# Printed values are source

A value is printed as it would be written in a script, and that is so: a script that returns the printed
text compiles, and it gives a value of the same kind that is printed in the same way. The value may be nested
to any depth and may share containers. It gets containers of its own for each place where one is shared, so
what is printed is the same, and the value is not.

This takes a value that scripts can write, without cycles, and numbers that are read back as they were
written. The script has no functions and no loops, so it does not matter how deep calls may nest, and a limit
on the steps does not matter when it lets every instruction be carried out once.
-/

import LineScript.Proofs.BuiltData
import LineScript.Proofs.Interruptions

namespace LineScript.Machine

open LineScript.Code LineScript.Tree

/-! ## Values that scripts can write -/

namespace Heap

variable {h : Heap} {v : Value}

/-- What a script can write, besides the contents: a number in digits, a text of characters that can be
quoted, an object whose keys are different names. Keys differ in every object that is set member by member, by
`Object.Coherent.set`. -/
def Spellable (h : Heap) : Value → Prop
  | .number x => Number.Positional x
  | .string s => ∀ c ∈ s.toList, Token.Quotable c
  | .ref (.object place) =>
    (h.object place).keys.Nodup ∧ ∀ key ∈ (h.object place).keys, Token.IsName key
  | .null | .boolean _ | .ref (.list _) => True

instance (x : Float) : Decidable (Number.Positional x) :=
  decidable_of_iff ((['e', 'I', 'N'].all fun c => decide (c ∉ (Number.written x).toList)) = true)
    (by simp [Number.Positional])

instance (c : Char) : Decidable (Token.Quotable c) :=
  inferInstanceAs (Decidable (Text.isPrintable c = true ∨ c = '\n' ∨ c = '\t' ∨ c = '\r'))

instance (h : Heap) : DecidablePred h.Spellable
  | .number x => inferInstanceAs (Decidable (Number.Positional x))
  | .string s => decidable_of_iff ((s.toList.all fun c => decide (Token.Quotable c)) = true)
      (by simp [Spellable])
  | .ref (.object place) => inferInstanceAs (Decidable ((h.object place).keys.Nodup ∧
      ∀ key ∈ (h.object place).keys, Token.IsName key))
  | .null | .boolean _ | .ref (.list _) => .isTrue trivial

/-- A value that scripts can write. -/
structure Writable (h : Heap) (v : Value) : Prop where
  acyclic : h.Acyclic v
  spellable : ∀ u, h.Part u v → h.Spellable u

/-- The numbers in a value are read back as they were written. -/
def Restored (h : Heap) (v : Value) : Prop :=
  ∀ x, h.Part (.number x) v → Number.read? (Number.written x) = some x

/-- What a value stands for can be written when its parts can. -/
theorem Unfolds.expressible {own : Ref → Prop} {d : Data} (hv : Unfolds own h v d)
    (hspellable : ∀ u, h.Part u v → h.Spellable u) (hrestored : h.Restored v) : d.Expressible := by
  induction hv with
  | null => exact .null
  | number x => exact .number ⟨hspellable _ .refl, hrestored x .refl⟩
  | string s => exact .string (hspellable _ .refl)
  | boolean b => exact .boolean b
  | @list place items _ hlength _ ih =>
      refine .list fun item hitem => ?_
      obtain ⟨u, hu⟩ := exists_mem_zip_right hlength hitem
      have hinside : h.Inside u (.list place) := inside_ref (List.of_mem_zip hu).1
      exact ih u item hu (fun w hw => hspellable w (hw.tail hinside))
        fun x hx => hrestored x (hx.tail hinside)
  | @object place members _ hlength hkeys _ ih =>
      obtain ⟨hnodup, hnames⟩ := hspellable _ .refl
      have hsame : (h.object place).keys = members.map (·.1) :=
        (Object.map_fst_members _).symm.trans (map_fst_eq_of_zip hlength hkeys)
      rw [hsame] at hnodup hnames
      refine .object hnodup (List.forall_mem_map.mp hnames) fun m hm => ?_
      obtain ⟨e, he⟩ := exists_mem_zip_right hlength hm
      have hinside : h.Inside e.2 (.object place) :=
        inside_ref (List.mem_map_of_mem (List.of_mem_zip he).1)
      exact ih e m he (fun w hw => hspellable w (hw.tail hinside))
        fun x hx => hrestored x (hx.tail hinside)

end Heap

theorem Outcome.Is.eq_value {outcome : Outcome} {w : Value} (h : outcome.Is (.done w)) :
    outcome = .value w := by
  cases outcome with
  | value v => exact congrArg Outcome.value h
  | _ => exact h.elim

/-! ## Limits without functions and loops -/

section

variable {p : Program} {limits limits' : Limits} {s : State}

/-- Where there are no functions to enter, the depth of calls does not matter. -/
theorem execute_eq_of_topLevel (hp : ∀ name f, p.functions.get? name = some f → name = topLevel)
    (i : Instruction) : s.execute p limits i = s.execute p limits' i := by
  obtain ⟨op, literal, name, target, line⟩ := i
  cases op
  case call =>
    unfold State.execute State.call
    dsimp only
    split
    · rename_i f hlookup
      split at hlookup
      · cases hlookup
      · exact absurd (hp name f hlookup) ‹_›
    · rfl
  all_goals rfl

theorem proceed_eq_of_topLevel (hp : ∀ name f, p.functions.get? name = some f → name = topLevel)
    (hfree : limits.steps ≤ 0) (hfree' : limits'.steps ≤ 0) (patience : Nat) :
    proceed p limits false patience s = proceed p limits' false patience s := by
  have hstep : ∀ s : State, s.step p limits false = s.step p limits' false := by
    intro s
    cases hi : s.instruction? with
    | none => rw [step_of_instruction?_eq_none hi, step_of_instruction?_eq_none hi]
    | some i =>
        rw [step_of_instruction?_eq_some hi, step_of_instruction?_eq_some hi,
          if_neg (not_spent_of_free hfree), if_neg (not_spent_of_free hfree')]
        exact execute_eq_of_topLevel hp i
  induction patience generalizing s with
  | zero => rfl
  | succ patience ih =>
      rw [proceed, proceed, hstep s]
      cases s.step p limits' false with
      | next s' => exact ih
      | _ => rfl

/-- A script without functions and loops runs as without limits when as many steps are allowed as it has
instructions. -/
theorem proceed_eq_unlimited (m : Machine) {main : Function}
    (hp : ∀ name f, p.functions.get? name = some f → name = topLevel) (hforward : main.backward = [])
    (hallowed : 0 < limits.steps → (main.length : Int) ≤ limits.steps) (patience : Nat) :
    proceed p limits false patience (m.start main) =
      proceed p unlimited false patience (m.start main) := by
  let free : Limits := { limits with steps := 0 }
  have hfree : free.steps ≤ 0 := Int.le_refl 0
  have hsame := proceed_eq_of_topLevel (s := m.start main) hp hfree free_unlimited.steps patience
  by_cases hlimit : 0 < limits.steps
  · obtain ⟨hascending, hbounds⟩ := (alone_start m main).begun free hp hforward false patience
    have hlength := Compiler.length_le_of_pairwise_lt hascending fun a ha => (hbounds a ha).2
    have hsteps : (proceed p free false patience (m.start main)).2.steps = _ :=
      (steps_proceed_begun false patience _).trans (Nat.zero_add _)
    have hallowed := hallowed hlimit
    have hle : ((proceed p free false patience (m.start main)).2.steps : Int) ≤ limits.steps := by omega
    have hdepth : limits.depth = free.depth := rfl
    exact (proceed_of_enough hfree hdepth hle).1.trans hsame
  · exact proceed_eq_of_topLevel hp (Int.not_lt.mp hlimit) free_unlimited.steps patience

end

end LineScript.Machine

namespace LineScript.Compiler

open LineScript.Code LineScript.Tree LineScript.Machine LineScript.Compile

/-! ## Running a literal -/

section

variable {c : Compiler} {p : Program} {e : Expr} {d : Data}

/-- A script that returns the literal of data ends with a value for the data. -/
theorem run_returning (h : ∀ own invoke, e.Builds own invoke d) (earlier : List Definition)
    (scope : Scope) (count : Nat) (st : Store) :
    ∃ v heap, (returning e).run earlier scope count st = (.done v, st.mapHeap fun _ => heap) ∧
      Heap.Unfolds (st.heap.Newer heap) heap v d := by
  obtain ⟨v, heap, heval, -, hunfolds⟩ :=
    h ((returning e).after scope).own (Tree.invoke (earlier ++ (returning e).definitions scope) count) st
  refine ⟨v, heap, ?_, hunfolds⟩
  have hgives : (Simple.giveBack (some e)).eval _ _ st = (.done (.back v), st.mapHeap fun _ => heap) :=
    (Eval.bind_done heval).trans rfl
  have hback : (returning e).eval ((returning e).after scope).own
      (Tree.invoke (earlier ++ (returning e).definitions scope) count) count st =
        (.done (.back v), st.mapHeap fun _ => heap) :=
    (Eval.bind_done hgives).trans rfl
  exact (Eval.bind_done hback).trans rfl

/-- Without a prelude, a compiled script that returns the literal of data gives a value for the data. It comes
to its end on every machine that serves it and lets each of its instructions be carried out. -/
theorem Compiles.runFor_returning (h : c.Compiles (returning e) p) (hprelude : c.prelude? = none)
    (hbuilds : ∀ own invoke, e.Builds own invoke d) {main : Function} (hmain : p.main? = some main)
    {m : Machine} (hserved : Served c m.natives)
    (hallowed : 0 < m.limits.steps → (main.length : Int) ≤ m.limits.steps) :
    ∃ w own, ∀ patience, main.length < patience →
      (m.runFor patience p).outcome = .value w ∧
        Heap.Unfolds own (m.runFor patience p).machine.heap w d := by
  have honly : ∀ name f, p.functions.get? name = some f → name = topLevel := fun name f hf =>
    h.eq_topLevel_of_definitions (shapes_of_prelude?_eq_none hprelude) rfl hf
  have hforward : main.backward = [] := by
    refine h.backward_main ?_ hmain
    rw [(returning e).countP_words _ h.inScope]
    rfl
  let free : Machine := { m with limits := unlimited }
  obtain ⟨w, heap, hrun, hunfolds⟩ := run_returning hbuilds [] c.scope 0 free.store
  have hends : (returning e).Ends [] c.scope free.store (.done w)
      ((free.store.mapHeap fun _ => heap).lasting) := by
    refine ⟨by rintro ⟨⟩, 0, ?_⟩
    rw [hrun]
    exact ⟨rfl, rfl⟩
  obtain ⟨enough, houtcome, hstore⟩ :=
    ((h.ends_iff (m := free) (.nothing hprelude) hserved free_unlimited).1 _ _).mp hends
  rw [runFor_of_main hmain] at houtcome hstore
  refine ⟨w, free.store.heap.Newer heap, fun patience hpatience => ?_⟩
  -- Both the patience that is asked for and the one that is known to do lead to the end.
  have hended : (proceed p unlimited false patience (m.start main)).1 ≠ .unfinished :=
    (alone_start m main).proceed_ne_unfinished honly hforward false (Nat.sub_lt_of_lt hpatience)
  have hproceed := (proceed_eq_unlimited m honly hforward hallowed patience).trans
    (proceed_unique hended houtcome.ne_unfinished)
  have hheap : (proceed p unlimited false enough (m.start main)).2.world.heap = heap :=
    congrArg (fun st : Store => st.heap) hstore
  rw [runFor_of_main hmain, hproceed]
  refine ⟨houtcome.eq_value, ?_⟩
  change Heap.Unfolds _ (proceed p unlimited false enough (m.start main)).2.world.heap w d
  rw [hheap]
  exact hunfolds

/-! ## Printed values -/

/-- Printed values are source. The text of a value that scripts can write is itself a script, once a `return`
stands in front of it. It compiles without host functions, and on every machine that lets each of its
instructions be carried out it gives a value of the same kind with the same text, in no more steps than it
has instructions. Reading has to undo writing for the numbers in the value. -/
theorem repr_is_source {h : Heap} {v : Value} (hv : h.Writable v) (hrestored : h.Restored v) :
    ∃ p main, Compiler.compileSource {} ("return " ++ h.repr v) = .ok p ∧ p.main? = some main ∧
      ∀ m : Machine, (0 < m.limits.steps → (main.length : Int) ≤ m.limits.steps) →
        ∃ w : Value, w.kind = v.kind ∧ ∀ patience, main.length < patience →
          (m.runFor patience p).outcome = .value w ∧
            (m.runFor patience p).machine.heap.repr w = h.repr v := by
  obtain ⟨d, hunfolds⟩ := hv.acyclic.exists_unfolds
  have hexpressible := hunfolds.expressible hv.spellable hrestored
  obtain ⟨found, hscan, hfound⟩ := hexpressible.scan_return
  obtain ⟨p, hcompile, hcompiles⟩ :=
    @compiles_returning {} _ _ _ (readAs_data hexpressible) hfound
  obtain ⟨main, hmain, -⟩ := Option.map_eq_some_iff.mp hcompiles.main
  refine ⟨p, main, ?_, hmain, fun m hallowed => ?_⟩
  · rw [hunfolds.repr_eq, compileSource, hscan]
    exact hcompile
  · have hserved : Served {} m.natives := fun name params hname => by cases hname
    obtain ⟨w, own, hruns⟩ := hcompiles.runFor_returning rfl
      (fun own invoke => Expr.builds_data hexpressible) hmain hserved hallowed
    refine ⟨w, ?_, fun patience hpatience => ?_⟩
    · rw [(hruns _ (Nat.lt_succ_self _)).2.kind_eq, hunfolds.kind_eq]
    · obtain ⟨houtcome, hw⟩ := hruns patience hpatience
      exact ⟨houtcome, by rw [hw.repr_eq, hunfolds.repr_eq]⟩

/-- A list in which another list stands twice itself and once in an object. -/
def shelf : Heap where
  lists := #[#[.number (-1.5), .null], #[.list 0, .object 0, .list 0, .boolean true]]
  objects := #[(Object.set {} "title" (.string "\"Tea\"\n")).set "pages" (.list 0)]

/-- The text of the list. -/
def shelfText : String :=
  "[[-1.5, null], \x7btitle = \"\\\"Tea\\\"\\n\", pages = [-1.5, null]\x7d, [-1.5, null], true]"

/-- How far the containers are nested. -/
def shelfOrder : Value → Nat
  | .ref (.list place) => 2 * place + 1
  | .ref (.object _) => 2
  | _ => 0

theorem forall_shelf {P : Ref → Prop} (h₀ : P (.list 0)) (h₁ : P (.list 1)) (h₂ : P (.object 0)) :
    ∀ r, shelf.Has r → P r := by
  rintro (place | place) hr
  · have hr : place < 2 := hr
    interval_cases place
    · exact h₀
    · exact h₁
  · have hr : place < 1 := hr
    interval_cases place
    exact h₂

/-- The text of the list is read as a list with the same text. -/
theorem repr_is_source_shelf :
    shelf.Writable (.list 1) ∧ shelf.Restored (.list 1) ∧
      ∃ p main, Compiler.compileSource {} ("return " ++ shelfText) = .ok p ∧ p.main? = some main ∧
        ∃ w : Value, w.kind = .list ∧ ∀ patience, main.length < patience →
          (({} : Machine).runFor patience p).outcome = .value w ∧
            (({} : Machine).runFor patience p).machine.heap.repr w = shelfText := by
  have hwritable : shelf.Writable (.list 1) := by
    refine ⟨Heap.acyclic_of_lt shelfOrder ?_ _, Heap.forall_part trivial ?_⟩
    · exact forall_shelf (by decide) (by decide) (by decide)
    · exact forall_shelf (by decide +kernel) (by decide +kernel) (by decide +kernel)
  have hrestored : shelf.Restored (.list 1) := by
    have hall : ∀ u, shelf.Part u (.list 1) →
        ∀ x, u = .number x → Number.read? (Number.written x) = some x := by
      have hnumber : Number.read? (Number.written (-1.5)) = some (-1.5) := by decide +kernel
      have hmembers {u v : Value} : ((Object.set {} "title" u).set "pages" v).members =
          [("title", u), ("pages", v)] :=
        ((Object.Coherent.empty.set "title" u).members_set
            (by rw [Object.Coherent.empty.keys_set]; decide) v).trans
          (congrArg (· ++ _) (Object.Coherent.empty.members_set List.not_mem_nil u))
      refine Heap.forall_part (fun x hx => by cases hx) (forall_shelf ?_ ?_ ?_) <;>
        simp [Heap.contents, Heap.list, Heap.object, shelf, hmembers, hnumber]
    exact fun x hx => hall _ hx x rfl
  have htext : shelf.repr (.list 1) = shelfText := by decide +kernel
  obtain ⟨p, main, hcompile, hmain, hruns⟩ := repr_is_source hwritable hrestored
  obtain ⟨w, hkind, hpatience⟩ := hruns {} (fun h => by cases h)
  rw [htext] at hcompile hpatience
  exact ⟨hwritable, hrestored, p, main, hcompile, hmain, w, hkind, hpatience⟩

end

end LineScript.Compiler
