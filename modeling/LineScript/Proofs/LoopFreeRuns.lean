/-
# Scripts without loops

In code whose jumps all go forward, an instruction that has begun is left behind for good. So a
script without loops and without functions of its own runs through its code at most once: the
addresses at which instructions begin ascend, each of them is counted, and the run is over after
at most one step more than there are instructions. What the host functions answer plays no part in
this, and limits and cancellations can only end the run earlier.

The main statement puts this together with the structure of the jumps it follows from.
-/

import LineScript.Proofs.JumpStructure
import LineScript.Proofs.Limits

namespace LineScript.Machine

open LineScript.Code

/-! ## Instructions that begin -/

/-- The addresses at which up to `patience` steps begin an instruction, in order. -/
def begun (p : Program) (limits : Limits) (cancelled : Bool) : Nat → State → List Nat
  | 0, _ => []
  | patience + 1, s =>
    (if s.instruction?.isSome then [s.frame.ip.toNat] else []) ++
      match s.step p limits cancelled with
      | .next s => begun p limits cancelled patience s
      | _ => []

section

variable {p : Program} {limits : Limits} {main : Function} {s s' : State} {cancelled : Bool}

/-- A cancellation makes a difference only where an instruction begins, and there it ends the run. -/
theorem step_cancelled_cases (p : Program) (limits : Limits) (s : State) (cancelled : Bool) :
    s.step p limits cancelled = s.step p limits false ∨
      s.instruction? ≠ none ∧ s.step p limits cancelled = s.begin.fail .cancelled := by
  unfold State.instruction? State.step
  split
  · exact .inl rfl
  · dsimp only
    split
    · exact .inl rfl
    · rename_i i hi
      split
      · exact .inl rfl
      · split
        · exact .inr ⟨fun h => (nomatch hi.symm.trans h), rfl⟩
        · exact .inl (if_neg fun h => nomatch h.2).symm

/-- Every instruction counts that begins, also one that is cancelled. -/
theorem steps_step_cancelled (p : Program) (limits : Limits) (s : State) (cancelled : Bool) :
    (s.step p limits cancelled).state.steps =
      s.steps + (if s.instruction?.isSome then 1 else 0) := by
  obtain heq | ⟨hsome, heq⟩ := step_cancelled_cases p limits s cancelled
  · rw [heq]
    exact steps_step p limits s
  · rw [heq, if_pos (Option.isSome_iff_ne_none.mpr hsome)]
    rfl

/-- The steps that a run counts are the instructions that begin. -/
theorem steps_proceed_begun (cancelled : Bool) (patience : Nat) (s : State) :
    (proceed p limits cancelled patience s).2.steps =
      s.steps + (begun p limits cancelled patience s).length := by
  induction patience generalizing s with
  | zero => rfl
  | succ patience ih =>
      have hstep := steps_step_cancelled p limits s cancelled
      have hlength : (if s.instruction?.isSome then [s.frame.ip.toNat] else []).length =
          if s.instruction?.isSome then 1 else 0 := by
        split <;> rfl
      rw [begun, proceed, List.length_append, hlength]
      cases htransition : s.step p limits cancelled with
      | next s' =>
          rw [htransition] at hstep
          have hstep : s'.steps = _ := hstep
          have hrest := ih s'
          dsimp only at hrest ⊢
          omega
      | _ =>
          rw [htransition] at hstep
          exact hstep

/-! ## The top level on its own -/

/-- The top level runs, and nothing else. -/
structure Alone (main : Function) (s : State) : Prop where
  function : s.frame.function = main
  callers : s.callers = []
  ip : 0 ≤ s.frame.ip

theorem frame_of_ask {name : String} {bound : Bound} (h : s.ask name bound = .next s') :
    s'.frame = s.frame := by
  obtain ⟨base, v, world, -, -, -, rfl⟩ := ask_eq_next h
  rfl

/-- An instruction goes on at the next address or at its target when there are no other functions
to go to. -/
theorem ip_of_execute {i : Instruction}
    (hp : ∀ name f, p.functions.get? name = some f → name = topLevel)
    (hcallers : s.callers = []) (h : s.execute p limits i = .next s') :
    s'.frame.function = s.frame.function ∧ s'.callers = [] ∧
      (s'.frame.ip = s.frame.ip ∨ i.op.isJump = true ∧ s'.frame.ip = i.target) := by
  obtain hcall | hret | hstays | ⟨label, hfail⟩ := execute_forms p limits s i
  · rw [hcall] at h
    unfold State.call at h
    split at h
    · rename_i f hlookup
      split at hlookup
      · cases hlookup
      · rename_i hname
        exact absurd (hp _ f hlookup) hname
    · split at h
      · have hframe := frame_of_ask h
        rw [hframe]
        exact ⟨rfl, (remains_of_ask h).callers.trans hcallers, .inl rfl⟩
      · cases h
  · rw [hret] at h
    unfold State.popping at h
    split at h
    · have hreturns := (returns_of_leave h).callers
      have hdrop : s.drop.callers = s.callers := rfl
      rw [hdrop, hcallers] at hreturns
      cases hreturns
    · cases h
  · rw [h] at hstays
    exact ⟨hstays.function, hstays.callers.trans hcallers, hstays.ip⟩
  · rw [hfail] at h
    cases h

/-- Each step of code that goes forward begins an instruction and goes on behind it. -/
theorem Alone.next (h : Alone main s)
    (hp : ∀ name f, p.functions.get? name = some f → name = topLevel)
    (hforward : main.backward = []) (hstep : s.step p limits cancelled = .next s') :
    s.instruction?.isSome = true ∧ s.frame.ip < s'.frame.ip ∧ Alone main s' := by
  have hstep := next_uncancelled hstep
  cases hi : s.instruction? with
  | none =>
      rw [step_of_instruction?_eq_none hi, if_neg (by have := h.ip; omega)] at hstep
      have hreturns := (returns_of_leave hstep).callers
      rw [h.callers] at hreturns
      cases hreturns
  | some i =>
      rw [step_of_instruction?_eq_some hi] at hstep
      split at hstep
      · cases hstep
      · obtain ⟨trace?, hrecorded⟩ := recorded_eq s.begin s.frame.ip.toNat i
        rw [hrecorded] at hstep
        obtain ⟨hfunction, hcallers, hip⟩ :=
          ip_of_execute (s := { s.begin with trace? := trace? }) hp h.callers hstep
        have hfunction : s'.frame.function = s.frame.function := hfunction
        have hlt : s.frame.ip < s'.frame.ip := by
          obtain hip | ⟨hjump, hip⟩ := hip
          · have hip : s'.frame.ip = s.frame.ip + 1 := hip
            omega
          · unfold State.instruction? at hi
            rw [if_neg (by have := h.ip; omega), h.function, ← Array.getElem?_toList] at hi
            rw [hip]
            refine Int.not_le.mp fun hle => ?_
            have hmem := mem_backward (a := 0) hi hjump (by have := h.ip; omega)
            have hforward : backward 0 main.code.toList = [] := hforward
            rw [hforward] at hmem
            cases hmem
        exact ⟨rfl, hlt, hfunction.trans h.function, hcallers, by have := h.ip; omega⟩

theorem Alone.lt_of_isSome (h : Alone main s) (hsome : s.instruction?.isSome = true) :
    s.frame.ip.toNat < main.length := by
  obtain ⟨i, hi⟩ := Option.isSome_iff_exists.mp hsome
  unfold State.instruction? at hi
  rw [if_neg (by have := h.ip; omega), h.function] at hi
  exact (Array.getElem?_eq_some_iff.mp hi).1

/-- The addresses at which instructions begin ascend from the address at which the run stands, and
lie within the code. -/
theorem Alone.begun (h : Alone main s) (limits : Limits)
    (hp : ∀ name f, p.functions.get? name = some f → name = topLevel)
    (hforward : main.backward = []) (cancelled : Bool) (patience : Nat) :
    (begun p limits cancelled patience s).Pairwise (· < ·) ∧
      ∀ a ∈ begun p limits cancelled patience s, s.frame.ip ≤ a ∧ a < main.length := by
  induction patience generalizing s with
  | zero => exact ⟨.nil, nofun⟩
  | succ patience ih =>
      rw [Machine.begun]
      cases hstep : s.step p limits cancelled with
      | next s' =>
          obtain ⟨hsome, hlt, hnext⟩ := h.next hp hforward hstep
          obtain ⟨hascending, hbounds⟩ := ih hnext
          rw [if_pos hsome]
          dsimp only
          rw [List.singleton_append]
          refine ⟨List.pairwise_cons.mpr ⟨fun a ha => ?_, hascending⟩,
            List.forall_mem_cons.mpr ⟨⟨by have := h.ip; omega, h.lt_of_isSome hsome⟩, ?_⟩⟩
          · have := (hbounds a ha).1
            have := h.ip
            omega
          · intro a ha
            have := hbounds a ha
            omega
      | _ =>
          dsimp only
          rw [List.append_nil]
          split
          · rename_i hsome
            refine ⟨List.pairwise_singleton _ _, fun a ha => ?_⟩
            cases List.mem_singleton.mp ha
            exact ⟨by have := h.ip; omega, h.lt_of_isSome hsome⟩
          · exact ⟨.nil, nofun⟩

/-- With more patience than there are instructions left, the run comes to its end. -/
theorem Alone.proceed_ne_unfinished (h : Alone main s)
    (hp : ∀ name f, p.functions.get? name = some f → name = topLevel)
    (hforward : main.backward = []) (cancelled : Bool) {patience : Nat}
    (hpatience : main.length - s.frame.ip.toNat < patience) :
    (proceed p limits cancelled patience s).1 ≠ .unfinished := by
  induction patience generalizing s with
  | zero => omega
  | succ patience ih =>
      rw [proceed]
      cases hstep : s.step p limits cancelled with
      | next s' =>
          obtain ⟨hsome, hlt, hnext⟩ := h.next hp hforward hstep
          have := h.lt_of_isSome hsome
          have := h.ip
          exact ih hnext (by omega)
      | _ => simp

theorem alone_start (m : Machine) (main : Function) : Alone main (m.start main) :=
  ⟨rfl, rfl, Int.le_refl 0⟩

end

end LineScript.Machine

namespace LineScript.Tree

/-! ## Scripts without functions -/

mutual

/-- Every function begins with a word of its own. -/
theorem Stmt.func_mem_words : ∀ (x : Stmt) (s : Scope), x.definitions s ≠ [] →
    .symbol .func ∈ x.words
  | .simple _, _, h | .when _ _, _, h => absurd rfl h
  | .choose condition body arms, s, h => by
      have hmem : Word.symbol .func ∈ body.words ∨ Word.symbol .func ∈ arms.words := by
        by_cases hbody : body.definitions s = []
        · rw [Stmt.definitions, hbody, List.nil_append] at h
          exact .inr (arms.func_mem_words _ h)
        · exact .inl (body.func_mem_words s hbody)
      rw [Stmt.words]
      obtain hmem | hmem := hmem <;> simp [hmem]
  | .loop condition body, s, h => by
      rw [Stmt.words]
      simp [body.func_mem_words s h]
  | .function _ _ _, _, _ => List.mem_cons_self

theorem Block.func_mem_words : ∀ (b : Block) (s : Scope), b.definitions s ≠ [] →
    .symbol .func ∈ b.words
  | .nil, _, h => absurd rfl h
  | .cons first rest, s, h => by
      by_cases hfirst : first.definitions s = []
      · rw [Block.definitions, hfirst, List.nil_append] at h
        exact List.mem_append_right _ (rest.func_mem_words _ h)
      · exact List.mem_append_left _ (first.func_mem_words s hfirst)

theorem Arms.func_mem_words : ∀ (arms : Arms) (s : Scope), arms.definitions s ≠ [] →
    .symbol .func ∈ arms.words
  | .done, _, h => absurd rfl h
  | .otherwise body, s, h => List.mem_cons_of_mem _ (body.func_mem_words s h)
  | .elif condition body arms, s, h => by
      rw [Arms.words]
      by_cases hbody : body.definitions s = []
      · rw [Arms.definitions, hbody, List.nil_append] at h
        simp [arms.func_mem_words _ h]
      · simp [body.func_mem_words s hbody]

end

theorem Word.exists_of_symbol_mem {tokens : List Token} {kind : TokenKind}
    (h : Word.symbol kind ∈ Word.ofTokens tokens) : ∃ t ∈ tokens, t.kind = kind := by
  obtain ⟨t, ht, hword⟩ := List.mem_filterMap.mp h
  refine ⟨t, ht, ?_⟩
  unfold Word.ofToken? at hword
  split at hword <;> cases hword
  rfl

end LineScript.Tree

namespace LineScript.Compiler

open LineScript.Code LineScript.Tree LineScript.Machine

variable {c : Compiler} {b : Block} {p : Program}

/-! ## Compiled scripts -/

/-- Without loops the top level goes forward. -/
theorem Compiles.backward_main (h : c.Compiles b p) (hloops : b.words.countP Word.isWhile = 0)
    {main : Function} (hmain : p.main? = some main) : main.backward = [] := by
  have hshape := h.main
  rw [hmain, Option.map_some] at hshape
  have hcode : main.code.toList.map Instruction.unplaced = b.code 0 ++ [] := by
    rw [List.append_nil]
    exact congrArg Shape.code (Option.some.inj hshape)
  have hnone : b.loops 0 = [] := by
    rw [b.countP_words _ h.inScope] at hloops
    exact List.length_eq_zero_iff.mp (Nat.eq_zero_of_add_eq_zero_right hloops)
  have hback := backward_of_code hcode (List.forall_mem_nil _)
  rw [hnone] at hback
  exact List.map_eq_nil_iff.mp hback

/-- Without functions, in a prelude or in the script, there is the top level only. -/
theorem Compiles.eq_topLevel_of_definitions (h : c.Compiles b p)
    (hprelude : ∀ name, c.shapes name = none) (hnone : b.definitions c.scope = []) {name : String}
    {f : Function} (hf : p.functions.get? name = some f) : name = topLevel := by
  refine Classical.byContradiction fun hname => ?_
  have hshape := h.functions name hname
  rw [Program.function?, hf, hnone, List.foldl_nil, hprelude] at hshape
  cases hshape

theorem Compiles.eq_topLevel (h : c.Compiles b p) (hprelude : ∀ name, c.shapes name = none)
    (hfunctions : Word.symbol .func ∉ b.words) {name : String} {f : Function}
    (hf : p.functions.get? name = some f) : name = topLevel :=
  h.eq_topLevel_of_definitions hprelude
    (Classical.byContradiction fun hne => hfunctions (b.func_mem_words _ hne)) hf

/-- Numbers that ascend below a bound are no more than the bound. -/
theorem length_le_of_pairwise_lt {numbers : List Nat} {bound : Nat}
    (h : numbers.Pairwise (· < ·)) (hbound : ∀ a ∈ numbers, a < bound) :
    numbers.length ≤ bound := by
  have hnodup : numbers.Nodup := h.imp Nat.ne_of_lt
  have hsubset : numbers ⊆ List.range bound := fun a ha => List.mem_range.mpr (hbound a ha)
  have hle := (List.Nodup.subperm hnodup hsubset).length_le
  rwa [List.length_range] at hle

/-- In every function that is compiled from a source, the jumps past operands, arms and loops go
forward, and every other jump goes forward too or back from the end of a loop to the first
instruction of its condition. The source has as many loops as there are jumps that go back. So a
script without loops and functions always comes to its end, whatever the machine has been prepared
with: it begins each instruction of the top level once at most. -/
theorem jump_structure {source : String} (h : c.compileSource source = .ok p) :
    ∃ tokens b, Token.scan source = .ok tokens ∧ Block.words b = Word.ofTokens tokens ∧
      c.Compiles b p ∧
      (∀ name f, (name, f) ∈ c.compiled p →
        ∃ body, (name, body) ∈ b.bodies c.scope ∧ Structured f (body.loops 0)) ∧
      ((c.compiled p).map fun e => e.2.backward.length).sum =
        tokens.countP (fun t => t.kind = .while_) ∧
      (c.prelude? = none → c.compiled p = p.functions.toList) ∧
      ((∀ t ∈ tokens, t.kind ≠ .while_ ∧ t.kind ≠ .func) → (∀ name, c.shapes name = none) →
        ∃ main, p.main? = some main ∧ ∀ (m : Machine) (patience : Nat) (cancelled : Bool),
          (main.length < patience → (m.runFor patience p cancelled).outcome ≠ .unfinished) ∧
          (begun p m.limits cancelled patience (m.start main)).Pairwise (· < ·) ∧
          (m.runFor patience p cancelled).machine.steps =
            (begun p m.limits cancelled patience (m.start main)).length ∧
          (m.runFor patience p cancelled).machine.steps ≤ main.length) := by
  obtain ⟨tokens, b, hscan, hwords, hcompiles⟩ := exists_tree h
  have hcount : b.words.countP Word.isWhile = tokens.countP fun t => t.kind = .while_ := by
    rw [hwords, Word.countP_ofTokens]
  refine ⟨tokens, b, hscan, hwords, hcompiles, fun name f hf => ?_, hcompiles.sum_backward.trans hcount,
    fun hprelude => compiled_of_prelude?_eq_none hprelude p, fun hplain hprelude => ?_⟩
  · obtain ⟨body, ending, hbody, hcode, hending⟩ := hcompiles.exists_body hf
    exact ⟨body, hbody, structured_of_code hcode hending⟩
  · obtain ⟨main, hmain, -⟩ := Option.map_eq_some_iff.mp hcompiles.main
    have hloops : b.words.countP Word.isWhile = 0 := by
      rw [hcount]
      exact List.countP_eq_zero.mpr fun t ht => by simp [(hplain t ht).1]
    have hforward := hcompiles.backward_main hloops hmain
    have honly : ∀ name f, p.functions.get? name = some f → name = topLevel := by
      intro name f hf
      refine hcompiles.eq_topLevel hprelude (fun hfunc => ?_) hf
      obtain ⟨t, ht, hkind⟩ := Word.exists_of_symbol_mem (hwords ▸ hfunc)
      exact (hplain t ht).2 hkind
    refine ⟨main, hmain, fun m patience cancelled => ?_⟩
    have halone := alone_start m main
    obtain ⟨hascending, hbounds⟩ := halone.begun m.limits honly hforward cancelled patience
    have hsteps : (m.runFor patience p cancelled).machine.steps =
        (begun p m.limits cancelled patience (m.start main)).length := by
      unfold runFor
      rw [hmain]
      exact (steps_proceed_begun cancelled patience _).trans (Nat.zero_add _)
    refine ⟨fun hpatience => ?_, hascending, hsteps, ?_⟩
    · unfold runFor
      rw [hmain]
      exact halone.proceed_ne_unfinished honly hforward cancelled (Nat.sub_lt_of_lt hpatience)
    · rw [hsteps]
      exact length_le_of_pairwise_lt hascending fun a ha => (hbounds a ha).2

/-- A loop in an arm of a conditional in a loop. -/
def nestedLoops : String :=
  "while true and null\nif null\nelse\nwhile null\nend\nend\nend"

/-- A conditional without a loop. -/
def choice : String :=
  "x = true or false\nif x and not x\nx = false\nelse\nend"

/-- Of two loops, one of them in an arm of a conditional in the other, each has its jump back; and
a script that chooses without a loop always comes to its end. -/
theorem jump_structure_nested :
    (∃ p, Compiler.compileSource {} nestedLoops = .ok p ∧
      ((Compiler.compiled {} p).map fun e => e.2.backward.length).sum = 2) ∧
    ∃ p main, Compiler.compileSource {} choice = .ok p ∧
      p.main? = some main ∧ ∀ (m : Machine) (patience : Nat) (cancelled : Bool),
        main.length < patience → (m.runFor patience p cancelled).outcome ≠ .unfinished ∧
          (m.runFor patience p cancelled).machine.steps ≤ main.length := by
  refine ⟨?_, ?_⟩
  · have hok : (Compiler.compileSource {} nestedLoops).isOk = true := by decide +kernel
    have hcount : (Token.scan nestedLoops).toOption.map
        (fun tokens => tokens.countP fun t => t.kind = .while_) = some 2 := by decide +kernel
    obtain ⟨p, hcompile⟩ := Registry.exists_of_isOk hok
    obtain ⟨tokens, b, hscan, -, -, -, hsum, -⟩ := jump_structure hcompile
    rw [hscan] at hcount
    exact ⟨p, hcompile, hsum.trans (Option.some.inj hcount)⟩
  · have hok : (Compiler.compileSource {} choice).isOk = true := by decide +kernel
    have hplain : (Token.scan choice).toOption.map
        (fun tokens => tokens.all fun t => t.kind ≠ .while_ && t.kind ≠ .func) = some true := by
      decide +kernel
    obtain ⟨p, hcompile⟩ := Registry.exists_of_isOk hok
    obtain ⟨tokens, b, hscan, -, -, -, -, -, hruns⟩ := jump_structure hcompile
    rw [hscan] at hplain
    have hplain := List.all_eq_true.mp (Option.some.inj hplain)
    obtain ⟨main, hmain, hends⟩ :=
      hruns (fun t ht => by simpa using hplain t ht) (shapes_of_prelude?_eq_none rfl)
    refine ⟨p, main, hcompile, hmain, fun m patience cancelled hpatience => ?_⟩
    obtain ⟨hends, -, -, hsteps⟩ := hends m patience cancelled
    exact ⟨hends hpatience, hsteps⟩

end LineScript.Compiler
