/-
# Code does what its tree means

The code of a tree, run from its first address, meets the evaluation of the tree: an
expression leaves its value on the stack, a statement goes on behind its code or stands
at a return with the value it gives back. The proof follows the tree. Calls are the one
place where it leaves the tree; there it counts down: that calls of one depth meet
their evaluation is what the calls one deeper need.
-/

import LineScript.Proofs.Paths

namespace LineScript.Machine

open LineScript.Code LineScript.Tree

/-! ## Expressions -/

/-- Calls with the right number of arguments meet their evaluation. -/
def Answers (c : Compiler) (p : Program) (limits : Limits) (count : Nat)
    (invoke : String → List Value → Eval Value) : Prop :=
  ∀ {site : Site} {st : Store} {ip : Nat} {stack values : List Value} {name : String} {s : State},
    c.arity? p name = some values.length → site.code[ip]? = some (named .call name) →
    Shows c site st ip (stack ++ values) s → site.base ≤ stack.length →
    Meets p limits count (Pushed c site (ip + 1) stack) s (invoke name values st)

section

variable {c : Compiler} {p : Program} {limits : Limits} {count : Nat} {site : Site} {st : Store}
  {ip : Nat} {stack : List Value} {s : State}

/-- An instruction that does something and goes on. -/
theorem Shows.meets_next {α : Type} {good : α → Store → State → Prop} {i : Instruction} {a : α}
    {st' : Store} (h : Shows c site st ip stack s) (hfree : limits.Free)
    (hi : site.code[ip]? = some i)
    (hexecute : ∀ t, Shows c site st (ip + 1) stack t →
      ∃ t', t.execute p limits i = .next t' ∧ good a st' t') :
    Meets p limits count good s (.done a, st') := by
  have hmeets : Meets p limits (count + 1) good s (.done a, st') := by
    refine h.meets hfree hi fun t ht => ?_
    obtain ⟨t', heq, hgood⟩ := hexecute t ht
    rw [heq]
    exact Leads.done hgood
  exact hmeets.of_le (Nat.le_succ _)

end

/-- The code of an expression pushes its value. -/
theorem Expr.meets {c : Compiler} {p : Program} {limits : Limits} {count : Nat} {site : Site}
    {invoke : String → List Value → Eval Value} (hfree : limits.Free)
    (hanswers : Answers c p limits count invoke) (e : Expr) {scope : Scope} {a b : Nat} {st : Store}
    {stack : List Value} {s : State} (hscoped : e.Scoped scope) (hwithin : scope.Within (c.arity? p))
    (hcode : Placed site.code a (e.code a)) (hb : b = a + e.size) (h : Shows c site st a stack s)
    (hbase : site.base ≤ stack.length) :
    Meets p limits count (Pushed c site b stack) s (e.eval site.function.declares invoke st) := by
  have hstretch : Stretch c p limits site a b (fun _ => True)
      (fun s => ∃ k s', count ≤ k ∧ Steps p limits k s s') invoke := by
    refine ⟨hfree, fun _ _ _ => trivial, fun _ _ harity hi h hbase => ?_⟩
    exact meets_iff_passes.mp (hanswers harity hi h hbase)
  exact meets_iff_passes.mpr (Expr.passes hstretch e hscoped hwithin hcode (Nat.le_refl a) hb
    (Nat.le_refl b) h hbase)

/-! ## Statements -/

/-- A state behind statements: at the next address, or at a return with a value on top
of the stack. -/
def Flowed (c : Compiler) (site : Site) (ip : Nat) (stack : List Value) :
    Flow → Store → State → Prop
  | .next, st, s => Shows c site st ip stack s
  | .back v, st, s =>
    ∃ address, site.code[address]? = some (plain .ret) ∧
      Shows c site st address (stack ++ [v]) s

section

variable {c : Compiler} {p : Program} {limits : Limits} {count : Nat} {site : Site} {st : Store}
  {ip : Nat} {stack : List Value} {s : State}

/-- Statements that go on are followed by others. -/
theorem Meets.andNext {m rest : Eval Flow} {middle ending : Nat}
    (h : Meets p limits count (Flowed c site middle stack) s (m st))
    (hrest : ∀ st s, Shows c site st middle stack s →
      Meets p limits count (Flowed c site ending stack) s (rest st)) :
    Meets p limits count (Flowed c site ending stack) s (Eval.andNext m rest st) := by
  refine h.bind fun flow st' s' h' => ?_
  cases flow with
  | next => exact hrest st' s' h'
  | back v => exact .done h'

/-- A value is taken off the stack. -/
theorem Shows.meets_pop {v : Value} (h : Shows c site st ip (stack ++ [v]) s) (hfree : limits.Free)
    (hbase : site.base ≤ stack.length) (hi : site.code[ip]? = some (plain .pop)) :
    Meets p limits count (Flowed c site (ip + 1) stack) s (.done .next, st) := by
  refine h.meets_next hfree hi fun t ht => ⟨t.drop, ?_, ht.drop⟩
  unfold State.execute plain
  dsimp only
  rw [ht.popping_eq hbase]

/-- A value is assigned to a variable. -/
theorem Shows.meets_store {v : Value} {name : String} (h : Shows c site st ip (stack ++ [v]) s)
    (hfree : limits.Free) (hbase : site.base ≤ stack.length)
    (hi : site.code[ip]? = some (named .store name)) :
    Meets p limits count (Flowed c site (ip + 1) stack) s
      (.done .next, st.assign site.function.declares name v) := by
  refine h.meets_next hfree hi fun t ht => ⟨t.drop.store name v, ?_, ht.drop.store name v⟩
  unfold State.execute named
  dsimp only
  rw [ht.popping_eq hbase]

/-- A value is assigned to an element. -/
theorem Shows.meets_put {container position v : Value}
    (h : Shows c site st ip (stack ++ [container] ++ [position] ++ [v]) s) (hfree : limits.Free)
    (hbase : site.base ≤ stack.length) (hi : site.code[ip]? = some (plain .put)) :
    Meets p limits count (Flowed c site (ip + 1) stack) s
      ((do
        let place ← Eval.operate (slot · container position)
        Eval.change (Store.mapHeap (·.write place v))
        pure Flow.next) st) := by
  have hmeets : Meets p limits (count + 1) (Flowed c site (ip + 1) stack) s
      ((do
        let place ← Eval.operate (slot · container position)
        Eval.change (Store.mapHeap (·.write place v))
        pure Flow.next) st) := by
    refine h.meets hfree hi fun t ht => ?_
    unfold State.execute plain
    dsimp only
    rw [ht.popping_eq (by simp; omega), ht.drop.popping2_eq hbase, ht.drop.drop.drop.heap_eq]
    cases hslot : slot st.heap container position with
    | ok place =>
        rw [Eval.operate_bind_ok hslot]
        exact Leads.done (ht.drop.drop.drop.mapHeap _)
    | error cause =>
        rw [Eval.operate_bind_error hslot]
        exact ht.drop.drop.drop.leads_fail cause
  exact hmeets.of_le (Nat.le_succ _)

/-- A value is assigned to a member, and its owner is taken off the stack. -/
theorem Shows.meets_setPop {owner v : Value} {name : String}
    (h : Shows c site st ip (stack ++ [owner] ++ [v]) s) (hfree : limits.Free)
    (hbase : site.base ≤ stack.length) (hset : site.code[ip]? = some (named .set name))
    (hpop : site.code[ip + 1]? = some (plain .pop)) :
    Meets p limits count (Flowed c site (ip + 2) stack) s
      ((do
        let place ← Eval.operate fun _ => ownerOf name owner
        Eval.change (Store.mapHeap (·.setMember place name v))
        pure Flow.next) st) := by
  have hmeets : Meets p limits (count + 1) (Flowed c site (ip + 2) stack) s
      ((do
        let place ← Eval.operate fun _ => ownerOf name owner
        Eval.change (Store.mapHeap (·.setMember place name v))
        pure Flow.next) st) := by
    refine h.meets hfree hset fun t ht => ?_
    rw [execute_set, ht.popping_eq (by simp; omega), ht.drop.withTop_eq hbase]
    cases ownerOf name owner with
    | ok place =>
        rw [Eval.operate_bind_ok (f := fun _ => .ok place) rfl]
        have hafter := ht.drop.mapHeap (·.setMember place name v)
        have hpopped : Meets p limits count (Flowed c site (ip + 2) stack) _ _ :=
          hafter.meets_pop hfree hbase hpop
        exact hpopped
    | error cause =>
        rw [Eval.operate_bind_error (f := fun _ => .error cause) rfl]
        exact ht.drop.leads_fail cause
  exact hmeets.of_le (Nat.le_succ _)

/-- One of two ways is taken, by the value on top of the stack. -/
theorem Shows.meets_branch {v : Value} {target : Nat} {good : Flow → Store → State → Prop}
    {yes no : Eval Flow} (h : Shows c site st ip (stack ++ [v]) s) (hfree : limits.Free)
    (hbase : site.base ≤ stack.length) (hi : site.code[ip]? = some (jumpTo .branch target))
    (hyes : ∀ t, Shows c site st (ip + 1) stack t → Meets p limits count good t (yes st))
    (hno : ∀ t, Shows c site st target stack t → Meets p limits count good t (no st)) :
    Meets p limits (count + 1) good s ((if v.truthy then yes else no) st) := by
  refine h.meets hfree hi fun t ht => ?_
  unfold State.execute jumpTo
  dsimp only
  rw [ht.popping_eq hbase]
  cases v.truthy with
  | true => exact hyes _ ht.drop
  | false => exact hno _ (ht.drop.jump target)

/-- A jump goes on at its target. -/
theorem Shows.meets_jump {α : Type} {good : α → Store → State → Prop} {target : Nat}
    {r : Ending α × Store} (h : Shows c site st ip stack s) (hfree : limits.Free)
    (hi : site.code[ip]? = some (jumpTo .jump target))
    (hrest : ∀ t, Shows c site st target stack t → Meets p limits count good t r) :
    Meets p limits count good s r := by
  have hmeets : Meets p limits (count + 1) good s r :=
    h.meets hfree hi fun t ht => hrest _ (ht.jump target)
  exact hmeets.of_le (Nat.le_succ _)

/-- Statements that go on are followed by a jump. -/
theorem Meets.thenJump {target : Nat} {r : Ending Flow × Store}
    (h : Meets p limits count (Flowed c site ip stack) s r) (hfree : limits.Free)
    (hi : site.code[ip]? = some (jumpTo .jump target)) :
    Meets p limits count (Flowed c site target stack) s r := by
  obtain ⟨ending, st⟩ := r
  cases ending with
  | done flow =>
      obtain ⟨k, t, hsteps, ht⟩ := h
      cases flow with
      | next => exact (ht.meets_jump hfree hi fun t' ht' => Meets.done ht').after hsteps
      | back v => exact ⟨k, t, hsteps, ht⟩
  | _ => exact h

end

section

variable {c : Compiler} {p : Program} {limits : Limits} {count : Nat} {site : Site}
  {invoke : String → List Value → Eval Value} (hfree : limits.Free)
  (hanswers : Answers c p limits count invoke)
include hfree hanswers

/-- The code of a simple statement has its effect. -/
theorem Simple.meets (x : Simple) {scope : Scope} {a b : Nat} {st : Store} {stack : List Value}
    {s : State} (hscoped : x.Scoped scope) (hwithin : scope.Within (c.arity? p))
    (hcode : Placed site.code a (x.code a)) (hb : b = a + x.size) (h : Shows c site st a stack s)
    (hbase : site.base ≤ stack.length) :
    Meets p limits count (Flowed c site b stack) s
      (x.eval site.function.declares invoke st) := by
  subst hb
  cases x with
  | assign name value =>
      have hlast : site.code[a + value.size]? = some (named .store name) :=
        hcode.last (by rw [value.length_code])
      have hsize : a + (Simple.assign name value).size = a + value.size + 1 := by
        simp [Simple.size, Simple.code, Nat.add_assoc]
      rw [hsize]
      refine (Expr.meets hfree hanswers value hscoped hwithin hcode.left rfl h hbase).bind
        fun v st' s' h' => ?_
      exact h'.meets_store hfree hbase hlast
  | assignElement name position value =>
      have hlast : site.code[a + 1 + position.size + value.size]? = some (plain .put) :=
        hcode.last (by simp; omega)
      have hsize : a + (Simple.assignElement name position value).size =
          a + 1 + position.size + value.size + 1 := by
        simp [Simple.size, Simple.code]
        omega
      have hload : Placed site.code a ([named .load name] ++ position.code (a + 1)) :=
        hcode.left.left
      rw [hsize]
      refine Meets.bind (h.meets_push (v := st.load site.function.declares name) hfree hload.head
        fun t ht => ?_) fun w st' s' h' => ?_
      · rw [← ht.load_eq]
        rfl
      · refine (Expr.meets hfree hanswers position hscoped.2.1 hwithin hload.tail rfl h'
          (by simp; omega)).bind fun i st'' s'' h'' => ?_
        refine (Expr.meets hfree hanswers value hscoped.2.2 hwithin
          (hcode.left.right (by simp; omega)) rfl h'' (by simp; omega)).bind
          fun v st₃ s₃ h₃ => ?_
        exact h₃.meets_put hfree hbase hlast
  | assignMember name member value =>
      have hload : Placed site.code a ([named .load name] ++ value.code (a + 1)) := hcode.left
      have hrest := hcode.right (b := a + 1 + value.size) (by simp; omega)
      have hsize : a + (Simple.assignMember name member value).size = a + 1 + value.size + 2 := by
        simp [Simple.size, Simple.code]
        omega
      rw [hsize]
      refine Meets.bind (h.meets_push (v := st.load site.function.declares name) hfree hload.head
        fun t ht => ?_) fun w st' s' h' => ?_
      · rw [← ht.load_eq]
        rfl
      · refine (Expr.meets hfree hanswers value hscoped.2 hwithin hload.tail rfl h'
          (by simp; omega)).bind fun v st'' s'' h'' => ?_
        exact h''.meets_setPop hfree hbase hrest.head hrest.tail.head
  | discard value =>
      have hlast : site.code[a + value.size]? = some (plain .pop) :=
        hcode.last (by rw [value.length_code])
      have hsize : a + (Simple.discard value).size = a + value.size + 1 := by
        simp [Simple.size, Simple.code, Nat.add_assoc]
      rw [hsize]
      refine (Expr.meets hfree hanswers value hscoped hwithin hcode.left rfl h hbase).bind
        fun v st' s' h' => ?_
      exact h'.meets_pop hfree hbase hlast
  | giveBack value? =>
      cases value? with
      | none =>
          have hnull : Meets p limits count (Pushed c site (a + 1) stack) s (.done .null, st) :=
            h.meets_push hfree hcode.head fun _ _ => rfl
          obtain ⟨k, t, hsteps, ht⟩ := hnull
          exact ⟨k, t, hsteps, _, hcode.tail.head, ht⟩
      | some value =>
          refine (Expr.meets hfree hanswers value hscoped hwithin hcode.left rfl h hbase).bind
            fun v st' s' h' => ?_
          exact .done ⟨_, hcode.last (by rw [value.length_code]), h'⟩

/-- A condition is evaluated, and one of two ways is taken. -/
theorem Expr.meets_choose (condition : Expr) {scope : Scope} {a target : Nat} {st : Store}
    {stack : List Value} {s : State} {good : Flow → Store → State → Prop} {yes no : Eval Flow}
    {rest : List Instruction}
    (hscoped : condition.Scoped scope) (hwithin : scope.Within (c.arity? p))
    (hcode : Placed site.code a (condition.code a ++ jumpTo .branch target :: rest))
    (h : Shows c site st a stack s) (hbase : site.base ≤ stack.length)
    (hyes : ∀ st t, Shows c site st (a + condition.size + 1) stack t →
      Meets p limits count good t (yes st))
    (hno : ∀ st t, Shows c site st target stack t → Meets p limits count good t (no st)) :
    Meets p limits count good s
      (Eval.choose (condition.eval site.function.declares invoke) yes no st) := by
  have hbranch := hcode.right (b := a + condition.size) (by rw [condition.length_code])
  refine (Expr.meets hfree hanswers condition hscoped hwithin hcode.left rfl h hbase).bind
    fun v st' s' h' => ?_
  have hmeets : Meets p limits (count + 1) good s' ((if v.truthy then yes else no) st') :=
    h'.meets_branch hfree hbase hbranch.head (hyes st') (hno st')
  exact hmeets.of_le (Nat.le_succ _)

/-- The rounds of a loop: each one takes a step at least, the branch behind its
condition. -/
theorem Expr.meets_repeat (condition : Expr) {scope : Scope} {a target : Nat} {stack : List Value}
    {body : Eval Flow} {rest : List Instruction} (hscoped : condition.Scoped scope)
    (hwithin : scope.Within (c.arity? p))
    (hcode : Placed site.code a (condition.code a ++ jumpTo .branch target :: rest))
    (hbase : site.base ≤ stack.length)
    (hbody : ∀ st t, Shows c site st (a + condition.size + 1) stack t →
      Meets p limits count (Flowed c site a stack) t (body st))
    (rounds : Nat) (hrounds : rounds ≤ count) {st : Store} {s : State}
    (h : Shows c site st a stack s) :
    Meets p limits rounds (Flowed c site target stack) s
      (Eval.repeat (condition.eval site.function.declares invoke) body rounds st) := by
  have hbranch := hcode.right (b := a + condition.size) (by rw [condition.length_code])
  induction rounds generalizing st s with
  | zero => exact ⟨0, s, Nat.le_refl 0, .refl s⟩
  | succ rounds ih =>
      have hcondition := Expr.meets hfree hanswers condition hscoped hwithin hcode.left rfl h hbase
      refine (hcondition.of_le hrounds).bind fun v st' s' h' => ?_
      refine h'.meets_branch hfree hbase hbranch.head (fun t ht => ?_) fun t ht => .done ht
      exact ((hbody st' t ht).of_le (Nat.le_of_succ_le hrounds)).andNext fun st'' s'' h'' =>
        ih (Nat.le_of_succ_le hrounds) h''

end

section

variable {c : Compiler} {p : Program} {limits : Limits} {count : Nat} {site : Site}
  {invoke : String → List Value → Eval Value}

mutual

/-- The code of a statement has its effect. -/
theorem Stmt.meets (hfree : limits.Free) (hanswers : Answers c p limits count invoke) :
    ∀ (x : Stmt) {scope : Scope} {a b : Nat} {st : Store} {stack : List Value} {s : State},
      x.Scoped scope → (x.after scope).Within (c.arity? p) → Placed site.code a (x.code a) →
      b = a + x.size → Shows c site st a stack s → site.base ≤ stack.length →
      Meets p limits count (Flowed c site b stack) s
        (x.eval site.function.declares invoke count st)
  | .simple x, scope, a, b, st, stack, s, hscoped, hwithin, hcode, hb, h, hbase => by
      have hbefore := (Stmt.simple x).within_of_after scope hscoped hwithin
      exact Simple.meets hfree hanswers x hscoped hbefore hcode hb h hbase
  | .when condition x, scope, a, b, st, stack, s, hscoped, hwithin, hcode, hb, h, hbase => by
      have hbefore := (Stmt.when condition x).within_of_after scope hscoped hwithin
      have hinner := (hcode.right (b := a + condition.size) (by rw [condition.length_code])).tail
      have hend : b = a + condition.size + 1 + x.size := by rw [hb, Stmt.size]; omega
      subst hend
      refine Expr.meets_choose hfree hanswers condition hscoped.1 hbefore hcode h hbase
        (fun st' t ht => ?_) fun st' t ht => .done ht
      exact Simple.meets hfree hanswers x hscoped.2 hbefore hinner rfl ht hbase
  | .choose condition body arms, scope, a, b, st, stack, s, hscoped, hwithin, hcode, hb, h,
      hbase => by
      have hbefore := (Stmt.choose condition body arms).within_of_after scope hscoped hwithin
      have hmiddle := arms.within_of_after _ hscoped.2.2 hwithin
      have hend : b = a + condition.size + 1 + body.size + 1 + arms.size := by
        rw [hb, Stmt.size]; omega
      have hinner := (hcode.left.right (b := a + condition.size)
        (by rw [condition.length_code])).tail
      have hexit := hcode.right (b := a + condition.size + 1 + body.size) (by simp; omega)
      subst hend
      refine Expr.meets_choose hfree hanswers condition hscoped.1 hbefore hcode.left h hbase
        (fun st' t ht => ?_) fun st' t ht => ?_
      · exact (Block.meets hfree hanswers body hscoped.2.1 hmiddle hinner rfl ht hbase).thenJump
          hfree hexit.head
      · exact Arms.meets hfree hanswers arms hscoped.2.2 hwithin hexit.tail rfl ht hbase
  | .loop condition body, scope, a, b, st, stack, s, hscoped, hwithin, hcode, hb, h, hbase => by
      have hbefore := (Stmt.loop condition body).within_of_after scope hscoped hwithin
      have hend : b = a + condition.size + 1 + body.size + 1 := by rw [hb, Stmt.size]; omega
      have hinner := (hcode.left.right (b := a + condition.size)
        (by rw [condition.length_code])).tail
      have hback := hcode.right (b := a + condition.size + 1 + body.size) (by simp; omega)
      subst hend
      refine Expr.meets_repeat hfree hanswers condition hscoped.1 hbefore hcode.left hbase
        (fun st' t ht => ?_) count (Nat.le_refl _) h
      exact (Block.meets hfree hanswers body hscoped.2 hwithin hinner rfl ht hbase).thenJump hfree
        hback.head
  | .function _ _ _, scope, a, b, st, stack, s, _, _, _, hb, h, _ => by
      subst hb
      exact .done h

/-- The code of statements in a row has their effect. -/
theorem Block.meets (hfree : limits.Free) (hanswers : Answers c p limits count invoke) :
    ∀ (x : Block) {scope : Scope} {a b : Nat} {st : Store} {stack : List Value} {s : State},
      x.Scoped scope → (x.after scope).Within (c.arity? p) → Placed site.code a (x.code a) →
      b = a + x.size → Shows c site st a stack s → site.base ≤ stack.length →
      Meets p limits count (Flowed c site b stack) s
        (x.eval site.function.declares invoke count st)
  | .nil, scope, a, b, st, stack, s, _, _, _, hb, h, _ => by
      subst hb
      exact .done h
  | .cons first rest, scope, a, b, st, stack, s, hscoped, hwithin, hcode, hb, h, hbase => by
      have hfirst := rest.within_of_after _ hscoped.2 hwithin
      have hend : b = a + first.size + rest.size := by rw [hb, Block.size]; omega
      refine (Stmt.meets hfree hanswers first hscoped.1 hfirst hcode.left rfl h hbase).andNext
        fun st' s' h' => ?_
      exact Block.meets hfree hanswers rest hscoped.2 hwithin
        (hcode.right (by rw [first.length_code])) hend h' hbase

/-- The code of the further arms of a conditional has their effect; an arm that was taken
goes to the end of the conditional. -/
theorem Arms.meets (hfree : limits.Free) (hanswers : Answers c p limits count invoke) :
    ∀ (x : Arms) {scope : Scope} {a b : Nat} {st : Store} {stack : List Value} {s : State},
      x.Scoped scope → (x.after scope).Within (c.arity? p) → Placed site.code a (x.code a b) →
      b = a + x.size → Shows c site st a stack s → site.base ≤ stack.length →
      Meets p limits count (Flowed c site b stack) s
        (x.eval site.function.declares invoke count st)
  | .done, scope, a, b, st, stack, s, _, _, _, hb, h, _ => by
      subst hb
      exact .done h
  | .otherwise body, scope, a, b, st, stack, s, hscoped, hwithin, hcode, hb, h, hbase =>
    Block.meets hfree hanswers body hscoped hwithin hcode hb h hbase
  | .elif condition body arms, scope, a, b, st, stack, s, hscoped, hwithin, hcode, hb, h,
      hbase => by
      have hbefore := (Arms.elif condition body arms).within_of_after scope hscoped hwithin
      have hmiddle := arms.within_of_after _ hscoped.2.2 hwithin
      have hinner := (hcode.left.right (b := a + condition.size)
        (by rw [condition.length_code])).tail
      have hexit := hcode.right (b := a + condition.size + 1 + body.size) (by simp; omega)
      refine Expr.meets_choose hfree hanswers condition hscoped.1 hbefore hcode.left h hbase
        (fun st' t ht => ?_) fun st' t ht => ?_
      · exact (Block.meets hfree hanswers body hscoped.2.1 hmiddle hinner rfl ht hbase).thenJump
          hfree hexit.head
      · exact Arms.meets hfree hanswers arms hscoped.2.2 hwithin hexit.tail
          (by rw [hb, Arms.size]; omega) ht hbase

end

end

end LineScript.Machine
