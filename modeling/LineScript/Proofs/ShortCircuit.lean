/-
# What the code of an expression does

A machine comes to the first instruction of an expression, with any stack, in any call and in any
program that has what the expression calls. From there on it evaluates the expression from left to
right: it stays in the code of the expression and in the calls made there, and it comes to the
address behind with the value on its stack, fails as the evaluation fails, or is lost in a call that
never returns. Where the left operand of `and` or `or` settles the value, the machine does not
enter the code of the right one.

A limit or a cancellation may stop the machine at any point of this way, and this is all that they
can do. The same holds of every expression inside the expression, so nothing is skipped that should
be evaluated and nothing is evaluated that should be skipped, however operators are nested.
-/

import LineScript.Proofs.CalleeRuns
import LineScript.Proofs.ExpressionTrees
import LineScript.Proofs.Interruptions
import LineScript.Proofs.OperatorStack

namespace LineScript.Machine

open LineScript.Code LineScript.Tree

/-! ## Calls -/

/-- The run of a function by itself, for a number of steps. -/
def soloRun (p : Program) (f : Function) (values : List Value) (st : Store) (patience : Nat) :
    Outcome × State :=
  proceed p unlimited false patience (solo f values st)

open Classical in
/-- What a call of a function comes to: what the function by itself comes to, if it comes to an
end. -/
noncomputable def callee (p : Program) (f : Function) (values : List Value) : Eval Value := fun st =>
  if h : ∃ patience, (soloRun p f values st patience).1 ≠ .unfinished then
    handed st.locals? (soloRun p f values st h.choose)
  else (.spent, st)

/-- What a call of a name comes to: a function of the program goes first, then a host function. -/
noncomputable def invoked (p : Program) (name : String) (values : List Value) : Eval Value :=
  match (if name = topLevel then none else p.functions.get? name) with
  | some f => callee p f values
  | none => host name values

section

variable {p : Program} {f : Function} {values : List Value} {st : Store}

theorem callee_of_ends {patience : Nat} (h : (soloRun p f values st patience).1 ≠ .unfinished) :
    callee p f values st = handed st.locals? (soloRun p f values st patience) := by
  have hends : ∃ patience, (soloRun p f values st patience).1 ≠ .unfinished := ⟨patience, h⟩
  have hunique : soloRun p f values st hends.choose = soloRun p f values st patience :=
    proceed_unique hends.choose_spec h
  unfold callee
  rw [dif_pos hends, hunique]

theorem callee_of_unfinished (h : ∀ patience, (soloRun p f values st patience).1 = .unfinished) :
    callee p f values st = (.spent, st) := by
  unfold callee
  rw [dif_neg fun ⟨patience, hends⟩ => hends (h patience)]

end

/-! ## Where a run stands -/

/-- The running call. -/
def State.site (s : State) : Site := ⟨s.frame.function, s.frame.base, s.callers⟩

/-- A call waits for another one that it made between two addresses. -/
def Site.Waits (site : Site) (start ending : Nat) (s : State) : Prop :=
  ∃ caller : Frame, caller :: site.callers <:+ s.callers ∧ caller.function = site.function ∧
    caller.base = site.base ∧ (start : Int) < caller.ip ∧ caller.ip ≤ ending

/-- A call stands between two addresses. -/
structure Site.Stands (site : Site) (start ending : Nat) (s : State) : Prop where
  site_eq : s.site = site
  start_le : (start : Int) ≤ s.frame.ip
  lt_ending : s.frame.ip < ending

/-- A call stands between two addresses, or waits for one that it made there. -/
def Site.Inside (site : Site) (start ending : Nat) (s : State) : Prop :=
  site.Stands start ending s ∨ site.Waits start ending s

section

variable {c : Compiler} {p : Program} {site : Site} {start ending ip : Nat} {st : Store}
  {stack : List Value} {s t : State}

theorem Shows.stands (h : Shows c site st ip stack s) (hstart : start ≤ ip) (hending : ip < ending) :
    site.Stands start ending s := by
  refine ⟨?_, ?_, ?_⟩
  · unfold State.site
    rw [h.frame_eq, h.callers_eq]
  · rw [h.frame_eq]
    exact Int.ofNat_le.mpr hstart
  · rw [h.frame_eq]
    exact Int.ofNat_lt.mpr hending

/-- A call that has just begun comes to what the function by itself comes to. -/
theorem Shows.passes_callee {f : Function} {values : List Value}
    (h : Shows c (site.calling f st ip stack.length)
      { st with locals? := some (State.arguments f.params values) } 0 stack t)
    (hstart : start < ip) (hending : ip ≤ ending) :
    Passes (going p unlimited) (site.Waits start ending)
      (Endless (going p unlimited) (site.Waits start ending)) (Pushed c site ip stack) t
      (callee p f values st) := by
  have habove := h.above_solo
  have hwaits : ∀ u : State, (site.calling f st ip stack.length).callers <:+ u.callers →
      site.Waits start ending u := fun u hsuffix =>
    ⟨_, hsuffix, rfl, rfl, Int.ofNat_lt.mpr hstart, Int.ofNat_le.mpr hending⟩
  by_cases hends : ∀ patience, (soloRun p f values st patience).1 = .unfinished
  · rw [callee_of_unfinished hends]
    exact ⟨t, .refl t, (habove.endless free_unlimited (List.cons_ne_nil _ _) hends).mono hwaits⟩
  · obtain ⟨patience, hends⟩ := Classical.not_forall.mp hends
    rw [callee_of_ends hends]
    refine (habove.passes free_unlimited (List.cons_ne_nil _ _) st.locals? hends).mono hwaits
      (fun _ h => h) fun v u hback => ?_
    obtain ⟨hkeeping, hframes, hstack⟩ := hback
    obtain ⟨hframe, hcallers⟩ := List.cons.inj hframes
    have hserved : Served c (solo f values st).natives := h.served
    exact ⟨hkeeping, hstack, hframe, hcallers, hserved.proceed p unlimited patience⟩

/-- Any code between two addresses can be carried out there, its calls as their functions by
themselves. -/
theorem stretch (c : Compiler) (p : Program) (site : Site) (start ending : Nat) :
    Stretch c p unlimited site start ending (site.Inside start ending)
      (Endless (going p unlimited) (site.Waits start ending)) (invoked p) where
  free := free_unlimited
  covers hstart hending h := .inl (h.stands hstart hending)
  calls := by
    intro st ip stack values name s hstart hending harity hi h hbase
    obtain ⟨t, hstep, ht⟩ := h.step_eq (p := p) free_unlimited.steps hi
    refine .of_step (.inl (h.stands hstart hending)) hstep ?_
    change Passes.From _ _ _ _ (t.call p unlimited name) (invoked p name values st)
    unfold Compiler.arity? at harity
    unfold State.call invoked
    cases hlookup : (if name = topLevel then none else p.functions.get? name) with
    | none =>
        rw [hlookup] at harity
        obtain ⟨params, hparams, hlength⟩ := Option.map_eq_some_iff.mp harity
        obtain ⟨bound, hbound, hcount⟩ := ht.served name params hparams
        dsimp only
        rw [ht.natives_eq, hbound]
        exact ht.from_ask hbase hbound (by rw [hcount, hlength])
    | some f =>
        rw [hlookup] at harity
        obtain ⟨t', henter, ht'⟩ := ht.enter (f := f) free_unlimited hbase (Option.some.inj harity)
        dsimp only
        rw [henter]
        exact (ht'.passes_callee (Nat.lt_succ_of_le hstart) hending).mono (fun _ => .inr)
          (fun _ h => h) fun _ _ h => h

end

end LineScript.Machine

namespace LineScript.Tree

open LineScript.Code LineScript.Machine

/-! ## Expressions inside expressions -/

mutual

/-- An expression at an address and the expressions inside it, with the addresses of their code. -/
def Expr.parts : Expr → Nat → List (Nat × Expr)
  | .null, a => [(a, .null)]
  | .literal value, a => [(a, .literal value)]
  | .name text, a => [(a, .name text)]
  | .call function arguments, a => (a, .call function arguments) :: arguments.parts a
  | .list items, a => (a, .list items) :: items.elements (a + 1)
  | .object members, a => (a, .object members) :: members.parts (a + 1)
  | .index container position, a =>
    (a, .index container position) :: (container.parts a ++ position.parts (a + container.size))
  | .member owner name, a => (a, .member owner name) :: owner.parts a
  | .unary o operand, a => (a, .unary o operand) :: operand.parts a
  | .binary o left right, a =>
    (a, .binary o left right) :: (left.parts a ++ right.parts (a + left.size + skipSize o))

/-- The expressions inside arguments. -/
def Exprs.parts : Exprs → Nat → List (Nat × Expr)
  | .nil, _ => []
  | .cons first rest, a => first.parts a ++ rest.parts (a + first.size)

/-- The expressions inside list elements. -/
def Exprs.elements : Exprs → Nat → List (Nat × Expr)
  | .nil, _ => []
  | .cons first rest, a => first.parts a ++ rest.elements (a + first.size + 1)

/-- The expressions inside the members of an object. -/
def Members.parts : Members → Nat → List (Nat × Expr)
  | .nil, _ => []
  | .cons _ value rest, a => value.parts a ++ rest.parts (a + value.size + 1)

end

/-- An expression uses the names of a scope, and its code stands at an address. -/
structure Expr.Stands (e : Expr) (scope : Scope) (code : List Instruction) (a : Nat) : Prop where
  inScope : e.Scoped scope
  placed : Placed code a (e.code a)

section

variable {scope : Scope} {code : List Instruction} {x : Nat} {e' : Expr}

mutual

theorem Expr.stands_of_mem : ∀ (e : Expr) {a : Nat}, e.Scoped scope → Placed code a (e.code a) →
    (x, e') ∈ e.parts a → e'.Stands scope code x
  | .null, a, hscoped, hcode, h | .literal _, a, hscoped, hcode, h
  | .name _, a, hscoped, hcode, h => by
      cases List.mem_singleton.mp h
      exact ⟨hscoped, hcode⟩
  | .call function arguments, a, hscoped, hcode, h => by
      obtain h | h := List.mem_cons.mp h
      · cases h
        exact ⟨hscoped, hcode⟩
      · exact arguments.stands_of_mem hscoped.2 hcode.left h
  | .list items, a, hscoped, hcode, h => by
      obtain h | h := List.mem_cons.mp h
      · cases h
        exact ⟨hscoped, hcode⟩
      · exact items.stands_of_mem_elements hscoped hcode.tail h
  | .object members, a, hscoped, hcode, h => by
      obtain h | h := List.mem_cons.mp h
      · cases h
        exact ⟨hscoped, hcode⟩
      · exact members.stands_of_mem hscoped hcode.tail h
  | .index container position, a, hscoped, hcode, h => by
      obtain h | h := List.mem_cons.mp h
      · cases h
        exact ⟨hscoped, hcode⟩
      · obtain h | h := List.mem_append.mp h
        · exact container.stands_of_mem hscoped.1 hcode.left.left h
        · exact position.stands_of_mem hscoped.2
            (hcode.left.right (by rw [container.length_code])) h
  | .member owner _, a, hscoped, hcode, h => by
      obtain h | h := List.mem_cons.mp h
      · cases h
        exact ⟨hscoped, hcode⟩
      · exact owner.stands_of_mem hscoped hcode.left h
  | .unary _ operand, a, hscoped, hcode, h => by
      obtain h | h := List.mem_cons.mp h
      · cases h
        exact ⟨hscoped, hcode⟩
      · exact operand.stands_of_mem hscoped hcode.left h
  | .binary o left right, a, hscoped, hcode, h => by
      obtain h | h := List.mem_cons.mp h
      · cases h
        exact ⟨hscoped, hcode⟩
      · obtain h | h := List.mem_append.mp h
        · exact left.stands_of_mem hscoped.1 hcode.left.left.left h
        · refine right.stands_of_mem hscoped.2 (hcode.left.right ?_) h
          rw [List.length_append, left.length_code, length_skipCode]
          exact Nat.add_assoc a left.size (skipSize o)

theorem Exprs.stands_of_mem : ∀ (es : Exprs) {a : Nat}, es.Scoped scope →
    Placed code a (es.code a) → (x, e') ∈ es.parts a → e'.Stands scope code x
  | .nil, a, _, _, h => absurd h List.not_mem_nil
  | .cons first rest, a, hscoped, hcode, h => by
      obtain h | h := List.mem_append.mp h
      · exact first.stands_of_mem hscoped.1 hcode.left h
      · exact rest.stands_of_mem hscoped.2 (hcode.right (by rw [first.length_code])) h

theorem Exprs.stands_of_mem_elements : ∀ (es : Exprs) {a : Nat}, es.Scoped scope →
    Placed code a (es.appendCode a) → (x, e') ∈ es.elements a → e'.Stands scope code x
  | .nil, a, _, _, h => absurd h List.not_mem_nil
  | .cons first rest, a, hscoped, hcode, h => by
      have hrest := hcode.right (b := a + first.size) (by rw [first.length_code])
      obtain h | h := List.mem_append.mp h
      · exact first.stands_of_mem hscoped.1 hcode.left h
      · exact rest.stands_of_mem_elements hscoped.2 hrest.tail h

theorem Members.stands_of_mem : ∀ (ms : Members) {a : Nat}, ms.Scoped scope →
    Placed code a (ms.code a) → (x, e') ∈ ms.parts a → e'.Stands scope code x
  | .nil, a, _, _, h => absurd h List.not_mem_nil
  | .cons _ value rest, a, hscoped, hcode, h => by
      have hrest := hcode.right (b := a + value.size) (by rw [value.length_code])
      obtain h | h := List.mem_append.mp h
      · exact value.stands_of_mem hscoped.1 hcode.left h
      · exact rest.stands_of_mem hscoped.2 hrest.tail h

end

end

end LineScript.Tree

namespace LineScript.Machine

open LineScript.Code LineScript.Tree

section

variable {own : String → Bool} {invoke : String → List Value → Eval Value} {o : BinaryOp}
  {left right : Expr} {v w : Value} {st st' st'' : Store}

/-- A left operand that settles the value of an operator is this value. -/
theorem Expr.eval_settled (hleft : left.eval own invoke st = (.done v, st'))
    (hsettles : o.settles v = true) :
    (Expr.binary o left right).eval own invoke st = (.done v, st') := by
  rw [Expr.eval, Eval.bind_done hleft, if_pos hsettles]
  rfl

/-- Where the left operand leaves the value of `and` or `or` open, the truth of the right one is the
truth of both together. -/
theorem Expr.eval_open (ho : o.skip? ≠ none) (hleft : left.eval own invoke st = (.done v, st'))
    (hopen : o.settles v = false) (hright : right.eval own invoke st' = (.done w, st'')) :
    (Expr.binary o left right).eval own invoke st = (.done (.boolean w.truthy), st'') := by
  have happly : ∀ h, o.apply h v w = .ok (.boolean w.truthy) := by
    intro h
    cases o with
    | or =>
        change v.truthy = false at hopen
        change Except.ok (Value.boolean (v.truthy || w.truthy)) = _
        rw [hopen, Bool.false_or]
    | and =>
        change (!v.truthy) = false at hopen
        change Except.ok (Value.boolean (v.truthy && w.truthy)) = _
        rw [Bool.not_eq_eq_eq_not.mp hopen, Bool.not_false, Bool.true_and]
    | _ => exact absurd rfl ho
  rw [Expr.eval, Eval.bind_done hleft, if_neg (Bool.eq_false_iff.mp hopen), Eval.bind_done hright]
  unfold Eval.operate
  dsimp only
  rw [happly]

end

/-! ## Expressions in any state -/

/-- What an expression comes to in a call. -/
noncomputable def Site.evaluate (site : Site) (p : Program) (e : Expr) : Eval Value :=
  e.eval site.function.declares (invoked p)

/-- A run carries out an evaluation in the code between two addresses. From its state it goes on in
this code, and in the calls made there, until it stands at the target with the value on the stack,
fails or breaks down as the evaluation does, is lost in a call, or is stopped. -/
def Carries (c : Compiler) (p : Program) (limits : Limits) (cancelled : Nat → Bool)
    (start ending target : Nat) (s : State) (r : Ending Value × Store) : Prop :=
  Stopped (limited p limits cancelled) (s.site.Inside start ending) (Halts limits cancelled) s ∨
    Passes (limited p limits cancelled) (s.site.Inside start ending)
      (Endless (limited p limits cancelled) (s.site.Waits start ending))
      (Pushed c s.site target s.stack.toList) s r

section

variable {c : Compiler} {p : Program} {scope : Scope} {s : State} {x : Nat}

theorem shows_site (hserved : Served c s.natives) (hip : s.frame.ip = x) :
    Shows c s.site s.held x s.stack.toList s :=
  ⟨⟨rfl, rfl, rfl⟩, rfl, congrArg (Frame.mk s.frame.function · s.frame.base s.frame.locals?) hip, rfl,
    hserved⟩

/-- Without limits and cancellations nothing is stopped. -/
theorem Carries.passes {limits : Limits} {cancelled : Nat → Bool} {start ending target : Nat}
    {r : Ending Value × Store} (h : Carries c p limits cancelled start ending target s r)
    (hfree : limits.Free) (hcancelled : ∀ n, cancelled n = false) :
    Passes (limited p limits cancelled) (s.site.Inside start ending)
      (Endless (limited p limits cancelled) (s.site.Waits start ending))
      (Pushed c s.site target s.stack.toList) s r := by
  refine h.resolve_left ?_
  rintro ⟨t, e, t', -, -, -, hhalts⟩
  have hdepth := hfree.depth
  generalize e.cause = cause at hhalts
  cases hhalts with
  | steps hspent => exact not_spent_of_free hfree.steps hspent
  | depth hpos hle => omega
  | cancelled hn =>
      rw [hcancelled] at hn
      cases hn

variable (limits : Limits) (cancelled : Nat → Bool)

theorem Passes.carries {start ending target : Nat} {r : Ending Value × Store}
    (h : Passes (going p unlimited) (s.site.Inside start ending)
      (Endless (going p unlimited) (s.site.Waits start ending))
      (Pushed c s.site target s.stack.toList) s r) :
    Carries c p limits cancelled start ending target s r :=
  h.stopped_or (interrupts_limited p limits cancelled) fun _ => .inr

variable (hwithin : scope.Within (c.arity? p)) (hserved : Served c s.natives)
  (hip : s.frame.ip = x) (hbase : s.frame.base ≤ s.stack.size)
include hwithin hserved hip hbase

/-- The code of an expression carries out its evaluation. -/
theorem Expr.carries (e : Expr) (h : e.Stands scope s.site.code x) :
    Carries c p limits cancelled x (x + e.size) (x + e.size) s (s.site.evaluate p e s.held) :=
  (Expr.passes (stretch c p s.site x (x + e.size)) e h.inScope hwithin h.placed (Nat.le_refl x) rfl
    (Nat.le_refl _) (shows_site hserved hip) hbase).carries limits cancelled

/-- Where the left operand settles the value, nothing is carried out but its code and the jump
behind. -/
theorem Expr.carries_settled {o : BinaryOp} {left right : Expr} {v : Value} {st : Store}
    (h : (Expr.binary o left right).Stands scope s.site.code x)
    (hleft : s.site.evaluate p left s.held = (.done v, st)) (hsettles : o.settles v = true) :
    Carries c p limits cancelled x (x + left.size + 1) (x + (Expr.binary o left right).size) s
      (.done v, st) := by
  cases ho : o.skip? with
  | none =>
      rw [settles_of_skip?_eq_none ho] at hsettles
      cases hsettles
  | some op =>
      have hplaced := h.placed
      have hskip := hplaced.left.left.right (b := x + left.size) (by simp)
      have hsize : x + left.size + skipSize o + right.size + 1 =
          x + (Expr.binary o left right).size := by
        rw [Expr.size]
        omega
      unfold skipCode at hskip
      rw [ho] at hskip
      have hstretch := stretch c p s.site x (x + left.size + 1)
      have hpasses := Expr.passes hstretch left h.inScope.1 hwithin hplaced.left.left.left
        (Nat.le_refl x) rfl (Nat.le_succ _) (shows_site hserved hip) hbase
      unfold Site.evaluate at hleft
      rw [hleft] at hpasses
      obtain ⟨t, hpath, ht⟩ := hpasses
      refine Passes.carries limits cancelled (.prepend hpath ?_)
      refine hstretch.skip (Nat.le_add_right x _) (Nat.lt_succ_self _) ho ht hbase hskip.head
        (fun _ u hu => ?_) fun hopen => ?_
      · rw [hsize] at hu
        exact .done hu
      · rw [hsettles] at hopen
        cases hopen

end

end LineScript.Machine

namespace LineScript.Compile

open LineScript.Code LineScript.Tree LineScript.Machine LineScript.Compile.Precedence

/-- The code of an expression does what the expression means, and `and` and `or` leave their right
operands out when they do not matter.

An expression that is accepted is a tree whose code was appended. Take any machine that stands at the
first instruction of the expression, or of an expression inside it, and in which the names that the
compiler could call take as many arguments as the compiler saw. Unless a limit or a cancellation
stops it, it evaluates the expression from left to right within the code of the expression: it comes
to the address behind with the value on the stack that it had, or fails as the evaluation does, or
is lost in a call. Where the left operand of `and` or `or` settles the value, it is the value, and
the machine comes to the address behind without an instruction of the right operand; otherwise the
value is the truth of both. -/
theorem short_circuit {d d' : Draft} (h : Compile.expression d = .ok d') :
    (∃ e, Reads d e d') ∧
    ∀ e, Reads d e d' → ∀ (c : Compiler) (p : Program), d.scope.Within (c.arity? p) →
      ∀ (limits : Limits) (cancelled : Nat → Bool) (s : State), Served c s.natives →
      Placed s.site.code d.address (e.code d.address) → s.frame.base ≤ s.stack.size →
      ∀ x part, (x, part) ∈ e.parts d.address → s.frame.ip = x →
        Carries c p limits cancelled x (x + part.size) (x + part.size) s
          (s.site.evaluate p part s.held) ∧
        ∀ o left right v st, part = .binary o left right → o.skip? ≠ none →
          s.site.evaluate p left s.held = (.done v, st) →
          (o.settles v = true →
            s.site.evaluate p part s.held = (.done v, st) ∧
            Carries c p limits cancelled x (x + left.size + 1) (x + part.size) s (.done v, st)) ∧
          (o.settles v = false → ∀ w st', s.site.evaluate p right st = (.done w, st') →
            s.site.evaluate p part s.held = (.done (.boolean w.truthy), st')) := by
  rw [expression_eq] at h
  refine ⟨(readable_expression d).of_ok h, ?_⟩
  intro e hreads c p hwithin limits cancelled s hserved hcode hbase x part hpart hip
  have hstands := Expr.stands_of_mem e hreads.inScope hcode hpart
  refine ⟨Expr.carries limits cancelled hwithin hserved hip hbase part hstands, ?_⟩
  rintro o left right v st rfl ho hleft
  refine ⟨fun hsettles => ⟨Expr.eval_settled hleft hsettles, ?_⟩, fun hopen w st' hright => ?_⟩
  · exact Expr.carries_settled limits cancelled hwithin hserved hip hbase hstands hleft hsettles
  · exact Expr.eval_open ho hleft hopen hright

/-- Before the expression `true or log(null)`. -/
def beforeChoice : Draft where
  rest := [{ kind := .boolean, value := { kind := .boolean, boolean := true }, line := 1 },
    { kind := .or, line := 1 }, { kind := .identifier, text := "log", line := 1 },
    { kind := .leftParen, line := 1 }, { kind := .null, line := 1 },
    { kind := .rightParen, line := 1 }]
  lastLine := 1
  body := { name := topLevel }
  functions := ∅
  natives := Dict.insert ∅ "log" ["value"]

/-- Behind this expression. -/
def behindChoice : Draft :=
  { beforeChoice with
    rest := []
    consumed? := some 1
    body := { name := topLevel
              code? := some #[
                { op := .value, literal := { kind := .boolean, boolean := true }, line := 1 },
                { op := .skipOr, target := 5, line := 1 },
                { op := .value, line := 1 },
                { op := .call, name := "log", line := 1 },
                { op := .or, line := 1 }] } }

/-- The tree of the expression. -/
def choiceTree : Expr :=
  .binary .or (.literal { kind := .boolean, boolean := true }) (.call "log" (.cons .null .nil))

/-- A machine that stands at its code. -/
def choiceState : State := Machine.start (Machine.bind {} "log" 1 Native.log) behindChoice.body

/-- Nothing is logged: the machine stays in the first two instructions. -/
theorem short_circuit_log :
    Compile.expression beforeChoice = .ok behindChoice ∧
    ∃ s', Path (limited ⟨∅⟩ unlimited fun _ => false) (choiceState.site.Inside 0 2) choiceState s' ∧
      s'.frame.ip = 5 ∧ s'.stack.toList = [.boolean true] ∧ s'.world = choiceState.world := by
  have hexpression : Compile.expression beforeChoice = .ok behindChoice := by rfl
  have hreads : Reads beforeChoice choiceTree behindChoice :=
    ⟨⟨⟨beforeChoice.rest, rfl, rfl⟩, rfl, rfl⟩, trivial, rfl, trivial, trivial⟩
  have hwithin : beforeChoice.scope.Within
      (Compiler.arity? { natives := Dict.insert ∅ "log" ["value"] } ⟨∅⟩) := by
    intro name count h
    unfold Compiler.arity?
    split
    · rename_i f hf
      split at hf <;> cases hf
    · exact h
  have hcompiler : Registry.compiler ⟨[⟨"log", "log(value)", Native.log⟩]⟩ =
      .ok { natives := Dict.insert ∅ "log" ["value"] } := by rfl
  have hmachine : Registry.machine ⟨[⟨"log", "log(value)", Native.log⟩]⟩ {} =
      .ok (Machine.bind {} "log" 1 Native.log) := by rfl
  have hserved := (Registry.Prepares.installed hcompiler hmachine).traced_served.2
  obtain ⟨-, hruns⟩ := short_circuit hexpression
  obtain ⟨-, hsettled⟩ := hruns choiceTree hreads _ _ hwithin unlimited (fun _ => false) choiceState
    hserved ⟨[], [], rfl, rfl⟩ (Nat.le_refl 0) 0 choiceTree List.mem_cons_self rfl
  obtain ⟨-, hcarries⟩ := (hsettled .or _ _ (.boolean true) _ rfl nofun rfl).1 rfl
  obtain ⟨s', hpath, hs'⟩ := hcarries.passes free_unlimited fun _ => rfl
  refine ⟨hexpression, s', hpath, ?_, hs'.stack_eq, hs'.world_eq⟩
  rw [hs'.frame_eq]
  rfl

end LineScript.Compile
