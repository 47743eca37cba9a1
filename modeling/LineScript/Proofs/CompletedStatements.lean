/-
# Completing statements

A statement that the end of the input interrupts is completed line by line: the expression
it stops in gets its closing brackets, a target of an assignment a value, a list of
parameters its parenthesis, and every block that is open an `end`.

A compilation that is out of tokens may also have succeeded, where the last token ended a
line. Inside a construct there is something missing then as well, which is why both ends
of the input are taken together. The fuel of the longer compilation is only known to be no
less; if it ran out, that would be an internal error, and those are left to the end.
-/

import LineScript.Proofs.CompletedExpressions
import LineScript.Proofs.CompleteScripts

namespace LineScript.Compile

open LineScript.Code
open Inside (Ready Begun Nested)
open Draft (firstKind Beside)
open Precedence (isEnder)

/-! ## Lines -/

/-- The kinds of the tokens of complete lines that a script can be completed with. -/
inductive Lines : List TokenKind → Prop
  | nil : Lines []
  | cons {line rest : List TokenKind} (hne : line ≠ [])
      (hclosers : ∀ kind ∈ line, isCloser kind = true) (hrest : Lines rest) :
      Lines (line ++ .lineBreak :: rest)

theorem Lines.append {kinds kinds' : List TokenKind} (h : Lines kinds) (h' : Lines kinds') :
    Lines (kinds ++ kinds') := by
  induction h with
  | nil => exact h'
  | cons hne hclosers _ ih =>
      rw [List.append_assoc, List.cons_append]
      exact .cons hne hclosers ih

theorem Lines.single (line : List TokenKind) (hne : line ≠ [])
    (hclosers : ∀ kind ∈ line, isCloser kind = true) : Lines (line ++ [.lineBreak]) :=
  .cons hne hclosers .nil

theorem Lines.closer_of_mem {kinds : List TokenKind} (h : Lines kinds) :
    ∀ kind ∈ kinds, kind ≠ .lineBreak → isCloser kind = true := by
  induction h with
  | nil => exact List.forall_mem_nil _
  | cons _ hclosers _ ih =>
      refine List.forall_mem_append.mpr ⟨fun kind hkind _ => hclosers kind hkind, ?_⟩
      exact List.forall_mem_cons.mpr ⟨fun hne => absurd rfl hne, ih⟩

/-- No line is blank. -/
theorem Lines.ne_lineBreak_cons {kinds rest : List TokenKind} (h : Lines kinds) :
    kinds ≠ .lineBreak :: rest := by
  cases h with
  | nil => exact nofun
  | cons hne hclosers _ =>
      obtain ⟨kind, line, rfl⟩ := List.exists_cons_of_ne_nil hne
      intro heq
      exact not_lineBreak_of_isCloser (hclosers kind List.mem_cons_self) (List.cons.inj heq).1

/-- The line that ends a block. -/
def endLine : List TokenKind := [.end_, .lineBreak]

theorem lines_endLine : Lines endLine := .single [.end_] (by simp) (by simp [isCloser])

/-- What may stand behind a complete statement. -/
def anything (_ : TokenKind) : Bool := true

/-- The first of some tokens whose kinds are known. -/
theorem firstKind_of_map {ws : List Token} {kind : TokenKind} {kinds : List TokenKind}
    (h : ws.map (·.kind) = kind :: kinds) (more : List Token) : firstKind (ws ++ more) = kind := by
  obtain ⟨t, ws, rfl, ht, -⟩ := List.map_eq_cons_iff.mp h
  exact ht

/-- With some lines behind it, what was begun is complete, whatever fuel there is beyond the
given one. -/
def Completable {α : Type} (fuel : Nat) (ender : TokenKind → Bool) (left : List Token → α → Prop)
    (f : Nat → Draft → Except CompileError α) (d : Draft) : Prop :=
  ∃ kinds, Lines kinds ∧ ∀ n, fuel ≤ n → CompletedBy ender left (f n) d kinds

section

variable {α β : Type} {P : Inside → Prop} {least fuel : Nat} {ender ender' : TokenKind → Bool}
  {left : List Token → α → Prop} {left' : List Token → β → Prop} {gone : β → Prop}
  {d d₁ : Draft}

/-- What is complete as soon as more input follows. -/
theorem completable_of_succeeds {f : Nat → Draft → Except CompileError α}
    (h : ∀ n more last, ender (firstKind more) = true →
      Succeeds (left more) (f n (d.followed more last))) : Completable fuel ender left f d := by
  refine ⟨[], .nil, fun n _ ws more last hws hmore => ?_⟩
  cases List.map_eq_nil_iff.mp hws
  exact h n more last hmore

namespace Completable

/-- What is to be completed, behind tokens that are read. -/
theorem behind {f g : Nat → Draft → Except CompileError α} (h : Completable fuel ender left g d₁)
    (heq : ∀ n, fuel ≤ n → ∀ more last, f n (d.followed more last) = g n (d₁.followed more last)) :
    Completable fuel ender left f d := by
  obtain ⟨kinds, hlines, hcompleted⟩ := h
  refine ⟨kinds, hlines, fun n hn ws more last hws hmore => ?_⟩
  rw [heq n hn]
  exact hcompleted n hn ws more last hws hmore

theorem succ {f : Nat → Draft → Except CompileError α}
    (h : Completable fuel ender left (fun n => f (n + 1)) d) :
    Completable (fuel + 1) ender left f d := by
  obtain ⟨kinds, hlines, hcompleted⟩ := h
  refine ⟨kinds, hlines, fun n hn => ?_⟩
  obtain ⟨n, rfl⟩ := Nat.exists_eq_add_of_le' (Nat.le_trans (Nat.le_add_left 1 fuel) hn)
  exact hcompleted n (Nat.le_of_succ_le_succ hn)

theorem weaken {f : Nat → Draft → Except CompileError α} (h : Completable fuel ender left f d)
    (hender : ∀ kind, ender' kind = true → ender kind = true) :
    Completable fuel ender' left f d := by
  obtain ⟨kinds, hlines, hcompleted⟩ := h
  exact ⟨kinds, hlines, fun n hn ws more last hws hmore =>
    hcompleted n hn ws more last hws (hender _ hmore)⟩

/-- Lines complete what was begun, and the lines behind them what comes next. -/
theorem bind {f : Nat → Draft → Except CompileError α} {g : Nat → α → Except CompileError β}
    {missing : List TokenKind} (h : Completable fuel ender left f d) (hmissing : Lines missing)
    (hender : ∀ {ws more : List Token}, ws.map (·.kind) = missing →
      ender' (firstKind more) = true → ender (firstKind (ws ++ more)) = true)
    (hg : ∀ {n : Nat} {ws more : List Token} {a : α}, ws.map (·.kind) = missing →
      ender' (firstKind more) = true → left (ws ++ more) a → Succeeds (left' more) (g n a)) :
    Completable fuel ender' left' (fun n d => f n d >>= g n) d := by
  obtain ⟨kinds, hlines, hcompleted⟩ := h
  exact ⟨kinds ++ missing, hlines.append hmissing, fun n hn => (hcompleted n hn).bind hender hg⟩

/-- Behind what was begun, nothing is missing. -/
theorem map {f : Nat → Draft → Except CompileError α} {g : α → Except CompileError β}
    (h : Completable fuel ender left f d)
    (hg : ∀ {more : List Token} {a : α}, left more a → Succeeds (left' more) (g a)) :
    Completable fuel ender left' (fun n d => f n d >>= g) d := by
  refine h.bind .nil (fun hws hmore => ?_) (fun hws _ ha => ?_)
  · cases List.map_eq_nil_iff.mp hws
    exact hmore
  · cases List.map_eq_nil_iff.mp hws
    exact hg ha

end Completable

/-- An expression is completed on the line that it stands on, and what comes behind it on
this line and the next ones. -/
theorem Interrupted.completable {f : Draft → Except CompileError α}
    {g : Nat → α → Except CompileError β} {tail missing : List TokenKind}
    (h : Interrupted P least ender left f d) (hne : 0 < least + tail.length)
    (htail : ∀ kind ∈ tail, isCloser kind = true) (hmissing : Lines missing)
    (hender : ender (tail.headD .lineBreak) = true)
    (hg : ∀ {n : Nat} {ws more : List Token} {a : α},
      ws.map (·.kind) = tail ++ .lineBreak :: missing → ender' (firstKind more) = true →
      left (ws ++ more) a → Succeeds (left' more) (g n a)) :
    Completable fuel ender' left' (fun n d => f d >>= g n) d := by
  obtain ⟨kinds, hle, hclosers, hcompleted⟩ := h.completed
  refine ⟨(kinds ++ tail) ++ .lineBreak :: missing, .cons ?_ ?_ hmissing, fun n _ => ?_⟩
  · intro hempty
    have hlength := congrArg List.length hempty
    rw [List.length_append, List.length_nil] at hlength
    omega
  · exact List.forall_mem_append.mpr ⟨hclosers, htail⟩
  · rw [List.append_assoc]
    refine hcompleted.bind (fun {ws more} hws _ => ?_) hg
    have hfirst : firstKind (ws ++ more) = tail.headD .lineBreak := by
      cases tail with
      | nil => exact firstKind_of_map hws more
      | cons kind tail => exact firstKind_of_map hws more
    rw [hfirst]
    exact hender

/-- A step that keeps up with the longer input ends with it, or is the same there. -/
theorem Ended.bind_keeps {r : Result} {r' : Nat → List Token → Int → Result}
    {f : Draft → Except CompileError β}
    (hkeeps : ∀ n, fuel ≤ n → ∀ more last, Keeps more last r (r' n more last))
    (h : Ended gone (r >>= f)) :
    Ended Gone r ∨ ∃ d₁, r = .ok d₁ ∧ d₁.Live ∧
      (∀ n, fuel ≤ n → ∀ more last, r' n more last = .ok (d₁.followed more last)) ∧
      Ended gone (f d₁) := by
  obtain hcut | ⟨d₁, rfl, hend⟩ := h.bind
  · exact .inl hcut.ended
  · by_cases hgone : Gone d₁
    · exact .inl hgone
    · have hsame : ∀ n, fuel ≤ n → ∀ more last,
          d₁.Live ∧ r' n more last = .ok (d₁.followed more last) := by
        intro n hn more last
        obtain hstops | ⟨d', hd', hlive, rfl⟩ := hkeeps n hn more last
        · exact absurd hstops hgone
        · exact ⟨hlive, hd'⟩
      exact .inr ⟨d₁, rfl, (hsame fuel (Nat.le_refl fuel) [] 0).1,
        fun n hn more last => (hsame n hn more last).2, hend⟩

/-- The same for a step that finds something beside the draft. -/
theorem Ended.bind_pair {γ : Type} {r : Except CompileError (Draft × γ)}
    {r' : Nat → List Token → Int → Except CompileError (Draft × γ)}
    {f : Draft × γ → Except CompileError β}
    (hparallel : ∀ n, fuel ≤ n → ∀ more last,
      Parallel (fun r => Gone r.1) (BesideWith more last) r (r' n more last))
    (h : Ended gone (r >>= f)) :
    Ended (fun r => Gone r.1) r ∨ ∃ d₁ found, r = .ok (d₁, found) ∧ d₁.Live ∧
      (∀ n, fuel ≤ n → ∀ more last, r' n more last = .ok (d₁.followed more last, found)) ∧
      Ended gone (f (d₁, found)) := by
  obtain hcut | ⟨⟨d₁, found⟩, rfl, hend⟩ := h.bind
  · exact .inl hcut.ended
  · by_cases hgone : Gone d₁
    · exact .inl hgone
    · have hsame : ∀ n, fuel ≤ n → ∀ more last,
          d₁.Live ∧ r' n more last = .ok (d₁.followed more last, found) := by
        intro n hn more last
        obtain hstops | ⟨⟨d', found'⟩, hd', ⟨hlive, heq⟩, hfound⟩ := hparallel n hn more last
        · exact absurd hstops hgone
        · dsimp only at hlive heq hfound
          rw [hd', heq, hfound]
          exact ⟨hlive, rfl⟩
      exact .inr ⟨d₁, found, rfl, (hsame fuel (Nat.le_refl fuel) [] 0).1,
        fun n hn more last => (hsame n hn more last).2, hend⟩

/-- Two steps are completed where the first one is interrupted, or where the second one
is. -/
theorem completable_bind {f : Draft → Result} {f' : Nat → Draft → Result}
    {g : Draft → Except CompileError β} {g' : Nat → Draft → Except CompileError β}
    {missing : List TokenKind}
    (hkeeps : ∀ n, fuel ≤ n → ∀ more last, Keeps more last (f d) (f' n (d.followed more last)))
    (hfirst : Ended Gone (f d) → Completable fuel ender Leaves f' d) (hmissing : Lines missing)
    (hender : ∀ {ws more : List Token}, ws.map (·.kind) = missing →
      ender' (firstKind more) = true → ender (firstKind (ws ++ more)) = true)
    (hg : ∀ {n : Nat} {ws more : List Token} {a : Draft}, ws.map (·.kind) = missing →
      ender' (firstKind more) = true → a.rest = ws ++ more → Succeeds (left' more) (g' n a))
    (hlive : ∀ {d₁ : Draft}, f d = .ok d₁ → d₁.Live → Ended gone (g d₁) →
      Completable fuel ender' left' g' d₁)
    (h : Ended gone (f d >>= g)) : Completable fuel ender' left' (fun n d => f' n d >>= g' n) d := by
  obtain hend | ⟨d₁, hd₁, hlive₁, hsame, hend⟩ := h.bind_keeps hkeeps
  · exact (hfirst hend).bind hmissing hender hg
  · exact (hlive hd₁ hlive₁ hend).behind fun n hn more last => by rw [hsame n hn, ok_bind]

/-- A step that is not cut off leaves it to the next one to be completed. -/
theorem completable_alike {f : Draft → Result} {g : Draft → Except CompileError β}
    {g' : Nat → Draft → Except CompileError β}
    (halike : ∀ more last, Alike more last (f d) (f (d.followed more last)))
    (hnot : ¬CutOff (f d))
    (hlive : ∀ {d₁ : Draft}, f d = .ok d₁ → d₁.Live → Ended gone (g d₁) →
      Completable fuel ender' left' g' d₁)
    (h : Ended gone (f d >>= g)) : Completable fuel ender' left' (fun n d => f d >>= g' n) d := by
  obtain hcut | ⟨d₁, hd₁, hend⟩ := h.bind
  · exact absurd hcut hnot
  · obtain ⟨hlive₁, hsame⟩ := Alike.eq_ok halike hd₁
    exact (hlive hd₁ hlive₁ hend).behind fun _ _ more last => by rw [hsame, ok_bind]

/-- An expression and what comes behind it on the following lines. -/
theorem completable_expression {g : Draft → Except CompileError β}
    {g' : Nat → Draft → Except CompileError β} {missing : List TokenKind}
    (h : d.Live) (hfit : d.CallsFit) (hmissing : Lines missing)
    (hg : ∀ {n : Nat} {ws more : List Token} {a : Draft},
      ws.map (·.kind) = .lineBreak :: missing → ender' (firstKind more) = true →
      a.rest = ws ++ more → Succeeds (left' more) (g' n a))
    (hlive : ∀ {d₁ : Draft}, expression d = .ok d₁ → d₁.Live → Ended gone (g d₁) →
      Completable fuel ender' left' g' d₁)
    (hend : Ended gone (expression d >>= g)) :
    Completable fuel ender' left' (fun n d => expression d >>= g' n) d := by
  obtain hcut | ⟨d₁, hd₁, hend⟩ := hend.bind
  · exact (interrupted_expression h hfit hcut).completable (by decide) (List.forall_mem_nil _)
      hmissing rfl hg
  · obtain ⟨hlive₁, hsame⟩ := Alike.eq_ok (fun _ _ => alike_expression h) hd₁
    exact (hlive hd₁ hlive₁ hend).behind fun _ _ more last => by rw [hsame, ok_bind]

end

/-! ## Ends of lines -/

section

variable {d : Draft} {ws more : List Token}

theorem rest_followed (h : Gone d) (more : List Token) (last : Int) :
    (d.followed more last).rest = more := by
  change d.rest ++ more = more
  rw [show d.rest = [] from h, List.nil_append]

theorem succeeds_lineEnd (hws : ws.map (·.kind) = [.lineBreak]) (hrest : d.rest = ws ++ more) :
    Succeeds (Leaves more) d.expectLineEnd := by
  obtain ⟨t, rfl, ht⟩ := List.map_eq_singleton_iff.mp hws
  rw [Draft.expectLineEnd_of_kind (by rw [Draft.peek_of_cons hrest]; exact ht)]
  exact succeeds_ok (Draft.rest_next_of hrest)

theorem succeeds_patchHere (hrest : d.rest = more) (address : Nat) :
    Succeeds (Leaves more) (d.patchHere address) := by
  cases hpatch : d.patchHere address with
  | ok d' => exact (Draft.rest_of_patchHere hpatch).trans hrest
  | error e => exact Draft.kind_of_patchHere hpatch

theorem succeeds_checkResolved (hrest : d.rest = more) : Succeeds (Leaves more) d.checkResolved := by
  unfold Draft.checkResolved
  split
  · exact succeeds_ok hrest
  · rfl

theorem not_cutOff_checkResolved (d : Draft) : ¬CutOff d.checkResolved := by
  unfold Draft.checkResolved
  split
  · exact id
  · exact Bool.false_ne_true

theorem not_ended_patchHere (h : d.Live) (address : Nat) : ¬Ended Gone (d.patchHere address) := by
  intro hend
  cases hpatch : d.patchHere address with
  | ok d₁ =>
      rw [hpatch] at hend
      exact h.rest_ne ((Draft.rest_of_patchHere hpatch).symm.trans hend)
  | error e =>
      have hnot := not_cutOff_patchHere d address
      rw [hpatch] at hend hnot
      exact hnot hend

theorem not_ended_patchAllHere (h : d.Live) (addresses : List Nat) :
    ¬Ended Gone (d.patchAllHere addresses) := by
  induction addresses generalizing d with
  | nil => exact h.rest_ne
  | cons address rest ih =>
      rw [Draft.patchAllHere_cons]
      intro hend
      obtain hcut | ⟨d₁, hpatch, hend⟩ := hend.bind
      · exact not_cutOff_patchHere d address hcut
      · exact ih (Alike.eq_ok (fun _ _ => h.alike_patchHere address) hpatch).1 hend

theorem succeeds_patchAllHere (hrest : d.rest = more) (addresses : List Nat) :
    Succeeds (Leaves more) (d.patchAllHere addresses) := by
  induction addresses generalizing d with
  | nil => exact succeeds_ok hrest
  | cons address rest ih =>
      rw [Draft.patchAllHere_cons]
      exact (succeeds_patchHere hrest address).bind fun d₁ hd₁ => ih hd₁

/-- Where a line ends with the input, nothing is missing. -/
theorem completable_lineEnd {fuel : Nat} (h : d.Live) (hend : Ended Gone d.expectLineEnd) :
    Completable fuel anything Leaves (fun _ => Draft.expectLineEnd) d := by
  refine completable_of_succeeds fun _ more last _ => ?_
  have hnotEnd : (d.followed more last).atEnd = false := by
    unfold Draft.atEnd
    rw [h.peek_followed]
    exact h.atEnd_eq
  unfold Draft.expectLineEnd Draft.expect at hend ⊢
  rw [h.atEnd_eq, if_neg Bool.false_ne_true] at hend
  rw [hnotEnd, if_neg Bool.false_ne_true, h.sees_followed]
  split at hend
  · rename_i hsees
    rw [if_pos hsees, h.next_followed]
    exact succeeds_ok (rest_followed hend more last)
  · exact absurd hend (not_ended_at h.kind_ne _)

end

/-! ## Simple statements -/

/-- A step that adds instructions or names and leaves the tokens alone. -/
structure Emits (emitted : Draft → Draft) : Prop where
  rest_eq : ∀ d : Draft, (emitted d).rest = d.rest
  followed_eq : ∀ {d : Draft}, d.Live → ∀ more last,
    emitted (d.followed more last) = (emitted d).followed more last

theorem emits_emit (op : Opcode) : Emits (·.emit op) :=
  ⟨fun _ => rfl, fun h _ _ => h.emit_followed op⟩

theorem emits_emitName (op : Opcode) (name : String) : Emits (·.emitName op name) :=
  ⟨fun _ => rfl, fun h _ _ => h.emitName_followed op name⟩

theorem emits_declare (name : String) : Emits (·.declare name) := ⟨fun _ => rfl, fun _ _ _ => rfl⟩

theorem emits_id : Emits id := ⟨fun _ => rfl, fun _ _ _ => rfl⟩

variable {emitted emitted' : Draft → Draft} {d : Draft} {ws more : List Token} {fuel : Nat}

theorem Emits.live (h : Emits emitted) (hlive : d.Live) : (emitted d).Live := by
  constructor
  · rw [h.rest_eq]
    exact hlive.rest_ne
  · rw [h.rest_eq]
    exact hlive.real
  · rw [h.rest_eq]
    exact hlive.ending

theorem Emits.comp (h : Emits emitted) (h' : Emits emitted') : Emits (fun d => emitted' (emitted d)) :=
  ⟨fun d => (h'.rest_eq _).trans (h.rest_eq d), fun hlive more last => by
    rw [h.followed_eq hlive, h'.followed_eq (h.live hlive)]⟩

/-- Compiles an expression, and the instructions behind it where the line ends. -/
def expressionLine (emitted : Draft → Draft) (d : Draft) : Result :=
  expression d >>= fun d => (emitted d).expectLineEnd

theorem succeeds_expressionLine (hemits : Emits emitted)
    (hws : ws.map (·.kind) = [.number, .lineBreak]) (hrest : d.rest = ws ++ more) :
    Succeeds (Leaves more) (expressionLine emitted d) := by
  obtain ⟨number, ws, rfl, hnumber, hws⟩ := List.map_eq_cons_iff.mp hws
  have hvalue : Succeeds (Leaves (ws ++ more)) (expression d) := by
    rw [Precedence.expression_eq]
    refine Precedence.succeeds_number hrest hnumber ?_
    rw [firstKind_of_map hws]
    rfl
  exact hvalue.bind fun d₁ hd₁ => succeeds_lineEnd hws ((hemits.rest_eq d₁).trans hd₁)

theorem completable_expressionLine (hemits : Emits emitted) (h : d.Live) (hfit : d.CallsFit)
    (hend : Ended Gone (expressionLine emitted d)) :
    Completable fuel anything Leaves (fun _ => expressionLine emitted) d := by
  refine completable_expression h hfit .nil (fun hws _ ha => ?_) (fun _ hlive₁ hend => ?_) hend
  · exact succeeds_lineEnd hws ((hemits.rest_eq _).trans ha)
  · exact (completable_lineEnd (hemits.live hlive₁) hend).behind fun _ _ more last => by
      rw [hemits.followed_eq hlive₁]

theorem completable_expressionStatement (h : d.Live) (hfit : d.CallsFit)
    (hend : Ended Gone (expressionStatement d)) :
    Completable fuel anything Leaves (fun _ => expressionStatement) d :=
  completable_expressionLine (emits_emit .pop) h hfit hend

theorem completable_assignment (h : d.Live) (hfit : d.CallsFit) (name : String) (visible : Bool)
    (hend : Ended Gone (assignment d name visible)) :
    Completable fuel anything Leaves (fun _ => (assignment · name visible)) d := by
  have hdeclare : Emits (fun d => if visible then d else d.declare name) := by
    cases visible with
    | true => exact emits_id
    | false => exact emits_declare name
  exact completable_expressionLine (hdeclare.comp (emits_emitName .store name)) h hfit hend

/-- Compiles the sign of an assignment and the value behind it. -/
def assigned (emitted : Draft → Draft) (d : Draft) : Result :=
  d.expect .equal >>= expressionLine emitted

theorem completable_assigned (hemits : Emits emitted) (h : d.Live) (hfit : d.CallsFit)
    (hend : Ended Gone (assigned emitted d)) :
    Completable fuel anything Leaves (fun _ => assigned emitted) d := by
  refine completable_alike (fun _ _ => h.alike_expect (by decide)) (Draft.not_cutOff_expect h _)
    (fun hexpect hlive₁ hend => ?_) hend
  have hskips := Draft.skips_expect hexpect (by decide) (by decide)
  exact completable_expressionLine hemits hlive₁ (hskips.callsFit hfit) hend

theorem completable_memberAssignment (h : d.Live) (hfit : d.CallsFit) (name : String)
    (hend : Ended Gone (memberAssignment d name)) :
    Completable fuel anything Leaves (fun _ => (memberAssignment · name)) d := by
  have hload : (d.emitName .load name).Live := h.emitInstruction _
  obtain hcut | ⟨⟨member, d₁⟩, hname, hend⟩ := hend.bind
  · exact absurd hcut (Draft.not_cutOff_expectText hload _)
  obtain ⟨hkind, heq⟩ := Draft.expectText_eq_ok hname
  obtain ⟨rfl, rfl⟩ := Prod.mk.inj heq
  have hlive₁ : (d.emitName .load name).next.Live := hload.next (by rw [hkind]; decide)
  have hset := (emits_emitName .set (d.emitName .load name).peek.text).comp (emits_emit .pop)
  have hequal : (d.emitName .load name).next.peek.kind = .equal := by
    obtain hcut | ⟨d₂, hexpect, -⟩ := hend.bind
    · exact absurd hcut (Draft.not_cutOff_expect hlive₁ _)
    · exact (Draft.expect_eq_ok hexpect).1
  have hload' : d.Skips (d.emitName .load name) := .of_eq rfl rfl
  have hskips := hload'.trans (Draft.skips_next (by rw [hkind]; decide) fun _ => by
    rw [← Draft.peek_next, hequal]
    decide)
  refine (completable_assigned hset hlive₁ (hskips.callsFit hfit) hend).behind fun _ _ more last => ?_
  unfold memberAssignment
  rw [h.emitName_followed, Draft.expectText_of_kind (by rw [hload.peek_followed]; exact hkind),
    ok_bind, hload.peek_followed, hload.next_followed]
  rfl

/-- Compiles what an assignment to an element has behind the position. -/
def elementAssigned (d : Draft) : Result :=
  d.skipLineBreaks.expect .rightBracket >>= assigned (·.emit .put)

/-- The kinds of the tokens that complete an assignment to an element. -/
def elementClosers : List TokenKind := [.rightBracket, .equal, .number]

theorem isCloser_elementClosers : ∀ kind ∈ elementClosers, isCloser kind = true := by
  simp [elementClosers, isCloser]

theorem succeeds_elementAssigned (hws : ws.map (·.kind) = elementClosers ++ [.lineBreak])
    (hrest : d.skipLineBreaks.rest = ws ++ more) : Succeeds (Leaves more) (elementAssigned d) := by
  obtain ⟨bracket, ws, rfl, hbracket, hws⟩ := List.map_eq_cons_iff.mp hws
  obtain ⟨equal, ws, rfl, hequal, hws⟩ := List.map_eq_cons_iff.mp hws
  have hclose := Draft.succeeds_expect hrest
  rw [hbracket] at hclose
  refine hclose.bind fun d₁ hd₁ => ?_
  have hsign := Draft.succeeds_expect hd₁
  rw [hequal] at hsign
  exact hsign.bind fun d₂ hd₂ => succeeds_expressionLine (emits_emit .put) hws hd₂

theorem completable_elementAssigned (h : d.Live) (hfit : d.CallsFit)
    (hend : Ended Gone (elementAssigned d)) :
    Completable fuel anything Leaves (fun _ => elementAssigned) d := by
  obtain hcut | ⟨d₁, hclose, hend⟩ := hend.bind
  · have hempty := Draft.rest_of_cutOff_closing h hcut
    refine ⟨_, .single elementClosers (by simp [elementClosers]) isCloser_elementClosers, ?_⟩
    intro _ _ ws more last hws _
    refine succeeds_elementAssigned hws (Draft.rest_skipLineBreaks_followed hempty _ ?_ last)
    rw [firstKind_of_map hws]
    decide
  · obtain ⟨hlive₁, hsame⟩ := Alike.eq_ok (fun _ _ => h.alike_closing (by decide) (by decide)) hclose
    have hskips := d.skips_skipLineBreaks.trans (Draft.skips_expect hclose (by decide) (by decide))
    refine (completable_assigned (emits_emit .put) hlive₁ (hskips.callsFit hfit) hend).behind ?_
    intro _ _ more last
    rw [elementAssigned, hsame, ok_bind]

theorem completable_elementAssignment (h : d.Live) (hfit : d.CallsFit) (name : String)
    (hend : Ended Gone (elementAssignment d name)) :
    Completable fuel anything Leaves (fun _ => (elementAssignment · name)) d := by
  have hload : (d.emitName .load name).Live := h.emitInstruction _
  have hskips : d.Skips (d.emitName .load name) := .of_eq rfl rfl
  have heq : ∀ more last, elementAssignment (d.followed more last) name =
      expression ((d.emitName .load name).followed more last).skipLineBreaks >>= elementAssigned := by
    intro more last
    rw [← h.emitName_followed]
    rfl
  obtain hcut | ⟨d₁, hposition, hend⟩ := hend.bind
  · have hstopped := interrupted_operand hload (hskips.callsFit hfit) hcut
    have hassigned : Completable fuel anything Leaves
        (fun _ a => expression a.skipLineBreaks >>= elementAssigned) (d.emitName .load name) := by
      refine hstopped.completable (by decide) isCloser_elementClosers .nil rfl fun hws _ hrest => ?_
      refine succeeds_elementAssigned hws ?_
      rw [Draft.skipLineBreaks_of_ne, hrest]
      rw [Draft.kind_peek_of hrest, firstKind_of_map hws]
      decide
    exact hassigned.behind fun _ _ => heq
  · obtain ⟨hlive₁, hsame⟩ := Alike.eq_ok (fun more last =>
      hload.parallel_skipLineBreaks expression expression (fun _ h => stops_expression h)
        alike_expression) hposition
    have hfit₁ := ((hskips.trans (Draft.skips_skipLineBreaks _)).clears.trans
      (Draft.clears_expression hposition)).callsFit hfit
    refine (completable_elementAssigned hlive₁ hfit₁ hend).behind fun _ _ more last => ?_
    rw [heq, hsame, ok_bind]

theorem completable_declaration (h : d.Live) (hfit : d.CallsFit) (hname : d.peek.kind = .identifier)
    (hend : Ended Gone (declaration d)) :
    Completable fuel anything Leaves (fun _ => declaration) d := by
  have hbreak : d.peek.kind ≠ .lineBreak := by rw [hname]; decide
  have hlive : d.next.Live := h.next hbreak
  have hinner : d.next.peek.kind ≠ .lineBreak → d.next.next.Live := hlive.next
  have hskips : ∀ {kind : TokenKind}, d.peekSecond.kind = kind → kind ≠ .leftParen →
      kind ≠ .identifier → kind ≠ .func → d.next.next.CallsFit :=
    fun hsecond hopen hident hfunc => (Draft.skips_name hname hsecond hopen hident hfunc).callsFit hfit
  have heq : ∀ more last, declaration (d.followed more last) =
      if d.peekSecond.kind = .equal then
        assignment (d.next.next.followed more last) d.peek.text (d.sees? d.peek.text)
      else if d.peekSecond.kind = .leftBracket then
        if d.sees? d.peek.text then elementAssignment (d.next.next.followed more last) d.peek.text
        else .error (.at_ d.peek (.undefinedVariable d.peek.text))
      else if d.peekSecond.kind = .dot then
        if d.sees? d.peek.text then memberAssignment (d.next.next.followed more last) d.peek.text
        else .error (.at_ d.peek (.undefinedVariable d.peek.text))
      else expressionStatement (d.followed more last) := by
    intro more last
    unfold declaration
    dsimp only
    rw [h.peek_followed, h.next_followed, hlive.next_followed, h.peekSecond_followed hbreak]
    split
    case h_1 hsecond | h_2 hsecond | h_3 hsecond =>
      rw [hsecond]
      rfl
    case h_4 hequal hbracket hdot =>
      rw [if_neg hequal, if_neg hbracket, if_neg hdot]
  unfold declaration at hend
  dsimp only at hend
  rw [Draft.peek_next] at hinner
  split at hend
  · rename_i hsecond
    rw [hsecond] at hinner
    refine (completable_assignment (hinner (by decide)) (hskips hsecond (by decide) (by decide)
      (by decide)) _ _ hend).behind fun _ _ more last => ?_
    rw [heq, if_pos hsecond]
  · rename_i hsecond
    rw [hsecond] at hinner
    split at hend
    · rename_i hvisible
      refine (completable_elementAssignment (hinner (by decide)) (hskips hsecond (by decide)
        (by decide) (by decide)) _ hend).behind fun _ _ more last => ?_
      rw [heq, hsecond]
      exact if_pos hvisible
    · exact absurd hend (not_ended_at h.kind_ne _)
  · rename_i hsecond
    rw [hsecond] at hinner
    split at hend
    · rename_i hvisible
      refine (completable_memberAssignment (hinner (by decide)) (hskips hsecond (by decide)
        (by decide) (by decide)) _ hend).behind fun _ _ more last => ?_
      rw [heq, hsecond]
      exact if_pos hvisible
    · exact absurd hend (not_ended_at h.kind_ne _)
  · rename_i hequal hbracket hdot
    refine (completable_expressionStatement h hfit hend).behind fun _ _ more last => ?_
    rw [heq, if_neg hequal, if_neg hbracket, if_neg hdot]

theorem completable_returnStatement (h : d.Live) (hfit : d.CallsFit) (hkind : d.peek.kind = .return_)
    (hend : Ended Gone (returnStatement d)) :
    Completable fuel anything Leaves (fun _ => returnStatement) d := by
  have hlive : d.next.Live := h.next (by rw [hkind]; decide)
  have hskips : d.Skips d.next := Draft.skips_next (by rw [hkind]; decide) (by rw [hkind]; nofun)
  have hnotEnd : ∀ more last, (d.next.followed more last).atEnd = false := by
    intro more last
    unfold Draft.atEnd
    rw [hlive.peek_followed]
    exact hlive.atEnd_eq
  have heq : ∀ more last, returnStatement (d.followed more last) =
      if d.next.sees .lineBreak then
        .ok (((d.next.next.followed more last).emitValue .null).emit .ret)
      else expressionLine id (d.next.followed more last) >>= fun a => .ok (a.emit .ret) := by
    intro more last
    unfold returnStatement expressionLine
    dsimp only
    rw [h.next_followed, hnotEnd, if_neg Bool.false_ne_true, hlive.sees_followed,
      hlive.next_followed, bind_assoc]
    rfl
  unfold returnStatement at hend
  dsimp only at hend
  rw [hlive.atEnd_eq, if_neg Bool.false_ne_true] at hend
  split at hend
  · rename_i hsees
    refine completable_of_succeeds fun _ more last _ => ?_
    rw [heq, if_pos hsees]
    exact succeeds_ok (rest_followed (d := d.next.next) hend more last)
  · rename_i hsees
    have hline : Ended Gone (expressionLine id d.next) := by
      have hret : Ended Gone (expressionLine id d.next >>= fun a => .ok (a.emit .ret)) := by
        rw [expressionLine, bind_assoc]
        exact hend
      exact hret.of_bind_ok
    have hvalue : Completable fuel anything Leaves (fun _ => expressionLine id) d.next :=
      completable_expressionLine emits_id hlive (hskips.callsFit hfit) hline
    have hret : Completable fuel anything Leaves
        (fun _ a => expressionLine id a >>= fun a => .ok (a.emit .ret)) d.next := hvalue.map succeeds_ok
    exact hret.behind fun _ _ more last => by rw [heq, if_neg hsees]

theorem completable_inlineStatement (h : d.Live) (hfit : d.CallsFit)
    (hend : Ended Gone (inlineStatement d)) :
    Completable fuel anything Leaves (fun _ => inlineStatement) d := by
  unfold inlineStatement at hend
  split at hend
  · rename_i hkind
    refine (completable_declaration h hfit hkind hend).behind fun _ _ more last => ?_
    rw [inlineStatement, h.peek_followed, hkind]
  · rename_i hkind
    refine (completable_returnStatement h hfit hkind hend).behind fun _ _ more last => ?_
    rw [inlineStatement, h.peek_followed, hkind]
  · rename_i hname hreturn
    refine (completable_expressionStatement h hfit hend).behind fun _ _ more last => ?_
    rw [inlineStatement, h.peek_followed]
    split
    · exact absurd ‹_› hname
    · exact absurd ‹_› hreturn
    · rfl

/-! ## Function headers -/

/-- Behind all parameters stands the closing parenthesis. -/
theorem succeeds_parameters (fuel : Nat) (names : List String) (hrest : d.rest = more)
    (hmore : firstKind more = .rightParen) :
    Succeeds (fun r => r.1.rest = more) (parameters fuel d names) := by
  cases fuel with
  | zero => rfl
  | succ fuel =>
      unfold parameters
      dsimp only
      rw [if_neg (by rw [Draft.kind_peek_of hrest, hmore]; decide)]
      exact hrest

/-- Where the input ends among the parameters, the closing parenthesis can come next. -/
theorem succeeds_parameters_followed (h : d.Live) {fuel fuel' : Nat} (hfuel : fuel ≤ fuel')
    {names : List String} (hend : Ended (fun r => Gone r.1) (parameters fuel d names))
    (hmore : firstKind more = .rightParen) (last : Int) :
    Succeeds (fun r => r.1.rest = more) (parameters fuel' (d.followed more last) names) := by
  induction fuel generalizing fuel' d names with
  | zero => cases hend
  | succ fuel ih =>
      obtain ⟨fuel', rfl⟩ := Nat.exists_eq_add_of_le' (Nat.le_trans (Nat.le_add_left 1 fuel) hfuel)
      unfold parameters at hend ⊢
      dsimp only at hend ⊢
      rw [h.peek_followed, h.next_followed]
      by_cases hname : d.peek.kind = .identifier
      · have hlive : d.next.Live := h.next (by rw [hname]; decide)
        rw [if_pos hname] at hend ⊢
        rw [hlive.sees_followed]
        split at hend
        · exact absurd hend (not_ended_at h.kind_ne _)
        rename_i hnew
        rw [if_neg hnew]
        split at hend
        · rename_i hsees
          have hcomma := Draft.sees_iff.mp hsees
          have hlive₁ : d.next.next.Live := hlive.next (by rw [hcomma]; decide)
          rw [if_pos hsees, hlive.next_followed]
          obtain hempty | ⟨hlive₂, heq⟩ := hlive₁.skipLineBreaks more last
          · have hbreak : firstKind more ≠ .lineBreak := by rw [hmore]; decide
            exact succeeds_parameters fuel' _
              (Draft.rest_skipLineBreaks_followed hempty more hbreak last) hmore
          · rw [heq]
            exact ih hlive₂ (by omega) hend
        · exact absurd hend hlive.rest_ne
      · rw [if_neg hname] at hend
        exact absurd hend h.rest_ne

/-- Compiles what a header has behind its parameters. -/
def headerEnd (name : String) (params : List String) (d : Draft) : Result :=
  d.expect .rightParen >>= fun d => d.expectLineEnd >>= fun d => .ok (d.enter name params)

theorem functionHeader_eq (d : Draft) :
    functionHeader d = d.expect .identifier >>= fun d₁ =>
      if (d₁.arity? d.peek.text).isSome then .error (.at_ d.peek (.duplicateFunction d.peek.text))
      else d₁.expect .leftParen >>= fun d₂ =>
        parameters (d₂.rest.length + 1) d₂ [] >>= fun r => headerEnd d.peek.text r.2 r.1 := rfl

/-- The kinds of the tokens that complete the header of a function. -/
def headerLine : List TokenKind := [.rightParen, .lineBreak]

theorem succeeds_headerEnd (name : String) (params : List String)
    (hws : ws.map (·.kind) = headerLine) (hrest : d.rest = ws ++ more) :
    Succeeds (Leaves more) (headerEnd name params d) := by
  obtain ⟨paren, ws, rfl, hparen, hws⟩ := List.map_eq_cons_iff.mp hws
  have hclose := Draft.succeeds_expect hrest
  rw [hparen] at hclose
  refine hclose.bind fun d₁ hd₁ => (succeeds_lineEnd hws hd₁).bind fun d₂ hd₂ => succeeds_ok ?_
  exact (rest_enter _ _ _).trans hd₂

theorem completable_headerEnd (h : d.Live) (name : String) (params : List String)
    (hend : Ended Gone (headerEnd name params d)) :
    Completable fuel anything Leaves (fun _ => headerEnd name params) d := by
  refine completable_alike (fun _ _ => h.alike_expect (by decide)) (Draft.not_cutOff_expect h _)
    (fun {d₁} _ hlive₁ hend => ?_) hend
  have hline : Ended Gone d₁.expectLineEnd := by
    have hentered := hend.of_bind_ok
    have heq : (fun a : Draft => Gone (a.enter name params)) = Gone :=
      funext fun a => congrArg (· = []) (rest_enter a name params)
    rwa [heq] at hentered
  exact (completable_lineEnd hlive₁ hline).map fun ha => succeeds_ok ((rest_enter _ _ _).trans ha)

theorem completable_functionHeader (h : d.Live) (hend : Ended Gone (functionHeader d)) :
    Completable fuel anything Leaves (fun _ => functionHeader) d := by
  rw [functionHeader_eq] at hend
  obtain hcut | ⟨d₁, hname, hend⟩ := hend.bind
  · exact absurd hcut (Draft.not_cutOff_expect h _)
  obtain ⟨hlive₁, hsame₁⟩ := Alike.eq_ok (fun _ _ => h.alike_expect (by decide)) hname
  split at hend
  · exact absurd hend (not_ended_at h.kind_ne _)
  rename_i hnew
  obtain hcut | ⟨d₂, hopen, hend⟩ := hend.bind
  · exact absurd hcut (Draft.not_cutOff_expect hlive₁ _)
  obtain ⟨hlive₂, hsame₂⟩ := Alike.eq_ok (fun _ _ => hlive₁.alike_expect (by decide)) hopen
  have hfuel : ∀ more last, d₂.rest.length + 1 ≤ (d₂.followed more last).rest.length + 1 := by
    intro more last
    simp [Draft.followed]
  have heq : ∀ more last, functionHeader (d.followed more last) =
      parameters ((d₂.followed more last).rest.length + 1) (d₂.followed more last) [] >>= fun r =>
        headerEnd d.peek.text r.2 r.1 := by
    intro more last
    have harity : ((d₁.followed more last).arity? d.peek.text).isSome ≠ true := hnew
    rw [functionHeader_eq, hsame₁, ok_bind, h.peek_followed, if_neg harity, hsame₂, ok_bind]
  have hgone : Ended (fun r => Gone r.1) (parameters (d₂.rest.length + 1) d₂ []) →
      Completable fuel anything Leaves (fun _ => functionHeader) d := by
    intro hparams
    refine ⟨headerLine, .single [.rightParen] (by simp) (by simp [isCloser]), ?_⟩
    intro _ _ ws more last hws _
    dsimp only
    rw [heq]
    exact (succeeds_parameters_followed hlive₂ (hfuel _ last) hparams
      (firstKind_of_map hws more) last).bind fun r hr => succeeds_headerEnd _ _ hws hr
  obtain hparams | ⟨d₃, params, -, hlive₃, hsame₃, hend⟩ :=
    hend.bind_pair fun _ (_ : fuel ≤ _) more last => parallel_parameters hlive₂ (hfuel more last) []
  · exact hgone hparams
  · exact (completable_headerEnd hlive₃ _ params hend).behind fun n hn more last => by
      rw [heq, hsame₃ n hn, ok_bind]


/-! ## Nested statements -/

/-- Whether a block is over before a token of the given kind. -/
def closesBlock (enders : List TokenKind) (kind : TokenKind) : Bool :=
  kind = .endOfInput || enders.contains kind

theorem succeeds_block {enders : List TokenKind} (fuel : Nat) (hrest : d.rest = more)
    (hmore : closesBlock enders (firstKind more) = true) :
    Succeeds (Leaves more) (blockWith fuel enders d) := by
  cases fuel with
  | zero => rfl
  | succ fuel =>
      have hover : (d.atEnd || enders.contains d.peek.kind) = true := by
        rw [← Draft.kind_peek_of hrest] at hmore
        exact hmore
      rw [blockWith_succ, if_pos hover]
      exact succeeds_ok hrest

/-- A token that ends the last arm of a conditional, or what `else` begins. -/
def isEnd (kind : TokenKind) : Bool := kind = .end_

theorem succeeds_elseBlock (fuel : Nat) (hrest : d.rest = more)
    (hmore : isEnd (firstKind more) = true) : Succeeds (Leaves more) (elseBlock fuel d) := by
  unfold elseBlock
  rw [if_neg]
  · exact succeeds_ok hrest
  · rw [Draft.sees_iff, Draft.kind_peek_of hrest, of_decide_eq_true hmore]
    decide

/-! The last line of each construct. -/

/-- Compiles the end of a loop. -/
def loopEnd (condition branch : Nat) (d : Draft) : Result :=
  (d.emitJumpTo .jump condition).patchHere branch >>= fun d => d.expect .end_ >>= Draft.expectLineEnd

/-- Compiles the end of a conditional. -/
def conditionalEnd (jumps : List Nat) (d : Draft) : Result :=
  d.expect .end_ >>= fun d => d.patchAllHere jumps >>= Draft.expectLineEnd

/-- Compiles the end of a function. -/
def functionEnd (d : Draft) : Result :=
  ((d.emitValue .null).emit .ret).expect .end_ >>= fun d =>
    d.checkResolved >>= fun d => d.leave.expectLineEnd

theorem succeeds_end (hws : ws.map (·.kind) = endLine) (hrest : d.rest = ws ++ more)
    {f : Draft → Result}
    (hf : ∀ {a : Draft} {ws : List Token}, ws.map (·.kind) = [.lineBreak] → a.rest = ws ++ more →
      Succeeds (Leaves more) (f a)) : Succeeds (Leaves more) (d.expect .end_ >>= f) := by
  obtain ⟨last, ws, rfl, hlast, hws⟩ := List.map_eq_cons_iff.mp hws
  have hend := Draft.succeeds_expect hrest
  rw [hlast] at hend
  exact hend.bind fun d₁ hd₁ => hf hws hd₁

theorem succeeds_loopEnd (condition branch : Nat) (hws : ws.map (·.kind) = endLine)
    (hrest : d.rest = ws ++ more) : Succeeds (Leaves more) (loopEnd condition branch d) := by
  refine (succeeds_patchHere (d := d.emitJumpTo .jump condition) hrest branch).bind fun d₁ hd₁ => ?_
  exact succeeds_end hws hd₁ succeeds_lineEnd

theorem succeeds_conditionalEnd (jumps : List Nat) (hws : ws.map (·.kind) = endLine)
    (hrest : d.rest = ws ++ more) : Succeeds (Leaves more) (conditionalEnd jumps d) := by
  exact succeeds_end hws hrest fun hws ha => (succeeds_patchAllHere ha jumps).bind fun _ hd₂ =>
    succeeds_lineEnd hws hd₂

theorem succeeds_functionEnd (hws : ws.map (·.kind) = endLine) (hrest : d.rest = ws ++ more) :
    Succeeds (Leaves more) (functionEnd d) := by
  refine succeeds_end (d := (d.emitValue .null).emit .ret) hws hrest fun {a ws} hws ha => ?_
  exact (succeeds_checkResolved ha).bind fun d₁ hd₁ => succeeds_lineEnd hws (d₁.rest_leave.trans hd₁)

theorem completable_loopEnd (condition branch : Nat) (h : d.Live)
    (hend : Ended Gone (loopEnd condition branch d)) :
    Completable fuel anything Leaves (fun _ => loopEnd condition branch) d := by
  have hjump : (d.emitJumpTo .jump condition).Live := h.written _
  have hback : Completable fuel anything Leaves
      (fun _ a => a.patchHere branch >>= fun a => a.expect .end_ >>= Draft.expectLineEnd)
      (d.emitJumpTo .jump condition) :=
    completable_alike (fun _ _ => hjump.alike_patchHere branch) (not_cutOff_patchHere _ _)
      (fun _ hlive₁ hend => completable_alike (fun _ _ => hlive₁.alike_expect (by decide))
        (Draft.not_cutOff_expect hlive₁ _) (fun _ => completable_lineEnd) hend) hend
  exact hback.behind fun _ _ more last => by rw [loopEnd, h.emitJumpTo_followed]

theorem completable_conditionalEnd (jumps : List Nat) (h : d.Live)
    (hend : Ended Gone (conditionalEnd jumps d)) :
    Completable fuel anything Leaves (fun _ => conditionalEnd jumps) d := by
  refine completable_alike (fun _ _ => h.alike_expect (by decide)) (Draft.not_cutOff_expect h _)
    (fun {d₁} _ hlive₁ hend => ?_) hend
  obtain hended | ⟨d₂, -, hlive₂, hsame, hend⟩ :=
    hend.bind_keeps fun _ (_ : fuel ≤ _) _ _ => hlive₁.keeps_patchAllHere jumps
  · exact absurd hended (not_ended_patchAllHere hlive₁ jumps)
  · exact (completable_lineEnd hlive₂ hend).behind fun n hn more last => by rw [hsame n hn, ok_bind]

theorem completable_functionEnd (h : d.Live) (hend : Ended Gone (functionEnd d)) :
    Completable fuel anything Leaves (fun _ => functionEnd) d := by
  have hnull : (d.emitValue .null).Live := h.emitInstruction _
  have hret : ((d.emitValue .null).emit .ret).Live := hnull.emitInstruction _
  have hclose : Completable fuel anything Leaves (fun _ a => a.expect .end_ >>= fun a =>
      a.checkResolved >>= fun a => a.leave.expectLineEnd) ((d.emitValue .null).emit .ret) := by
    refine completable_alike (fun _ _ => hret.alike_expect (by decide))
      (Draft.not_cutOff_expect hret _) (fun {d₁} _ hlive₁ hend => ?_) hend
    refine completable_alike (fun _ _ => hlive₁.alike_checkResolved) (not_cutOff_checkResolved d₁)
      (fun {d₂} _ hlive₂ hend => ?_) hend
    exact (completable_lineEnd (hlive₂.leave : Beside [] 0 _ _).1 hend).behind fun _ _ more last => by
      rw [(hlive₂.leave : Beside more last _ _).2]
  exact hclose.behind fun _ _ more last => by rw [functionEnd, h.emitValue_followed, hnull.emit_followed]

/-! Bodies and what ends them. -/

section

variable {β : Type} {ender : TokenKind → Bool} {left : List Token → β → Prop} {gone : β → Prop}
  {body : Draft → Except CompileError β} {body' : Nat → Draft → Except CompileError β}
  {missing : List TokenKind}

theorem succeeds_lineBody {good : β → Prop} (hws : ws.map (·.kind) = .lineBreak :: missing)
    (hrest : d.rest = ws ++ more)
    (hbody : ∀ {a : Draft} {ws : List Token}, ws.map (·.kind) = missing → a.rest = ws ++ more →
      Succeeds good (body a)) : Succeeds good (d.expectLineEnd >>= body) := by
  obtain ⟨w, ws, rfl, hw, hws⟩ := List.map_eq_cons_iff.mp hws
  have hline : Succeeds (Leaves (ws ++ more)) d.expectLineEnd := by
    rw [Draft.expectLineEnd_of_kind (by rw [Draft.peek_of_cons hrest]; exact hw)]
    exact succeeds_ok (Draft.rest_next_of hrest)
  exact hline.bind fun _ hd₁ => hbody hws hd₁

/-- A line is complete where it ends with the input, and the body behind it is not. -/
theorem completable_lineBody (h : d.Live) (hmissing : Lines missing)
    (hg : ∀ {n : Nat} {ws more : List Token} {a : Draft}, ws.map (·.kind) = missing →
      ender (firstKind more) = true → a.rest = ws ++ more → Succeeds (left more) (body' n a))
    (hlive : ∀ {d₁ : Draft}, d.expectLineEnd = .ok d₁ → d₁.Live → Ended gone (body d₁) →
      Completable fuel ender left body' d₁)
    (hend : Ended gone (d.expectLineEnd >>= body)) :
    Completable fuel ender left (fun n d => d.expectLineEnd >>= body' n) d :=
  completable_bind (fun _ _ _ _ => h.keeps_expectLineEnd) (completable_lineEnd h) hmissing
    (fun _ _ => rfl) hg hlive hend

end

/-- Compiles the body of a loop and its end. -/
def loopBody (fuel : Nat) (condition : Nat) (d : Draft) : Result :=
  blockWith fuel [.end_] (d.emitJump .branch) >>= loopEnd condition d.address

/-- Compiles the arms of a conditional and its end. -/
def conditionalBody (fuel branch : Nat) (d : Draft) : Result :=
  arms fuel d branch [] >>= fun r => elseBlock fuel r.1 >>= conditionalEnd r.2

theorem whileStatement_succ (fuel : Nat) (d : Draft) :
    whileStatement (fuel + 1) d =
      expression d >>= fun d₁ => d₁.expectLineEnd >>= loopBody fuel d.address := by
  rw [whileStatement]
  rfl

theorem functionDefinition_succ (fuel : Nat) (d : Draft) :
    functionDefinition (fuel + 1) d =
      functionHeader d >>= fun d₁ => blockWith fuel [.end_] d₁ >>= functionEnd := by
  rw [functionDefinition]
  rfl

/-- Compiles what a conditional has behind its condition. -/
def chosen (fuel : Nat) (d : Draft) : Result :=
  if (d.emitJump .branch).sees .then_ then
    inlineStatement (d.emitJump .branch).next >>= (·.patchHere d.address)
  else (d.emitJump .branch).expectLineEnd >>= conditionalBody fuel d.address

theorem ifStatement_eq (fuel : Nat) (d : Draft) :
    ifStatement (fuel + 1) d = expression d >>= chosen fuel := ifStatement_succ fuel d

/-- Compiles the arm that `elif` begins, and those behind it. -/
def nextArm (fuel : Nat) (jumps : List Nat) (d : Draft) : Except CompileError (Draft × List Nat) :=
  if d.sees .elif then
    expression d.next >>= fun d₁ =>
      (d₁.emitJump .branch).expectLineEnd >>= fun d₂ => arms fuel d₂ d₁.address jumps
  else .ok (d, jumps)

/-- Compiles the end of an arm, and the arms behind it. -/
def armEnd (fuel branch : Nat) (jumps : List Nat) (d : Draft) :
    Except CompileError (Draft × List Nat) :=
  (d.emitJump .jump).patchHere branch >>= nextArm fuel (jumps ++ [d.address])

/-- The tokens that end an arm. -/
def armEnders : List TokenKind := [.end_, .elif, .else_]

theorem arms_succ (fuel branch : Nat) (jumps : List Nat) (d : Draft) :
    arms (fuel + 1) d branch jumps = blockWith fuel armEnders d >>= armEnd fuel branch jumps := by
  rw [arms]
  rfl

theorem closesBlock_endLine (hws : ws.map (·.kind) = endLine) :
    closesBlock [.end_] (firstKind (ws ++ more)) = true := by
  rw [firstKind_of_map hws]
  rfl

theorem isEnd_endLine (hws : ws.map (·.kind) = endLine) : isEnd (firstKind (ws ++ more)) = true := by
  rw [firstKind_of_map hws]
  rfl

theorem succeeds_loopBody (fuel condition : Nat) (hws : ws.map (·.kind) = endLine)
    (hrest : d.rest = ws ++ more) : Succeeds (Leaves more) (loopBody fuel condition d) :=
  (succeeds_block (d := d.emitJump .branch) fuel hrest (closesBlock_endLine hws)).bind
    fun _ hd₁ => succeeds_loopEnd condition d.address hws hd₁

theorem succeeds_armEnd (fuel branch : Nat) (jumps : List Nat) (hrest : d.rest = more)
    (hmore : isEnd (firstKind more) = true) :
    Succeeds (fun r => r.1.rest = more) (armEnd fuel branch jumps d) := by
  refine (succeeds_patchHere (d := d.emitJump .jump) hrest branch).bind fun d₁ hd₁ => ?_
  unfold nextArm
  rw [if_neg]
  · exact succeeds_ok hd₁
  · rw [Draft.sees_iff, Draft.kind_peek_of hd₁, of_decide_eq_true hmore]
    decide

theorem succeeds_arms (fuel branch : Nat) (jumps : List Nat) (hrest : d.rest = more)
    (hmore : isEnd (firstKind more) = true) :
    Succeeds (fun r => r.1.rest = more) (arms fuel d branch jumps) := by
  cases fuel with
  | zero => rfl
  | succ fuel =>
      rw [arms_succ]
      refine (succeeds_block fuel hrest ?_).bind fun d₁ hd₁ =>
        succeeds_armEnd fuel branch jumps hd₁ hmore
      rw [of_decide_eq_true hmore]
      rfl

theorem succeeds_conditionalBody (fuel branch : Nat) (hws : ws.map (·.kind) = endLine)
    (hrest : d.rest = ws ++ more) : Succeeds (Leaves more) (conditionalBody fuel branch d) :=
  (succeeds_arms fuel branch [] hrest (isEnd_endLine hws)).bind fun r hr =>
    (succeeds_elseBlock fuel hr (isEnd_endLine hws)).bind fun _ hd₂ =>
      succeeds_conditionalEnd r.2 hws hd₂

theorem succeeds_chosen (fuel : Nat) (hws : ws.map (·.kind) = .lineBreak :: endLine)
    (hrest : d.rest = ws ++ more) : Succeeds (Leaves more) (chosen fuel d) := by
  unfold chosen
  rw [if_neg]
  · exact succeeds_lineBody (d := d.emitJump .branch) hws hrest
      (succeeds_conditionalBody fuel d.address)
  · have hkind : d.peek.kind = .lineBreak := by rw [Draft.kind_peek_of hrest, firstKind_of_map hws]
    rw [Draft.sees_iff]
    change d.peek.kind ≠ .then_
    rw [hkind]
    decide

/-! ## All statements -/

/-- Tokens are left, no call in them is lost, and no name in them is reserved. -/
structure Draft.Open (d : Draft) : Prop where
  live : d.Live
  callsFit : d.CallsFit
  named : d.Named

theorem Draft.Open.clears {d' : Draft} (h : d.Open) (hclears : d.Clears d')
    (hlive : d'.Live) : d'.Open :=
  ⟨hlive, hclears.callsFit h.callsFit, hclears.named h.named⟩

/-- All statements that the end of the input interrupts can be completed. The fuel of the
longer compilation is no less than that of the shorter one. -/
structure Finishing (fuel : Nat) : Prop where
  block : ∀ (enders : List TokenKind) {d : Draft}, d.Open → Ended Gone (blockWith fuel enders d) →
    Completable fuel (closesBlock enders) Leaves (blockWith · enders) d
  statement : ∀ {d : Draft}, d.Open → Ended Gone (statement fuel d) →
    Completable fuel anything Leaves statement d
  conditional : ∀ {d : Draft}, d.Open → Ended Gone (ifStatement fuel d) →
    Completable fuel anything Leaves ifStatement d
  arms : ∀ (branch : Nat) (jumps : List Nat) {d : Draft}, d.Open →
    Ended (fun r => Gone r.1) (arms fuel d branch jumps) →
    Completable fuel isEnd (fun more r => r.1.rest = more) (arms · · branch jumps) d
  loop : ∀ {d : Draft}, d.Open → Ended Gone (whileStatement fuel d) →
    Completable fuel anything Leaves whileStatement d
  function : ∀ {d : Draft}, d.Open → d.peek.kind = .func →
    Ended Gone (functionDefinition fuel d.next) →
    Completable fuel anything Leaves functionDefinition d.next

namespace Finishing

variable (finishing : Finishing fuel)
include finishing

theorem block_step (enders : List TokenKind) (h : d.Open)
    (hend : Ended Gone (blockWith (fuel + 1) enders d)) :
    Completable (fuel + 1) (closesBlock enders) Leaves (blockWith · enders) d := by
  apply Completable.succ
  have hover : ∀ more last, ((d.followed more last).atEnd ||
      enders.contains (d.followed more last).peek.kind) = (d.atEnd || enders.contains d.peek.kind) := by
    intro more last
    unfold Draft.atEnd
    rw [h.live.peek_followed]
  rw [blockWith_succ] at hend
  split at hend
  · exact absurd hend h.live.rest_ne
  rename_i hbegins
  have hrest : Completable fuel (closesBlock enders) Leaves
      (fun n a => Compile.statement n a >>= blockWith n enders) d := by
    refine completable_bind (fun n hn more last => (keeping more last fuel).statement hn h.live)
      (finishing.statement h) .nil (fun _ _ => rfl) (fun hws hmore ha => ?_)
      (fun hstatement hlive₁ hend => ?_) hend
    · cases List.map_eq_nil_iff.mp hws
      exact succeeds_block _ ha hmore
    · have hclears := (accepting fuel).statement h.named hstatement
      exact finishing.block enders (h.clears hclears hlive₁) hend
  exact hrest.behind fun _ _ more last => by rw [blockWith_succ, hover, if_neg hbegins]

theorem statement_step (h : d.Open)
    (hend : Ended Gone (Compile.statement (fuel + 1) d)) :
    Completable (fuel + 1) anything Leaves Compile.statement d := by
  apply Completable.succ
  have hnext : d.peek.kind ≠ .lineBreak → d.peek.kind ≠ .func → d.peek.kind ≠ .identifier →
      d.next.Open := fun hbreak hfunc hname =>
    h.clears (Draft.skips_next hfunc fun hkind => absurd hkind hname).clears
      (h.live.next hbreak)
  have hexpression : Ended Gone (expressionStatement d) →
      Completable fuel anything Leaves (fun _ => expressionStatement) d :=
    completable_expressionStatement h.live h.callsFit
  unfold Compile.statement at hend
  dsimp only at hend
  cases hkind : d.peek.kind
  all_goals rw [hkind] at hend hnext
  case identifier =>
    refine (completable_declaration h.live h.callsFit hkind hend).behind fun n hn more last => ?_
    unfold Compile.statement
    dsimp only
    rw [h.live.peek_followed, hkind]
  case if_ =>
    refine (finishing.conditional (hnext (by decide) (by decide) (by decide)) hend).behind fun n hn more last => ?_
    unfold Compile.statement
    dsimp only
    rw [h.live.peek_followed, hkind, h.live.next_followed]
  case while_ =>
    refine (finishing.loop (hnext (by decide) (by decide) (by decide)) hend).behind fun n hn more last => ?_
    unfold Compile.statement
    dsimp only
    rw [h.live.peek_followed, hkind, h.live.next_followed]
  case func =>
    dsimp only at hend
    split at hend
    · exact absurd hend (not_ended_at h.live.kind_ne _)
    rename_i houter
    refine (finishing.function h hkind hend).behind fun n hn more last => ?_
    unfold Compile.statement
    dsimp only
    rw [h.live.peek_followed, hkind, h.live.next_followed]
    exact if_neg houter
  case return_ =>
    refine (completable_returnStatement h.live h.callsFit hkind hend).behind fun n hn more last => ?_
    unfold Compile.statement
    dsimp only
    rw [h.live.peek_followed, hkind]
  case lineBreak =>
    refine completable_of_succeeds fun n more last _ => ?_
    unfold Compile.statement
    dsimp only
    rw [h.live.peek_followed, hkind, h.live.next_followed]
    exact succeeds_ok (rest_followed (d := d.next) hend more last)
  case end_ | elif | else_ => exact absurd hend (not_ended_at h.live.kind_ne _)
  all_goals
    refine (hexpression hend).behind fun n hn more last => ?_
    unfold Compile.statement
    dsimp only
    rw [h.live.peek_followed, hkind]

theorem loop_step (h : d.Open)
    (hend : Ended Gone (whileStatement (fuel + 1) d)) :
    Completable (fuel + 1) anything Leaves whileStatement d := by
  apply Completable.succ
  rw [whileStatement_succ] at hend
  have hloop : Completable fuel anything Leaves
      (fun n a => expression a >>= fun d₁ => d₁.expectLineEnd >>= loopBody n d.address) d := by
    refine completable_expression h.live h.callsFit lines_endLine
      (fun hws _ ha => succeeds_lineBody hws ha (succeeds_loopBody _ d.address))
      (fun hexpression hlive₁ hend => ?_) hend
    refine completable_lineBody hlive₁ lines_endLine
      (fun hws _ ha => succeeds_loopBody _ d.address hws ha) (fun {d₂} hline hlive₂ hend => ?_) hend
    have hhead := (Draft.clears_expression hexpression).trans
      (Draft.skips_expectLineEnd hline).clears
    have hbranch : d₂.Clears (d₂.emitJump .branch) := .of_eq rfl rfl
    have hopen := h.clears (hhead.trans hbranch) (hlive₂.written _)
    have hbody : Completable fuel anything Leaves
        (fun n a => blockWith n [.end_] a >>= loopEnd d.address d₂.address)
        (d₂.emitJump .branch) :=
      completable_bind (fun n hn more last => (keeping more last fuel).block [.end_] hn hopen.live)
        (finishing.block [.end_] hopen) lines_endLine (fun hws _ => closesBlock_endLine hws)
        (fun hws _ ha => succeeds_loopEnd _ _ hws ha)
        (fun _ hlive₃ hend => completable_loopEnd _ _ hlive₃ hend) hend
    exact hbody.behind fun n hn more last => by
      rw [loopBody, hlive₂.emitJump_followed]
      rfl
  exact hloop.behind fun n hn more last => by
    rw [whileStatement_succ]
    rfl

theorem function_step (h : d.Open) (hkind : d.peek.kind = .func)
    (hend : Ended Gone (functionDefinition (fuel + 1) d.next)) :
    Completable (fuel + 1) anything Leaves functionDefinition d.next := by
  apply Completable.succ
  have hlive : d.next.Live := h.live.next (by rw [hkind]; decide)
  rw [functionDefinition_succ] at hend
  have hfunction : Completable fuel anything Leaves
      (fun n a => functionHeader a >>= fun d₁ => blockWith n [.end_] d₁ >>= functionEnd) d.next := by
    refine completable_bind (fun _ _ _ _ => keeps_functionHeader hlive) (completable_functionHeader hlive)
      lines_endLine (fun _ _ => rfl) (fun hws _ ha => ?_) (fun hheader hlive₁ hend => ?_) hend
    · exact (succeeds_block _ ha (closesBlock_endLine hws)).bind fun _ hd₁ =>
        succeeds_functionEnd hws hd₁
    · have hopen := h.clears (clears_functionHeader hkind h.named hheader) hlive₁
      exact completable_bind
        (fun n hn more last => (keeping more last fuel).block [.end_] hn hopen.live)
        (finishing.block [.end_] hopen) lines_endLine (fun hws _ => closesBlock_endLine hws)
        (fun hws _ ha => succeeds_functionEnd hws ha)
        (fun _ hlive₂ hend => completable_functionEnd hlive₂ hend) hend
  exact hfunction.behind fun _ _ more last => by rw [functionDefinition_succ]

theorem nextArm_step (jumps : List Nat) (h : d.Open)
    (hend : Ended (fun r => Gone r.1) (nextArm fuel jumps d)) :
    Completable fuel isEnd (fun more r => r.1.rest = more) (nextArm · jumps) d := by
  unfold nextArm at hend
  split at hend
  · rename_i hsees
    have hkind := Draft.sees_iff.mp hsees
    have hskips : d.Skips d.next := Draft.skips_next (by rw [hkind]; decide) (by rw [hkind]; nofun)
    have hlive : d.next.Live := h.live.next (by rw [hkind]; decide)
    have harm : Completable fuel isEnd (fun more r => r.1.rest = more)
        (fun n a => expression a >>= fun d₁ =>
          (d₁.emitJump .branch).expectLineEnd >>= fun d₂ => Compile.arms n d₂ d₁.address jumps)
        d.next := by
      refine completable_expression hlive (hskips.callsFit h.callsFit) .nil
        (fun {_ _ _ a} hws hmore ha => ?_) (fun {d₁} hexpression hlive₁ hend => ?_) hend
      · refine succeeds_lineBody (d := a.emitJump .branch) hws ha fun hws hb => ?_
        cases List.map_eq_nil_iff.mp hws
        exact succeeds_arms _ _ jumps hb hmore
      · have hbranch : (d₁.emitJump .branch).Live := hlive₁.written _
        have hline : Completable fuel isEnd (fun more r => r.1.rest = more)
            (fun n a => a.expectLineEnd >>= fun d₂ => Compile.arms n d₂ d₁.address jumps)
            (d₁.emitJump .branch) := by
          refine completable_lineBody hbranch .nil (fun hws hmore ha => ?_)
            (fun hline hlive₂ hend => ?_) hend
          · cases List.map_eq_nil_iff.mp hws
            exact succeeds_arms _ _ jumps ha hmore
          · have hjump : d₁.Skips (d₁.emitJump .branch) := .of_eq rfl rfl
            have hhead := (hskips.clears.trans (Draft.clears_expression hexpression)).trans
              (hjump.trans (Draft.skips_expectLineEnd hline)).clears
            exact finishing.arms _ jumps (h.clears hhead hlive₂) hend
        exact hline.behind fun n hn more last => by
          rw [hlive₁.emitJump_followed]
          rfl
    exact harm.behind fun n hn more last => by
      rw [nextArm, h.live.sees_followed, if_pos hsees, h.live.next_followed]
  · exact absurd hend h.live.rest_ne

theorem arms_step (branch : Nat) (jumps : List Nat) (h : d.Open)
    (hend : Ended (fun r => Gone r.1) (Compile.arms (fuel + 1) d branch jumps)) :
    Completable (fuel + 1) isEnd (fun more r => r.1.rest = more)
      (Compile.arms · · branch jumps) d := by
  apply Completable.succ
  rw [arms_succ] at hend
  have harms : Completable fuel isEnd (fun more r => r.1.rest = more)
      (fun n a => blockWith n armEnders a >>= armEnd n branch jumps) d := by
    refine completable_bind (fun n hn more last => (keeping more last fuel).block armEnders hn h.live)
      (finishing.block armEnders h) .nil (fun hws hmore => ?_) (fun hws hmore ha => ?_)
      (fun {d₁} hblock hlive₁ hend => ?_) hend
    · cases List.map_eq_nil_iff.mp hws
      rw [List.nil_append, of_decide_eq_true hmore]
      rfl
    · cases List.map_eq_nil_iff.mp hws
      exact succeeds_armEnd _ branch jumps ha hmore
    · have hbody := (accepting fuel).block h.named hblock
      have hjump : (d₁.emitJump .jump).Live := hlive₁.written _
      have hpatch : Completable fuel isEnd (fun more r => r.1.rest = more)
          (fun n a => a.patchHere branch >>= nextArm n (jumps ++ [d₁.address]))
          (d₁.emitJump .jump) := by
        refine completable_alike (fun _ _ => hjump.alike_patchHere branch) (not_cutOff_patchHere _ _)
          (fun hpatch hlive₂ hend => ?_) hend
        have hskips : d₁.Skips (d₁.emitJump .jump) := .of_eq rfl rfl
        have harm := hbody.trans (hskips.trans (Draft.skips_patchHere hpatch)).clears
        exact finishing.nextArm_step _ (h.clears harm hlive₂) hend
      exact hpatch.behind fun n hn more last => by
        rw [armEnd, hlive₁.emitJump_followed]
        rfl
  exact harms.behind fun _ _ more last => by rw [arms_succ]

theorem elseBlock_step (h : d.Open) (hend : Ended Gone (elseBlock fuel d)) :
    Completable fuel isEnd Leaves elseBlock d := by
  have hender : ∀ kind, isEnd kind = true → closesBlock [.end_] kind = true := by
    intro kind hkind
    rw [of_decide_eq_true hkind]
    rfl
  unfold elseBlock at hend
  split at hend
  · rename_i hsees
    have hkind := Draft.sees_iff.mp hsees
    have hskips : d.Skips d.next := Draft.skips_next (by rw [hkind]; decide) (by rw [hkind]; nofun)
    have hlive : d.next.Live := h.live.next (by rw [hkind]; decide)
    have hblock : Completable fuel isEnd Leaves
        (fun n a => a.expectLineEnd >>= blockWith n [.end_]) d.next := by
      refine completable_lineBody hlive .nil (fun hws hmore ha => ?_) (fun hline hlive₁ hend => ?_) hend
      · cases List.map_eq_nil_iff.mp hws
        exact succeeds_block _ ha (hender _ hmore)
      · have hhead := (hskips.trans (Draft.skips_expectLineEnd hline)).clears
        exact (finishing.block [.end_] (h.clears hhead hlive₁) hend).weaken hender
    exact hblock.behind fun n hn more last => by
      rw [elseBlock, h.live.sees_followed, if_pos hsees, h.live.next_followed]
  · exact absurd hend h.live.rest_ne

theorem conditionalBody_step (branch : Nat) (h : d.Open)
    (hend : Ended Gone (conditionalBody fuel branch d)) :
    Completable fuel anything Leaves (conditionalBody · branch) d := by
  obtain harms | ⟨d₁, jumps, harms, hlive₁, hsame, hend⟩ :=
    hend.bind_pair fun n hn more last => (keeping more last fuel).arms branch [] hn h.live
  · exact (finishing.arms branch [] h harms).bind lines_endLine
      (fun hws _ => isEnd_endLine hws) fun {_ _ _ r} hws _ hr =>
        (succeeds_elseBlock _ hr (isEnd_endLine hws)).bind fun _ hd₂ =>
          succeeds_conditionalEnd r.2 hws hd₂
  · have hopen := h.clears ((accepting fuel).arms h.named harms) hlive₁
    have helse : Completable fuel anything Leaves
        (fun n a => elseBlock n a >>= conditionalEnd jumps) d₁ :=
      completable_bind (fun n hn more last => (keeping more last fuel).elseBlock_step hn hlive₁)
        (finishing.elseBlock_step hopen) lines_endLine (fun hws _ => isEnd_endLine hws)
        (fun hws _ ha => succeeds_conditionalEnd jumps hws ha)
        (fun _ hlive₂ hend => completable_conditionalEnd jumps hlive₂ hend) hend
    exact helse.behind fun n hn more last => by rw [conditionalBody, hsame n hn, ok_bind]

theorem chosen_step (h : d.Open) (hend : Ended Gone (chosen fuel d)) :
    Completable fuel anything Leaves chosen d := by
  have hbranch : (d.emitJump .branch).Live := h.live.written _
  have hjump : d.Skips (d.emitJump .branch) := .of_eq rfl rfl
  unfold chosen at hend
  split at hend
  · rename_i hsees
    have hkind := Draft.sees_iff.mp hsees
    have hskips := hjump.trans
      (Draft.skips_next (by rw [hkind]; decide) (by rw [hkind]; nofun))
    have hlive : (d.emitJump .branch).next.Live := hbranch.next (by rw [hkind]; decide)
    have hinline : Completable fuel anything Leaves
        (fun n a => inlineStatement a >>= (·.patchHere d.address)) (d.emitJump .branch).next := by
      refine completable_bind (fun _ _ _ _ => keeps_inlineStatement hlive)
        (completable_inlineStatement hlive (hskips.callsFit h.callsFit)) .nil (fun _ _ => rfl)
        (fun hws _ ha => ?_) (fun _ hlive₁ hend => ?_) hend
      · cases List.map_eq_nil_iff.mp hws
        exact succeeds_patchHere ha d.address
      · exact absurd hend (not_ended_patchHere hlive₁ d.address)
    exact hinline.behind fun n hn more last => by
      rw [chosen, h.live.emitJump_followed, hbranch.sees_followed, if_pos hsees,
        hbranch.next_followed]
      rfl
  · rename_i hsees
    have hbody : Completable fuel anything Leaves
        (fun n a => a.expectLineEnd >>= conditionalBody n d.address) (d.emitJump .branch) := by
      refine completable_lineBody hbranch lines_endLine
        (fun hws _ ha => succeeds_conditionalBody _ d.address hws ha)
        (fun hline hlive₁ hend => ?_) hend
      have hhead := (hjump.trans (Draft.skips_expectLineEnd hline)).clears
      exact finishing.conditionalBody_step d.address (h.clears hhead hlive₁) hend
    exact hbody.behind fun n hn more last => by
      rw [chosen, h.live.emitJump_followed, hbranch.sees_followed, if_neg hsees]
      rfl

theorem conditional_step (h : d.Open)
    (hend : Ended Gone (ifStatement (fuel + 1) d)) :
    Completable (fuel + 1) anything Leaves ifStatement d := by
  apply Completable.succ
  rw [ifStatement_eq] at hend
  have hif : Completable fuel anything Leaves (fun n a => expression a >>= chosen n) d := by
    refine completable_expression h.live h.callsFit lines_endLine (fun hws _ ha => ?_)
      (fun hexpression hlive₁ hend => ?_) hend
    · exact succeeds_chosen _ hws ha
    · have hopen := h.clears (Draft.clears_expression hexpression) hlive₁
      exact finishing.chosen_step hopen hend
  exact hif.behind fun _ _ more last => by rw [ifStatement_eq]

end Finishing

theorem finishing (fuel : Nat) : Finishing fuel := by
  induction fuel with
  | zero => constructor <;> intros <;> contradiction
  | succ fuel ih =>
      exact {
        block := fun enders _ h hend => ih.block_step enders h hend
        statement := fun h hend => ih.statement_step h hend
        conditional := fun h hend => ih.conditional_step h hend
        arms := fun branch jumps _ h hend => ih.arms_step branch jumps h hend
        loop := fun h hend => ih.loop_step h hend
        function := fun h hkind hend => ih.function_step h hkind hend }

end LineScript.Compile
