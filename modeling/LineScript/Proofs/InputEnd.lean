/-
# What lies ahead of a compilation

The input ends at the first token that says so, or where there are no more tokens. What stands behind that
token can only be read if the token itself is consumed, and the compiler does not do this. So all that matters
of the tokens left are those ahead of the end and the one that ends them. A draft can be cut there, and every
operation does the same to the cut draft as to the draft itself.

Three things are followed at once, since each needs the others: a part of the compiler consumes some of the
tokens ahead and nothing more, it does the same after the cut, and its fuel lasts for the tokens ahead. How
much fuel there is on the two sides is left open, so a part does the same with any fuel that lasts.
-/

import LineScript.Proofs.CompilationSteps

namespace LineScript.Compile

open LineScript.Code

namespace Draft

/-! ## Tokens ahead -/

/-- The tokens that are left before the input ends. -/
def ahead (d : Draft) : List Token := d.rest.takeWhile (·.kind ≠ .endOfInput)

/-- The token that ends the input. -/
def ending (d : Draft) : Token := (d.rest.dropWhile (·.kind ≠ .endOfInput)).headD (.ending d.lastLine)

/-- The draft with nothing left behind the end of the input. -/
def cut (d : Draft) : Draft := { d with rest := d.ahead ++ [d.ending], lastLine := d.ending.line }

variable {d d₁ d₂ : Draft}

theorem atEnd_iff : d.atEnd = true ↔ d.peek.kind = .endOfInput := decide_eq_true_iff

theorem atEnd_eq_false_iff : d.atEnd = false ↔ d.peek.kind ≠ .endOfInput := decide_eq_false_iff_not

/-- At the end, the next token is the one that ends the input. -/
theorem ahead_of_atEnd (h : d.atEnd = true) : d.ahead = [] ∧ d.ending = d.peek := by
  rw [atEnd_iff] at h
  unfold ahead ending peek at *
  cases hrest : d.rest with
  | nil => exact ⟨rfl, rfl⟩
  | cons t rest =>
      rw [hrest] at h
      have hkind : t.kind = .endOfInput := h
      simp [hkind]

/-- Before the end, the next token is the first one ahead. -/
theorem ahead_next (h : d.atEnd = false) : d.ahead = d.peek :: d.next.ahead ∧ d.next.ending = d.ending := by
  rw [atEnd_eq_false_iff] at h
  obtain ⟨rest, hrest⟩ := rest_eq_cons_of_peek h
  rw [next_of_cons hrest]
  unfold ahead ending
  rw [hrest]
  simp [h]

/-! ## Consuming tokens ahead -/

/-- The second draft comes after the first: tokens were consumed, none of which ends the input. -/
def Within (d d' : Draft) : Prop :=
  ∃ consumed, d.rest = consumed ++ d'.rest ∧ ∀ t ∈ consumed, t.kind ≠ .endOfInput

/-- The second draft comes after the first, and at least one token was consumed, none of which ends the
input. -/
def Further (d d' : Draft) : Prop :=
  ∃ consumed, consumed ≠ [] ∧ d.rest = consumed ++ d'.rest ∧ ∀ t ∈ consumed, t.kind ≠ .endOfInput

theorem within_of_rest_eq (h : d₁.rest = d.rest) : d.Within d₁ := ⟨[], h.symm, List.forall_mem_nil _⟩

theorem Further.within (h : d.Further d₁) : d.Within d₁ := by
  obtain ⟨consumed, -, hrest, hkinds⟩ := h
  exact ⟨consumed, hrest, hkinds⟩

theorem Within.trans (h : d.Within d₁) (h' : d₁.Within d₂) : d.Within d₂ := by
  obtain ⟨consumed, hrest, hkinds⟩ := h
  obtain ⟨more, hrest', hkinds'⟩ := h'
  refine ⟨consumed ++ more, ?_, List.forall_mem_append.mpr ⟨hkinds, hkinds'⟩⟩
  rw [hrest, hrest', List.append_assoc]

theorem Further.trans (h : d.Further d₁) (h' : d₁.Within d₂) : d.Further d₂ := by
  obtain ⟨consumed, hconsumed, hrest, hkinds⟩ := h
  obtain ⟨more, hrest', hkinds'⟩ := h'
  refine ⟨consumed ++ more, List.append_ne_nil_of_left_ne_nil hconsumed more, ?_,
    List.forall_mem_append.mpr ⟨hkinds, hkinds'⟩⟩
  rw [hrest, hrest', List.append_assoc]

theorem Within.further (h : d.Within d₁) (h' : d₁.Further d₂) : d.Further d₂ := by
  obtain ⟨consumed, hrest, hkinds⟩ := h
  obtain ⟨more, hmore, hrest', hkinds'⟩ := h'
  refine ⟨consumed ++ more, List.append_ne_nil_of_right_ne_nil consumed hmore, ?_,
    List.forall_mem_append.mpr ⟨hkinds, hkinds'⟩⟩
  rw [hrest, hrest', List.append_assoc]

theorem further_next (h : d.atEnd = false) : d.Further d.next := by
  rw [atEnd_eq_false_iff] at h
  obtain ⟨rest, hrest⟩ := rest_eq_cons_of_peek h
  refine ⟨[d.peek], List.cons_ne_nil _ _, ?_, List.forall_mem_singleton.mpr h⟩
  rw [rest_next, hrest]
  rfl

theorem atEnd_of_sees {kind : TokenKind} (h : d.sees kind = true) (hkind : kind ≠ .endOfInput) :
    d.atEnd = false :=
  atEnd_eq_false_iff.mpr (sees_iff.mp h ▸ hkind)

theorem within_skipLineBreaks (d : Draft) : d.Within d.skipLineBreaks := by
  refine keeps_skipLineBreaks (fun d₁ hkind h => ?_) (within_of_rest_eq rfl)
  exact h.trans (further_next (atEnd_eq_false_iff.mpr (by rw [hkind]; decide))).within

/-- Behind a comma, the next item may stand on another line. -/
theorem further_item (h : d.sees .comma = true) : d.Further d.next.skipLineBreaks :=
  (further_next (atEnd_of_sees h (by decide))).trans d.next.within_skipLineBreaks

theorem within_enter (d : Draft) (name : String) (params : List String) : d.Within (d.enter name params) := by
  unfold enter
  dsimp only
  split <;> exact within_of_rest_eq rfl

theorem within_leave (d : Draft) : d.Within d.leave := by
  unfold leave
  split <;> exact within_of_rest_eq rfl

theorem Further.length_lt (h : d.Further d₁) : d₁.ahead.length < d.ahead.length := by
  obtain ⟨consumed, hconsumed, hrest, hkinds⟩ := h
  have hpos := List.length_pos_of_ne_nil hconsumed
  unfold ahead
  rw [hrest, List.takeWhile_append_of_pos (by simpa using hkinds), List.length_append]
  omega

theorem length_ahead_le (d : Draft) : d.ahead.length ≤ d.rest.length :=
  (List.takeWhile_prefix _).length_le

theorem length_rest_cut (d : Draft) : d.cut.rest.length = d.ahead.length + 1 := List.length_append

/-! ## Operations on a cut draft -/

@[simp] theorem peek_cut (d : Draft) : d.cut.peek = d.peek := by
  cases hend : d.atEnd with
  | true =>
      obtain ⟨hahead, hending⟩ := ahead_of_atEnd hend
      unfold cut
      rw [hahead, hending]
      rfl
  | false =>
      obtain ⟨hahead, -⟩ := ahead_next hend
      unfold cut
      rw [hahead]
      rfl

@[simp] theorem atEnd_cut (d : Draft) : d.cut.atEnd = d.atEnd := by rw [atEnd, peek_cut, atEnd]

@[simp] theorem sees_cut (d : Draft) (kind : TokenKind) : d.cut.sees kind = d.sees kind := by
  rw [sees, peek_cut, sees]

/-- The end of the input is not to be consumed: behind it, the cut draft has nothing. -/
theorem next_cut (h : d.atEnd = false) : d.cut.next = d.next.cut := by
  obtain ⟨hahead, hending⟩ := ahead_next h
  have hcut : d.cut.rest = d.peek :: (d.next.ahead ++ [d.ending]) := congrArg (· ++ [d.ending]) hahead
  obtain ⟨rest, hrest⟩ := rest_eq_cons_of_peek (atEnd_eq_false_iff.mp h)
  rw [next_of_cons hcut, cut, cut, hending, next_of_cons hrest]

theorem peekSecond_cut (h : d.atEnd = false) : d.cut.peekSecond = d.peekSecond := by
  rw [← peek_next, next_cut h, peek_cut, peek_next]

@[simp] theorem line_cut (d : Draft) : d.cut.line = d.line := by
  rw [line, peek_cut]
  rfl

@[simp] theorem skipLineBreaks_cut (d : Draft) : d.cut.skipLineBreaks = d.skipLineBreaks.cut := by
  induction hrest : d.rest generalizing d with
  | nil =>
      have hpeek : d.peek.kind ≠ .lineBreak := by
        unfold peek
        rw [hrest]
        nofun
      rw [skipLineBreaks_of_ne hpeek, skipLineBreaks_of_ne (by rwa [peek_cut])]
  | cons t rest ih =>
      have hpeek := peek_of_cons hrest
      by_cases hkind : t.kind = .lineBreak
      · have hend : d.atEnd = false := atEnd_eq_false_iff.mpr (by rw [hpeek, hkind]; decide)
        obtain ⟨hahead, -⟩ := ahead_next hend
        have hcut : d.cut.rest = t :: (d.next.ahead ++ [d.ending]) := by
          rw [← hpeek]
          exact congrArg (· ++ [d.ending]) hahead
        rw [skipLineBreaks_of_lineBreak hrest hkind, skipLineBreaks_of_lineBreak hcut hkind, next_cut hend]
        exact ih d.next (by rw [rest_next, hrest]; rfl)
      · rw [← hpeek] at hkind
        rw [skipLineBreaks_of_ne hkind, skipLineBreaks_of_ne (by rwa [peek_cut])]

theorem item_cut (h : d.sees .comma = true) : d.cut.next.skipLineBreaks = d.next.skipLineBreaks.cut := by
  rw [next_cut (atEnd_of_sees h (by decide)), skipLineBreaks_cut]

@[simp] theorem emitInstruction_cut (d : Draft) (i : Instruction) :
    d.cut.emitInstruction i = (d.emitInstruction i).cut := by
  rw [emitInstruction, line_cut]
  rfl

@[simp] theorem emit_cut (d : Draft) (op : Opcode) : d.cut.emit op = (d.emit op).cut :=
  emitInstruction_cut d _

@[simp] theorem emitValue_cut (d : Draft) (literal : Literal) :
    d.cut.emitValue literal = (d.emitValue literal).cut :=
  emitInstruction_cut d _

@[simp] theorem emitName_cut (d : Draft) (op : Opcode) (name : String) :
    d.cut.emitName op name = (d.emitName op name).cut :=
  emitInstruction_cut d _

@[simp] theorem emitJump_cut (d : Draft) (op : Opcode) : d.cut.emitJump op = (d.emitJump op).cut := by
  rw [emitJump, line_cut]
  rfl

@[simp] theorem emitJumpTo_cut (d : Draft) (op : Opcode) (target : Nat) :
    d.cut.emitJumpTo op target = (d.emitJumpTo op target).cut := by
  rw [emitJumpTo, line_cut]
  rfl

@[simp] theorem address_cut (d : Draft) : d.cut.address = d.address := rfl

@[simp] theorem sees?_cut (d : Draft) (name : String) : d.cut.sees? name = d.sees? name := rfl

@[simp] theorem arity?_cut (d : Draft) (name : String) : d.cut.arity? name = d.arity? name := rfl

@[simp] theorem declare_cut (d : Draft) (name : String) : d.cut.declare name = (d.declare name).cut := rfl

@[simp] theorem enter_cut (d : Draft) (name : String) (params : List String) :
    d.cut.enter name params = (d.enter name params).cut := by
  unfold enter
  dsimp only
  split <;> rfl

@[simp] theorem leave_cut (d : Draft) : d.cut.leave = d.leave.cut := by
  have houter : d.cut.outer? = d.outer? := rfl
  unfold leave
  rw [houter]
  cases d.outer? <;> rfl

end Draft

/-! ## Results side by side -/

/-- The results of a part of the compiler for a draft and for the cut draft. Whatever comes out for the draft
is good, and under a condition, that the fuel lasts, the other result is the same after the cut and no error
says that the fuel ran out. -/
def Paired {α : Type} (lasts : Prop) (clip : α → α) (good : α → Prop) (r r' : Except CompileError α) : Prop :=
  match r with
  | .ok a => good a ∧ (lasts → r' = .ok (clip a))
  | .error e => lasts → e.cause ≠ .exhausted ∧ r' = .error e

/-- The fuels on both sides last for the tokens ahead, four units for each and some more. -/
abbrev Lasting (more : Nat) (d : Draft) (fuel fuel' : Nat) : Prop :=
  4 * d.ahead.length + more < fuel ∧ 4 * d.ahead.length + more < fuel'

section

variable {α β : Type} {lasts lasts' : Prop} {clip : α → α} {clip' : β → β} {good fine : α → Prop}
  {good' : β → Prop} {r r' r'' : Except CompileError α} {d d₁ : Draft} {more more' fuel fuel' : Nat}

theorem paired_ok {a : α} (h : good a) : Paired lasts clip good (.ok a) (.ok (clip a)) := ⟨h, fun _ => rfl⟩

theorem paired_error {e : CompileError} (h : decide (e.cause = .exhausted) = false) :
    Paired lasts clip good (.error e) (.error e) :=
  fun _ => ⟨of_decide_eq_false h, rfl⟩

theorem Paired.bind (h : Paired lasts clip good r r') {f f' : α → Except CompileError β}
    (hf : ∀ a, good a → Paired lasts clip' good' (f a) (f' (clip a))) :
    Paired lasts clip' good' (r >>= f) (r' >>= f') := by
  cases r with
  | ok a =>
      obtain ⟨ha, hr'⟩ := h
      have hfa := hf a ha
      rw [ok_bind]
      cases hresult : f a with
      | ok b =>
          rw [hresult] at hfa
          exact ⟨hfa.1, fun hlasts => by rw [hr' hlasts]; exact hfa.2 hlasts⟩
      | error e =>
          rw [hresult] at hfa
          exact fun hlasts => ⟨(hfa hlasts).1, by rw [hr' hlasts]; exact (hfa hlasts).2⟩
  | error e =>
      exact fun hlasts => ⟨(h hlasts).1, by rw [(h hlasts).2]; rfl⟩

theorem Paired.map (h : Paired lasts clip good r r') {f : α → β} (hf : ∀ a, good a → good' (f a))
    (hclip : ∀ a, f (clip a) = clip' (f a)) : Paired lasts clip' good' (r.map f) (r'.map f) := by
  cases r with
  | ok a => exact ⟨hf a h.1, fun hlasts => by rw [h.2 hlasts, ← hclip]; rfl⟩
  | error e => exact fun hlasts => ⟨(h hlasts).1, by rw [(h hlasts).2]; rfl⟩

theorem Paired.imp (h : Paired lasts clip good r r') (hgood : ∀ a, good a → fine a) :
    Paired lasts clip fine r r' := by
  cases r with
  | ok a => exact ⟨hgood a h.1, h.2⟩
  | error e => exact h

theorem Paired.mono (h : Paired lasts clip good r r') (hlasts : lasts' → lasts) :
    Paired lasts' clip good r r' := by
  cases r with
  | ok a => exact ⟨h.1, fun h' => h.2 (hlasts h')⟩
  | error e => exact fun h' => h (hlasts h')

/-- When the fuel does not last, it does not matter what there is on the other side. -/
theorem Paired.of_not (h : Paired lasts clip good r r') (hlasts : ¬lasts') :
    Paired lasts' clip good r r'' := by
  cases r with
  | ok a => exact ⟨h.1, fun h' => absurd h' hlasts⟩
  | error e => exact fun h' => absurd h' hlasts

theorem Paired.of_ok (h : Paired lasts clip good r r') {a : α} (hr : r = .ok a) : good a := by
  subst hr
  exact h.1

/-- When the fuel lasts and nothing is cut off, the two results are the same. -/
theorem Paired.eq (h : Paired lasts id good r r') (hlasts : lasts) : r' = r := by
  cases r with
  | ok a => exact h.2 hlasts
  | error e => exact (h hlasts).2

theorem paired_exhausted {e : CompileError} (h : ¬lasts) : Paired lasts clip good (.error e) r :=
  fun h' => absurd h' h

theorem not_lasting_zero : ¬Lasting more d fuel 0 := fun h => absurd h.2 (Nat.not_lt_zero _)

/-- A step that consumes nothing takes one unit, so less of it may be asked for. -/
theorem lasting_same (hmore : more' + 1 ≤ more) :
    Lasting more d (fuel + 1) (fuel' + 1) → Lasting more' d fuel fuel' := by
  rintro ⟨hleft, hright⟩
  exact ⟨by omega, by omega⟩

/-- A token that was consumed frees four units. -/
theorem lasting_of_further (h : d.Further d₁) (hmore : more' ≤ more + 3) :
    Lasting more d (fuel + 1) (fuel' + 1) → Lasting more' d₁ fuel fuel' := by
  rintro ⟨hleft, hright⟩
  have hlength := h.length_lt
  exact ⟨by omega, by omega⟩

/-- What goes side by side further on does so from here with one more unit of fuel. -/
theorem Paired.after (h : Paired (Lasting more' d₁ fuel fuel') clip good r r') (hfurther : d.Further d₁)
    (hmore : more' ≤ more + 3) (hgood : ∀ a, good a → fine a) :
    Paired (Lasting more d (fuel + 1) (fuel' + 1)) clip fine r r' :=
  (h.mono (lasting_of_further hfurther hmore)).imp hgood

end

/-! ## Consuming and resolving -/

section

variable {lasts : Prop} (d : Draft)

open Draft

theorem paired_expect {kind : TokenKind} (hkind : kind ≠ .endOfInput) :
    Paired lasts cut (Further d) (d.expect kind) (d.cut.expect kind) := by
  unfold Draft.expect
  rw [sees_cut, peek_cut]
  split
  · rename_i hsees
    have hend := atEnd_of_sees hsees hkind
    rw [next_cut hend]
    exact paired_ok (further_next hend)
  · exact paired_error rfl

theorem paired_expectText {kind : TokenKind} (hkind : kind ≠ .endOfInput) :
    Paired lasts (Prod.map id cut) (fun r => d.Further r.2) (d.expectText kind) (d.cut.expectText kind) := by
  unfold expectText
  rw [peek_cut]
  exact (paired_expect d hkind).map (fun _ h => h) fun _ => rfl

theorem paired_expectLineEnd : Paired lasts cut (Within d) d.expectLineEnd d.cut.expectLineEnd := by
  unfold expectLineEnd
  rw [atEnd_cut]
  split
  · exact paired_ok (within_of_rest_eq rfl)
  · exact (paired_expect d (by decide)).imp fun _ h => h.within

/-- A closing bracket may stand on a line of its own. -/
theorem paired_closing {kind : TokenKind} (hkind : kind ≠ .endOfInput) :
    Paired lasts cut (Further d) (d.skipLineBreaks.expect kind) (d.cut.skipLineBreaks.expect kind) := by
  rw [skipLineBreaks_cut]
  exact (paired_expect _ hkind).imp fun _ h => d.within_skipLineBreaks.further h

theorem paired_patchHere (address : Nat) :
    Paired lasts cut (Within d) (d.patchHere address) (d.cut.patchHere address) := by
  have hbody : d.cut.body = d.body := rfl
  unfold patchHere
  rw [hbody, line_cut]
  cases d.body.patchHere address with
  | ok body => exact paired_ok (within_of_rest_eq rfl)
  | error e => exact paired_error rfl

theorem paired_patchAllHere (addresses : List Nat) :
    Paired lasts cut (Within d) (d.patchAllHere addresses) (d.cut.patchAllHere addresses) := by
  induction addresses generalizing d with
  | nil => exact paired_ok (within_of_rest_eq rfl)
  | cons address addresses ih =>
      rw [patchAllHere_cons, patchAllHere_cons]
      apply (paired_patchHere d address).bind
      intro d₁ h₁
      exact (ih d₁).imp fun _ h => h₁.trans h

theorem paired_checkResolved : Paired lasts cut (Within d) d.checkResolved d.cut.checkResolved := by
  have hbody : d.cut.body = d.body := rfl
  unfold checkResolved
  rw [hbody, line_cut]
  cases d.body.unresolved with
  | nil => exact paired_ok (within_of_rest_eq rfl)
  | cons address addresses => exact paired_error rfl

end

end LineScript.Compile
