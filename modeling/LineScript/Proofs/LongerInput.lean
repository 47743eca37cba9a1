/-
# Compiling with more input behind

Two compilations side by side: one of some tokens that end with a line break, and one
of the same tokens with more behind them. They go the same way until the first one
runs out of tokens. From there on the first can only finish or fail at the end of its
input. So an error that was raised anywhere else is raised in both.

The compilers look at most two tokens ahead, and only at a name. A name is not the
last token, which is why the token after it is the same in both compilations.
-/

import LineScript.Proofs.OperatorStack

namespace LineScript.Compile

open LineScript.Code

/-! ## Drafts side by side -/

namespace Draft

/-- The same draft of an input that goes on. -/
def followed (more : List Token) (last : Int) (d : Draft) : Draft :=
  { d with rest := d.rest ++ more, lastLine := last }

/-- Tokens are left, and the last one of them is a line break. -/
structure Live (d : Draft) : Prop where
  rest_ne : d.rest ≠ []
  real : ∀ t ∈ d.rest, t.kind ≠ .endOfInput
  ending : ∀ t, d.rest.getLast? = some t → t.kind = .lineBreak

/-- A draft with tokens left, and the same one of an input that goes on. -/
def Beside (more : List Token) (last : Int) (d d' : Draft) : Prop :=
  d.Live ∧ d' = d.followed more last

variable {more : List Token} {last : Int} {d : Draft}

theorem peek_of_rest_eq_nil (h : d.rest = []) : d.peek.kind = .endOfInput := by
  unfold peek
  rw [h]
  rfl

theorem sees_eq_false (h : d.rest = []) {kind : TokenKind} (hkind : kind ≠ .endOfInput) :
    d.sees kind = false := by
  unfold sees
  rw [peek_of_rest_eq_nil h]
  exact decide_eq_false hkind.symm

namespace Live

theorem rest_eq (h : d.Live) : ∃ rest, d.rest = d.peek :: rest := by
  cases hrest : d.rest with
  | nil => exact absurd hrest h.rest_ne
  | cons t rest =>
      rw [peek_of_cons hrest]
      exact ⟨rest, rfl⟩

theorem kind_ne (h : d.Live) : d.peek.kind ≠ .endOfInput := by
  obtain ⟨rest, hrest⟩ := h.rest_eq
  exact h.real d.peek (by rw [hrest]; exact List.mem_cons_self)

theorem atEnd_eq (h : d.Live) : d.atEnd = false := decide_eq_false h.kind_ne

theorem peek_followed (h : d.Live) : (d.followed more last).peek = d.peek := by
  obtain ⟨rest, hrest⟩ := h.rest_eq
  have hfollowed : (d.followed more last).rest = d.peek :: (rest ++ more) := by
    unfold followed
    rw [hrest, List.cons_append]
  exact peek_of_cons hfollowed

theorem sees_followed (h : d.Live) (kind : TokenKind) :
    (d.followed more last).sees kind = d.sees kind := by
  unfold sees
  rw [h.peek_followed]

theorem next_followed (h : d.Live) : (d.followed more last).next = d.next.followed more last := by
  obtain ⟨rest, hrest⟩ := h.rest_eq
  have hfollowed : (d.followed more last).rest = d.peek :: (rest ++ more) := by
    unfold followed
    rw [hrest, List.cons_append]
  rw [next_of_cons hrest, next_of_cons hfollowed]
  rfl

/-- Behind a token other than a line break there is another one. -/
theorem next (h : d.Live) (hkind : d.peek.kind ≠ .lineBreak) : d.next.Live := by
  obtain ⟨rest, hrest⟩ := h.rest_eq
  have hnext : d.next.rest = rest := by rw [rest_next, hrest]; rfl
  have hreal := h.real
  have hending := h.ending
  rw [hrest] at hreal hending
  cases rest with
  | nil => exact absurd (hending d.peek rfl) hkind
  | cons t rest =>
      refine ⟨by rw [hnext]; exact List.cons_ne_nil _ _, ?_, ?_⟩
      · rw [hnext]
        exact fun u hu => hreal u (List.mem_cons_of_mem _ hu)
      · rw [hnext]
        exact fun u hu => hending u (by rw [List.getLast?_cons_cons]; exact hu)

/-- Consuming a token leads to the end or keeps the drafts side by side. -/
theorem next_cases (more : List Token) (last : Int) (h : d.Live) :
    d.next.rest = [] ∨ Beside more last d.next (d.followed more last).next := by
  obtain ⟨rest, hrest⟩ := h.rest_eq
  have hnext : d.next.rest = rest := by rw [rest_next, hrest]; rfl
  by_cases hempty : rest = []
  · exact .inl (hnext.trans hempty)
  · refine .inr ⟨⟨by rwa [hnext], fun u hu => ?_, fun u hu => ?_⟩, h.next_followed⟩
    · rw [hnext] at hu
      exact h.real u (by rw [hrest]; exact List.mem_cons_of_mem _ hu)
    · rw [hnext] at hu
      refine h.ending u ?_
      rw [hrest, List.getLast?_cons, hu]
      rfl

theorem peekSecond_followed (h : d.Live) (hkind : d.peek.kind ≠ .lineBreak) :
    (d.followed more last).peekSecond = d.peekSecond := by
  rw [← peek_next, ← peek_next, h.next_followed, (h.next hkind).peek_followed]

theorem line_followed (h : d.Live) : (d.followed more last).line = d.line := by
  unfold line
  rw [h.peek_followed]
  rfl

/-- Instructions leave the tokens alone. -/
theorem written (h : d.Live) (body : Function) : ({ d with body := body } : Draft).Live :=
  ⟨h.rest_ne, h.real, h.ending⟩

theorem emitInstruction (h : d.Live) (i : Instruction) : (d.emitInstruction i).Live := h.written _

theorem emitInstruction_followed (h : d.Live) (i : Instruction) :
    (d.followed more last).emitInstruction i = (d.emitInstruction i).followed more last := by
  unfold Draft.emitInstruction
  rw [h.line_followed]
  rfl

theorem emit_followed (h : d.Live) (op : Opcode) :
    (d.followed more last).emit op = (d.emit op).followed more last :=
  h.emitInstruction_followed _

theorem emitValue_followed (h : d.Live) (literal : Literal) :
    (d.followed more last).emitValue literal = (d.emitValue literal).followed more last :=
  h.emitInstruction_followed _

theorem emitName_followed (h : d.Live) (op : Opcode) (name : String) :
    (d.followed more last).emitName op name = (d.emitName op name).followed more last :=
  h.emitInstruction_followed _

theorem emitJump_followed (h : d.Live) (op : Opcode) :
    (d.followed more last).emitJump op = (d.emitJump op).followed more last := by
  unfold Draft.emitJump
  rw [h.line_followed]
  rfl

theorem emitJumpTo_followed (h : d.Live) (op : Opcode) (target : Nat) :
    (d.followed more last).emitJumpTo op target = (d.emitJumpTo op target).followed more last := by
  unfold Draft.emitJumpTo
  rw [h.line_followed]
  rfl

theorem skipLineBreaksFrom {tokens : List Token} (d : Draft) (consumed? : Option Int)
    (hreal : ∀ t ∈ tokens, t.kind ≠ .endOfInput)
    (hending : ∀ t, tokens.getLast? = some t → t.kind = .lineBreak) :
    (d.skipLineBreaksFrom tokens consumed?).rest = [] ∨
      Beside more last (d.skipLineBreaksFrom tokens consumed?)
        ((d.followed more last).skipLineBreaksFrom (tokens ++ more) consumed?) := by
  induction tokens generalizing consumed? with
  | nil => exact .inl rfl
  | cons t rest ih =>
      rw [List.cons_append]
      unfold Draft.skipLineBreaksFrom
      split
      · refine ih (some t.line) (fun u hu => hreal u (List.mem_cons_of_mem _ hu)) fun u hu => ?_
        refine hending u ?_
        rw [List.getLast?_cons, hu]
        rfl
      · exact .inr ⟨⟨List.cons_ne_nil _ _, hreal, hending⟩, rfl⟩

/-- Skipping line breaks leads to the end or keeps the drafts side by side. -/
theorem skipLineBreaks (more : List Token) (last : Int) (h : d.Live) :
    d.skipLineBreaks.rest = [] ∨
      Beside more last d.skipLineBreaks (d.followed more last).skipLineBreaks :=
  skipLineBreaksFrom d d.consumed? h.real h.ending

end Live

end Draft

open Draft (Beside)

/-! ## Results side by side -/

/-- A step that began at the end of the input fails there, or gives what is allowed. An
internal error, which no script causes, is allowed as well. -/
def Stops {α : Type} (gone : α → Prop) : Except CompileError α → Prop
  | .ok a => gone a
  | .error e => e.atEnd = true ∨ e.kind = .internalError

/-- The results of a step of both compilations: the first is at its end, or both are the
same. -/
def Parallel {α : Type} (gone : α → Prop) (same : α → α → Prop) (r r' : Except CompileError α) :
    Prop :=
  match r with
  | .ok a => gone a ∨ ∃ a', r' = .ok a' ∧ same a a'
  | .error e => (e.atEnd = true ∨ e.kind = .internalError) ∨ r' = .error e

section

variable {α β : Type} {gone : α → Prop} {same : α → α → Prop} {gone' : β → Prop}
  {same' : β → β → Prop}

theorem Stops.parallel {r : Except CompileError α} (h : Stops gone r) (r' : Except CompileError α) :
    Parallel gone same r r' := by
  cases r with
  | ok a => exact .inl h
  | error e => exact .inl h

theorem Stops.bind {r : Except CompileError α} (h : Stops gone r) {f : α → Except CompileError β}
    (hf : ∀ a, gone a → Stops gone' (f a)) : Stops gone' (r >>= f) := by
  cases r with
  | ok a => exact hf a h
  | error e => exact h

theorem Parallel.bind {r r' : Except CompileError α} (h : Parallel gone same r r')
    {f f' : α → Except CompileError β} (hgone : ∀ a, r = .ok a → gone a → Stops gone' (f a))
    (hsame : ∀ a a', r = .ok a → same a a' → Parallel gone' same' (f a) (f' a')) :
    Parallel gone' same' (r >>= f) (r' >>= f') := by
  cases r with
  | ok a =>
      obtain ha | ⟨a', rfl, ha⟩ := h
      · exact (hgone a rfl ha).parallel _
      · exact hsame a a' rfl ha
  | error e =>
      obtain he | rfl := h
      · exact .inl he
      · exact .inr rfl

end

/-- Both compilations raise the same error. -/
theorem parallel_error {α : Type} {gone : α → Prop} {same : α → α → Prop} (e : CompileError) :
    Parallel gone same (.error e) (.error e) := .inr rfl

/-- The results of a step that cannot succeed at the end of the input. -/
abbrev Alike (more : List Token) (last : Int) (r r' : Result) : Prop :=
  Parallel (fun _ => False) (Beside more last) r r'

theorem Alike.bind {α : Type} {gone : α → Prop} {same : α → α → Prop} {more : List Token}
    {last : Int} {r r' : Result} (h : Alike more last r r') {f f' : Draft → Except CompileError α}
    (hsame : ∀ d, r = .ok d → d.Live → Parallel gone same (f d) (f' (d.followed more last))) :
    Parallel gone same (r >>= f) (r' >>= f') := by
  apply Parallel.bind h
  · rintro a - ⟨⟩
  · rintro d d' hd ⟨hlive, rfl⟩
    exact hsame d hd hlive

theorem alike_ok {more : List Token} {last : Int} {d d' : Draft} (h : Beside more last d d') :
    Alike more last (.ok d) (.ok d') :=
  .inr ⟨d', rfl, h⟩

/-- An error at the end of the input. -/
theorem stops_at {α : Type} {gone : α → Prop} {t : Token} (h : t.kind = .endOfInput)
    (cause : CompileCause) : Stops gone (.error (.at_ t cause)) :=
  .inl (decide_eq_true h)

namespace Draft

variable {more : List Token} {last : Int} {d : Draft}

theorem stops_expect {gone : Draft → Prop} (h : d.rest = []) {kind : TokenKind}
    (hkind : kind ≠ .endOfInput) : Stops gone (d.expect kind) := by
  unfold expect
  rw [if_neg (by rw [sees_eq_false h hkind]; exact Bool.false_ne_true)]
  exact stops_at (peek_of_rest_eq_nil h) _

theorem expectText_bind {α : Type} (d : Draft) (kind : TokenKind)
    (f : String × Draft → Except CompileError α) :
    d.expectText kind >>= f = d.expect kind >>= fun after => f (d.peek.text, after) := by
  unfold expectText
  cases d.expect kind <;> rfl

theorem stops_expectText (h : d.rest = []) {kind : TokenKind} (hkind : kind ≠ .endOfInput) :
    Stops (fun _ => False) (d.expectText kind) := by
  have hstops : Stops (fun _ => False) (d.expect kind) := stops_expect h hkind
  exact hstops.bind nofun

namespace Live

theorem alike_expect (h : d.Live) {kind : TokenKind} (hkind : kind ≠ .lineBreak) :
    Alike more last (d.expect kind) ((d.followed more last).expect kind) := by
  unfold expect
  rw [h.sees_followed, h.peek_followed]
  split
  · rename_i hsees
    refine alike_ok ⟨h.next ?_, h.next_followed⟩
    rw [sees_iff.mp hsees]
    exact hkind
  · exact parallel_error _

theorem parallel_expectText {α : Type} {gone : α → Prop} {same : α → α → Prop}
    {f f' : String × Draft → Except CompileError α} (h : d.Live) {kind : TokenKind}
    (hkind : kind ≠ .lineBreak)
    (hf : ∀ d₁, d.expect kind = .ok d₁ → d₁.Live →
      Parallel gone same (f (d.peek.text, d₁)) (f' (d.peek.text, d₁.followed more last))) :
    Parallel gone same (d.expectText kind >>= f) ((d.followed more last).expectText kind >>= f') := by
  rw [expectText_bind, expectText_bind, h.peek_followed]
  exact (h.alike_expect hkind).bind hf

/-- A step behind skipped line breaks. -/
theorem parallel_skipLineBreaks {α : Type} {gone : α → Prop} {same : α → α → Prop}
    (f f' : Draft → Except CompileError α) (h : d.Live)
    (hstops : ∀ d : Draft, d.rest = [] → Stops gone (f d))
    (hparallel : d.skipLineBreaks.Live →
      Parallel gone same (f d.skipLineBreaks) (f' (d.skipLineBreaks.followed more last))) :
    Parallel gone same (f d.skipLineBreaks) (f' (d.followed more last).skipLineBreaks) := by
  obtain hempty | ⟨hlive, heq⟩ := h.skipLineBreaks more last
  · exact (hstops _ hempty).parallel _
  · rw [heq]
    exact hparallel hlive

/-- The comma behind an item is followed by another item, or both compilations go on
with what is there. -/
theorem parallel_item {α : Type} {gone : α → Prop} {same : α → α → Prop} (h : d.Live)
    (f f' g : Draft → Except CompileError α) (hstops : ∀ d : Draft, d.rest = [] → Stops gone (f d))
    (hf : d.next.skipLineBreaks.rest.length < d.rest.length → d.next.skipLineBreaks.Live →
      Parallel gone same (f d.next.skipLineBreaks) (f' (d.next.skipLineBreaks.followed more last)))
    (hg : Parallel gone same (g d) (g (d.followed more last))) :
    Parallel gone same (if d.sees .comma then f d.next.skipLineBreaks else g d)
      (if (d.followed more last).sees .comma then f' (d.followed more last).next.skipLineBreaks
        else g (d.followed more last)) := by
  rw [h.sees_followed]
  split
  · rename_i hsees
    rw [sees_iff] at hsees
    have hlive : d.next.Live := h.next (by rw [hsees]; decide)
    have hnext := length_next_lt (d := d) (by rw [hsees]; decide)
    have hskip := d.next.length_skipLineBreaks_le
    rw [h.next_followed]
    exact hlive.parallel_skipLineBreaks f f' hstops (hf (by omega))
  · exact hg

/-- A closing bracket may stand on a line of its own. -/
theorem alike_closing (h : d.Live) {kind : TokenKind} (hkind : kind ≠ .lineBreak)
    (hreal : kind ≠ .endOfInput) :
    Alike more last (d.skipLineBreaks.expect kind)
      ((d.followed more last).skipLineBreaks.expect kind) :=
  h.parallel_skipLineBreaks (·.expect kind) (·.expect kind) (fun _ h => stops_expect h hreal) fun h => h.alike_expect hkind

theorem alike_patchHere (h : d.Live) (address : Nat) :
    Alike more last (d.patchHere address) ((d.followed more last).patchHere address) := by
  unfold patchHere
  rw [show (d.followed more last).body = d.body from rfl]
  cases d.body.patchHere address with
  | ok body => exact alike_ok ⟨⟨h.rest_ne, h.real, h.ending⟩, rfl⟩
  | error e => exact .inl (.inr rfl)

end Live

end Draft

/-! ## Expressions -/

namespace Precedence

variable {more : List Token} {last : Int}

theorem alike_concluding {d : Draft} (h : d.Live) (enclosed : Bool) :
    Beside more last (concluding enclosed d) (concluding enclosed (d.followed more last)) := by
  unfold concluding
  rw [h.peek_followed]
  split
  · exact ⟨⟨h.rest_ne, h.real, h.ending⟩, rfl⟩
  · exact ⟨h, rfl⟩

theorem alike_begin {d : Draft} (h : d.Live) (o : BinaryOp) :
    Beside more last (begin o d) (begin o (d.followed more last)) := by
  unfold begin
  split
  · exact ⟨h.written _, h.emitJump_followed _⟩
  · exact ⟨h, rfl⟩

theorem alike_apply {d : Draft} (h : d.Live) (o : UnaryOp) :
    Beside more last (apply o d) (apply o (d.followed more last)) := by
  unfold apply
  split
  · exact ⟨h.emitInstruction _, h.emit_followed _⟩
  · exact ⟨h, rfl⟩

theorem alike_combine {d : Draft} (h : d.Live) (o : BinaryOp) (address : Nat) :
    Alike more last (combine o address d) (combine o address (d.followed more last)) := by
  unfold combine
  rw [h.emit_followed]
  split
  · exact (h.emitInstruction _).alike_patchHere address
  · exact alike_ok ⟨h.emitInstruction _, rfl⟩

theorem alike_close {d : Draft} (h : d.Live) :
    Alike more last (close d) (close (d.followed more last)) := by
  unfold close
  rw [h.sees_followed, h.peek_followed]
  split
  · rename_i hsees
    refine alike_ok ⟨h.next ?_, h.next_followed⟩
    rw [Draft.sees_iff.mp hsees]
    decide
  · exact parallel_error _

/-! At the end of the input there is nothing to begin an expression with. -/

theorem stops_climb {d : Draft} (h : d.rest = []) (level : Nat) (enclosed fresh : Bool) :
    Stops (fun _ => False) (climb level enclosed fresh d) := by
  have hkind := Draft.peek_of_rest_eq_nil h
  rw [climb_eq, operand_eq, hkind]
  change Stops _ ((primary fresh d >>= suffixes) >>= operators level enclosed)
  rw [primary_eq, hkind]
  unfold missing
  dsimp only
  split
  · exact stops_at hkind _
  · exact stops_at hkind _

theorem stops_arguments {d : Draft} (h : d.rest = []) (count : Nat) :
    Stops (fun _ => False) (arguments d count) := by
  rw [arguments_eq]
  exact (stops_climb h 0 false true).bind nofun

theorem stops_elements {d : Draft} (h : d.rest = []) : Stops (fun _ => False) (elements d) := by
  rw [elements_eq, Draft.sees_eq_false h (by decide)]
  exact (stops_climb h 0 false true).bind nofun

theorem stops_members {d : Draft} (h : d.rest = []) : Stops (fun _ => False) (members d) := by
  rw [members_eq, Draft.sees_eq_false h (by decide)]
  exact (Draft.stops_expectText h (by decide)).bind nofun

/-- Both compilations read the same, as long as fewer than `bound` tokens are left. -/
structure Matching (more : List Token) (last : Int) (bound : Nat) : Prop where
  climb : ∀ (level : Nat) (enclosed fresh : Bool) {d : Draft}, d.rest.length < bound → d.Live →
    Alike more last (climb level enclosed fresh d)
      (climb level enclosed fresh (d.followed more last))
  operators : ∀ (level : Nat) (enclosed : Bool) {d : Draft}, d.rest.length < bound → d.Live →
    Alike more last (operators level enclosed d) (operators level enclosed (d.followed more last))
  suffixes : ∀ {d : Draft}, d.rest.length < bound → d.Live →
    Alike more last (suffixes d) (suffixes (d.followed more last))
  arguments : ∀ {d : Draft} (count : Nat), d.rest.length < bound → d.Live →
    Parallel (fun _ => False) (fun r r' => Beside more last r.1 r'.1 ∧ r'.2 = r.2)
      (arguments d count) (arguments (d.followed more last) count)
  elements : ∀ {d : Draft}, d.rest.length < bound → d.Live →
    Alike more last (elements d) (elements (d.followed more last))
  members : ∀ {d : Draft}, d.rest.length < bound → d.Live →
    Alike more last (members d) (members (d.followed more last))

namespace Matching

variable {bound : Nat} (matching : Matching more last bound)
include matching

theorem operators_step (level : Nat) (enclosed : Bool) {d : Draft}
    (hbound : d.rest.length < bound + 1) (h : d.Live) :
    Alike more last (Precedence.operators level enclosed d)
      (Precedence.operators level enclosed (d.followed more last)) := by
  rw [operators_eq, operators_eq, h.peek_followed]
  split
  · exact parallel_error _
  · cases ho : BinaryOp.ofKind? d.peek.kind with
    | none => exact alike_ok ⟨h, rfl⟩
    | some o =>
        dsimp only
        split
        · exact alike_ok ⟨h, rfl⟩
        · have hnext : d.next.rest.length < d.rest.length :=
            Draft.length_next_lt fun hend => by rw [hend] at ho; cases ho
          have hlive : d.next.Live := h.next fun hbreak => by rw [hbreak] at ho; cases ho
          have hbegin : Beside more last (begin o d.next) (begin o (d.next.followed more last)) :=
            alike_begin hlive o
          rw [h.next_followed, hbegin.2]
          apply (matching.climb (o.level + 1) enclosed false (by rw [rest_begin]; omega)
            hbegin.1).bind
          intro d₁ hclimb hlive₁
          have hlt := length_climb_lt hclimb
          rw [rest_begin] at hlt
          have hconclude : Beside more last (concluding enclosed d₁)
              (concluding enclosed (d₁.followed more last)) := alike_concluding hlive₁ enclosed
          rw [hconclude.2]
          apply (alike_combine hconclude.1 o d.next.address).bind
          intro d₂ hcombine hlive₂
          have hrest := rest_of_combine hcombine
          rw [rest_concluding] at hrest
          exact matching.operators level enclosed (by rw [hrest]; omega) hlive₂

/-- An expression may begin on a line of its own. -/
theorem alike_operand {d : Draft} (hbound : d.rest.length < bound) (h : d.Live) :
    Alike more last (expression d.skipLineBreaks)
      (expression (d.followed more last).skipLineBreaks) := by
  have hskip := d.length_skipLineBreaks_le
  exact h.parallel_skipLineBreaks expression expression (fun _ h => stops_climb h 0 false true)
    (matching.climb 0 false true (by omega))

theorem suffixes_step {d : Draft} (hbound : d.rest.length < bound + 1) (h : d.Live) :
    Alike more last (Precedence.suffixes d) (Precedence.suffixes (d.followed more last)) := by
  rw [suffixes_eq, suffixes_eq, h.peek_followed]
  cases hkind : d.peek.kind
  case leftBracket =>
    have hnext := Draft.length_next_lt (d := d) (by rw [hkind]; decide)
    have hskip := d.next.length_skipLineBreaks_le
    have hlive : d.next.Live := h.next (by rw [hkind]; decide)
    rw [h.next_followed]
    apply (matching.alike_operand (by omega) hlive).bind
    intro d₁ hexpression hlive₁
    have hlt := length_climb_lt hexpression
    have hskip₁ := d₁.length_skipLineBreaks_le
    apply (hlive₁.alike_closing (by decide) (by decide)).bind
    intro d₂ hexpect hlive₂
    have hlt₂ := length_expect_lt (by decide) hexpect
    rw [hlive₂.emit_followed]
    exact matching.suffixes (by rw [Draft.rest_emit]; omega) (hlive₂.emitInstruction _)
  case dot =>
    have hnext := Draft.length_next_lt (d := d) (by rw [hkind]; decide)
    have hlive : d.next.Live := h.next (by rw [hkind]; decide)
    rw [h.next_followed]
    apply hlive.parallel_expectText (by decide)
    intro d₁ hexpect hlive₁
    have hlt := length_expect_lt (by decide) hexpect
    dsimp only
    rw [hlive₁.emitName_followed]
    exact matching.suffixes (by rw [Draft.rest_emitName]; omega) (hlive₁.emitInstruction _)
  all_goals exact alike_ok ⟨h, rfl⟩

theorem call_step {d : Draft} (name : Token) (hbound : d.rest.length < bound + 1) (h : d.Live)
    (hparen : d.peek.kind = .leftParen) :
    Alike more last (Precedence.call name d) (Precedence.call name (d.followed more last)) := by
  have hnext := Draft.length_next_lt (d := d) (by rw [hparen]; decide)
  have hskip := d.next.length_skipLineBreaks_le
  have hlive : d.next.Live := h.next (by rw [hparen]; decide)
  rw [call_eq, call_eq, h.next_followed]
  have harity : (d.followed more last).arity? name.text = d.arity? name.text := rfl
  rw [harity]
  cases d.arity? name.text with
  | none => exact parallel_error _
  | some arity =>
      have hgiven : Parallel (fun _ => False) (fun r r' => Beside more last r.1 r'.1 ∧ r'.2 = r.2)
          (if d.next.skipLineBreaks.sees .rightParen then .ok (d.next.skipLineBreaks, 0)
            else Precedence.arguments d.next.skipLineBreaks 0)
          (if (d.next.followed more last).skipLineBreaks.sees .rightParen then
            .ok ((d.next.followed more last).skipLineBreaks, 0)
            else Precedence.arguments (d.next.followed more last).skipLineBreaks 0) := by
        obtain hempty | ⟨hlive', heq⟩ := hlive.skipLineBreaks more last
        · rw [Draft.sees_eq_false hempty (by decide)]
          exact (stops_arguments hempty 0).parallel _
        · rw [heq, hlive'.sees_followed]
          split
          · exact .inr ⟨_, rfl, ⟨hlive', rfl⟩, rfl⟩
          · exact matching.arguments 0 (by omega) hlive'
      apply hgiven.bind (fun _ _ h => h.elim)
      rintro ⟨d₁, count⟩ ⟨d₁', count'⟩ - ⟨⟨hlive₁, heq⟩, hcount⟩
      dsimp only at hlive₁ heq hcount ⊢
      subst heq hcount
      apply (hlive₁.alike_closing (by decide) (by decide)).bind
      intro d₂ _ hlive₂
      split
      · exact alike_ok ⟨hlive₂.emitInstruction _, hlive₂.emitName_followed _ _⟩
      · exact parallel_error _

theorem primary_step (fresh : Bool) {d : Draft} (hbound : d.rest.length < bound + 1)
    (h : d.Live) :
    Alike more last (Precedence.primary fresh d)
      (Precedence.primary fresh (d.followed more last)) := by
  rw [primary_eq, primary_eq, h.peek_followed]
  by_cases hbreak : d.peek.kind = .lineBreak
  · rw [hbreak]
    exact parallel_error _
  have hlive : d.next.Live := h.next hbreak
  have hnext := Draft.length_next_lt h.kind_ne
  have hskip := d.next.length_skipLineBreaks_le
  rw [h.next_followed, h.peekSecond_followed hbreak]
  cases hkind : d.peek.kind
  case number | string | boolean | null =>
    exact alike_ok ⟨hlive.emitInstruction _, hlive.emitValue_followed _⟩
  case identifier =>
    dsimp only
    split
    · rename_i hparen
      exact matching.call_step d.peek (by omega) hlive (by rw [Draft.peek_next]; exact hparen)
    · change Parallel _ _ _ (if d.sees? d.peek.text then _ else _)
      split
      · exact alike_ok ⟨hlive.emitInstruction _, hlive.emitName_followed _ _⟩
      · exact parallel_error _
  case leftParen =>
    apply (matching.climb 0 true false (by omega) hlive).bind
    intro d₁ _ hlive₁
    exact alike_close hlive₁
  case leftBracket =>
    dsimp only
    split
    · have helements : Alike more last
          (Precedence.elements (d.next.skipLineBreaks.emit .list))
          (Precedence.elements ((d.next.followed more last).skipLineBreaks.emit .list)) := by
        refine hlive.parallel_skipLineBreaks (fun d => Precedence.elements (d.emit .list))
          (fun d => Precedence.elements (d.emit .list)) (fun _ h => stops_elements h) fun h => ?_
        rw [h.emit_followed]
        exact matching.elements (by rw [Draft.rest_emit]; omega) (h.emitInstruction _)
      apply helements.bind
      intro d₁ _ hlive₁
      exact hlive₁.alike_closing (by decide) (by decide)
    · exact parallel_error _
  case leftBrace =>
    have hmembers : Alike more last
        (Precedence.members (d.next.skipLineBreaks.emit .object))
        (Precedence.members ((d.next.followed more last).skipLineBreaks.emit .object)) := by
      refine hlive.parallel_skipLineBreaks (fun d => Precedence.members (d.emit .object))
        (fun d => Precedence.members (d.emit .object)) (fun _ h => stops_members h) fun h => ?_
      rw [h.emit_followed]
      exact matching.members (by rw [Draft.rest_emit]; omega) (h.emitInstruction _)
    apply hmembers.bind
    intro d₁ _ hlive₁
    exact hlive₁.alike_closing (by decide) (by decide)
  all_goals exact parallel_error _

theorem operand_step (enclosed fresh : Bool) {d : Draft} (hbound : d.rest.length < bound + 1)
    (h : d.Live) :
    Alike more last (Precedence.operand enclosed fresh d)
      (Precedence.operand enclosed fresh (d.followed more last)) := by
  rw [operand_eq, operand_eq, h.peek_followed]
  cases ho : UnaryOp.ofKind? d.peek.kind with
  | some o =>
      have hnext : d.next.rest.length < d.rest.length :=
        Draft.length_next_lt fun hend => by rw [hend] at ho; cases ho
      have hlive : d.next.Live := h.next fun hbreak => by rw [hbreak] at ho; cases ho
      dsimp only
      rw [h.next_followed]
      apply (matching.climb o.level enclosed false (by omega) hlive).bind
      intro d₁ _ hlive₁
      have hconclude : Beside more last (concluding enclosed d₁)
          (concluding enclosed (d₁.followed more last)) := alike_concluding hlive₁ enclosed
      rw [hconclude.2]
      exact alike_ok (alike_apply hconclude.1 o)
  | none =>
      apply (matching.primary_step fresh hbound h).bind
      intro d₁ hprimary hlive₁
      have hlt := length_primary_lt hprimary
      exact matching.suffixes (by omega) hlive₁

theorem climb_step (level : Nat) (enclosed fresh : Bool) {d : Draft}
    (hbound : d.rest.length < bound + 1) (h : d.Live) :
    Alike more last (Precedence.climb level enclosed fresh d)
      (Precedence.climb level enclosed fresh (d.followed more last)) := by
  rw [climb_eq, climb_eq]
  apply (matching.operand_step enclosed fresh hbound h).bind
  intro d₁ hoperand hlive₁
  have hlt := length_operand_lt hoperand
  exact matching.operators level enclosed (by omega) hlive₁

theorem arguments_step {d : Draft} (count : Nat) (hbound : d.rest.length < bound + 1)
    (h : d.Live) :
    Parallel (fun _ => False) (fun r r' => Beside more last r.1 r'.1 ∧ r'.2 = r.2)
      (Precedence.arguments d count) (Precedence.arguments (d.followed more last) count) := by
  rw [arguments_eq, arguments_eq]
  apply (matching.climb_step 0 false true hbound h).bind
  intro d₁ hexpression hlive₁
  have hlt := length_climb_lt hexpression
  exact hlive₁.parallel_item (Precedence.arguments · (count + 1))
    (Precedence.arguments · (count + 1)) (fun d => .ok (d, count + 1))
    (fun _ h => stops_arguments h (count + 1))
    (fun hless => matching.arguments (count + 1) (by omega)) (.inr ⟨_, rfl, ⟨hlive₁, rfl⟩, rfl⟩)

theorem elements_step {d : Draft} (hbound : d.rest.length < bound + 1) (h : d.Live) :
    Alike more last (Precedence.elements d) (Precedence.elements (d.followed more last)) := by
  rw [elements_eq, elements_eq, h.sees_followed]
  split
  · exact alike_ok ⟨h, rfl⟩
  · apply (matching.climb_step 0 false true hbound h).bind
    intro d₁ hexpression hlive₁
    have hlt := length_climb_lt hexpression
    have hlive₂ : (d₁.emit .append).Live := hlive₁.emitInstruction _
    rw [hlive₁.emit_followed]
    refine hlive₂.parallel_item Precedence.elements Precedence.elements .ok
      (fun _ h => stops_elements h) (fun hless => matching.elements ?_) (alike_ok ⟨hlive₂, rfl⟩)
    rw [Draft.rest_emit] at hless
    omega

theorem members_step {d : Draft} (hbound : d.rest.length < bound + 1) (h : d.Live) :
    Alike more last (Precedence.members d) (Precedence.members (d.followed more last)) := by
  rw [members_eq, members_eq, h.sees_followed]
  split
  · exact alike_ok ⟨h, rfl⟩
  · apply h.parallel_expectText (by decide)
    intro d₁ hname hlive₁
    have hlt₁ := length_expect_lt (by decide) hname
    apply (hlive₁.alike_expect (by decide)).bind
    intro d₂ hequal hlive₂
    have hlt₂ := length_expect_lt (by decide) hequal
    apply (matching.alike_operand (by omega) hlive₂).bind
    intro d₃ hexpression hlive₃
    have hlt₃ := length_climb_lt hexpression
    have hskip := d₂.length_skipLineBreaks_le
    have hlive₄ : (d₃.emitName .set d.peek.text).Live := hlive₃.emitInstruction _
    rw [hlive₃.emitName_followed]
    refine hlive₄.parallel_item Precedence.members Precedence.members .ok
      (fun _ h => stops_members h) (fun hless => matching.members ?_) (alike_ok ⟨hlive₄, rfl⟩)
    rw [Draft.rest_emitName] at hless
    omega

end Matching

theorem matching (more : List Token) (last : Int) (bound : Nat) : Matching more last bound := by
  induction bound with
  | zero => constructor <;> intros <;> omega
  | succ bound ih =>
      exact {
        climb := fun level enclosed fresh _ h => ih.climb_step level enclosed fresh h
        operators := fun level enclosed _ h => ih.operators_step level enclosed h
        suffixes := fun h => ih.suffixes_step h
        arguments := fun count h => ih.arguments_step count h
        elements := fun h => ih.elements_step h
        members := fun h => ih.members_step h }

end Precedence

/-- Both compilations read the same expression. -/
theorem alike_expression {more : List Token} {last : Int} {d : Draft} (h : d.Live) :
    Alike more last (expression d) (expression (d.followed more last)) := by
  rw [Precedence.expression_eq, Precedence.expression_eq]
  exact (Precedence.matching more last (d.rest.length + 1)).climb 0 false true
    (Nat.lt_succ_self _) h

/-- No expression begins at the end of the input. -/
theorem stops_expression {d : Draft} (h : d.rest = []) :
    Stops (fun _ => False) (expression d) := by
  rw [Precedence.expression_eq]
  exact Precedence.stops_climb h 0 false true

end LineScript.Compile
