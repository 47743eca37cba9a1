/-
# Completing an expression

When the input ends inside an expression, it ends inside a bracket of it. Closing the
brackets completes the expression, if a value is put where one has just been asked for;
only a call asks for more, as many arguments as are missing. So a call has to be one that
can still get them: otherwise its parenthesis would be closed in vain.

How the tokens read so far go on being read is known from the comparison with a longer
input. What is added here is how the compiler goes on in the closing tokens.
-/

import LineScript.Proofs.CompleteCalls
import LineScript.Proofs.LongerInput
import LineScript.Proofs.WrittenExpressions

namespace LineScript.Compile

open LineScript.Code
open Inside (Ready Begun Nested)
open Draft (firstKind Beside)
open Precedence (isEnder)

/-! ## Results -/

/-- A result that the end of the input has led to: an error raised there, or what is there
when the input has ended. -/
def Ended {α : Type} (gone : α → Prop) : Except CompileError α → Prop
  | .ok a => gone a
  | .error e => e.atEnd = true

/-- An error raised at the end of the input. -/
abbrev CutOff {α : Type} (r : Except CompileError α) : Prop := Ended (fun _ => False) r

/-- A result that is as wanted, up to an internal error, which no script causes. -/
def Succeeds {α : Type} (good : α → Prop) : Except CompileError α → Prop
  | .ok a => good a
  | .error e => e.kind = .internalError

section

variable {α β : Type} {good : α → Prop} {fine gone : β → Prop} {r : Except CompileError α}
  {f : α → Except CompileError β}

theorem Ended.bind (h : Ended gone (r >>= f)) : CutOff r ∨ ∃ a, r = .ok a ∧ Ended gone (f a) := by
  cases r with
  | ok a => exact .inr ⟨a, rfl, h⟩
  | error e => exact .inl h

theorem CutOff.ended (h : CutOff r) : Ended good r := by
  cases r with
  | ok a => exact h.elim
  | error e => exact h

theorem Ended.of_bind_ok {g : α → β} (h : Ended gone (r >>= fun a => .ok (g a))) :
    Ended (fun a => gone (g a)) r := by
  cases r with
  | ok a => exact h
  | error e => exact h

theorem Succeeds.bind (h : Succeeds good r) (hf : ∀ a, good a → Succeeds fine (f a)) :
    Succeeds fine (r >>= f) := by
  cases r with
  | ok a => exact hf a h
  | error e => exact h

theorem succeeds_ok {a : α} (h : good a) : Succeeds good (.ok a) := h

theorem not_ended_at {gone : α → Prop} {t : Token} (h : t.kind ≠ .endOfInput)
    (cause : CompileCause) : ¬Ended gone (.error (.at_ t cause)) :=
  fun hend => h (of_decide_eq_true hend)

end

/-- A step that goes the same way with more input leaves tokens, and the same draft. -/
theorem Alike.eq_ok {r : Result} {r' : List Token → Int → Result} {d₁ : Draft}
    (h : ∀ more last, Alike more last r (r' more last)) (hr : r = .ok d₁) :
    d₁.Live ∧ ∀ more last, r' more last = .ok (d₁.followed more last) := by
  subst hr
  have hsame : ∀ more last, d₁.Live ∧ r' more last = .ok (d₁.followed more last) := by
    intro more last
    obtain hfalse | ⟨d', hd', hlive, rfl⟩ := h more last
    · exact hfalse.elim
    · exact ⟨hlive, hd'⟩
  exact ⟨(hsame [] 0).1, fun more last => (hsame more last).2⟩

theorem not_cutOff_patchHere (d : Draft) (address : Nat) : ¬CutOff (d.patchHere address) := by
  unfold Draft.patchHere
  split
  · exact id
  · exact Bool.false_ne_true

namespace Draft

variable {d d' : Draft}

/-- No call that is open in the tokens left is lost. -/
def CallsFit (d : Draft) : Prop := callsFit d.table d.rest = true

theorem Clears.callsFit (h : d.Clears d') (hfit : d.CallsFit) : d'.CallsFit := by
  obtain ⟨before, hbefore, -⟩ := h.calls_eq
  unfold CallsFit Compile.callsFit at hfit ⊢
  rw [hbefore, List.all_append] at hfit
  rw [h.table_eq]
  exact (Bool.and_eq_true_iff.mp hfit).2

theorem Skips.callsFit (h : d.Skips d') (hfit : d.CallsFit) : d'.CallsFit :=
  h.clears.callsFit hfit

/-! ## Closing tokens -/

/-- Where nothing but line breaks is left, what follows comes next. -/
theorem rest_skipLineBreaks_followed (h : d.skipLineBreaks.rest = []) (more : List Token)
    (hmore : firstKind more ≠ .lineBreak) (last : Int) :
    (d.followed more last).skipLineBreaks.rest = more := by
  rw [rest_skipLineBreaks] at h ⊢
  change (d.rest ++ more).dropWhile _ = more
  rw [List.dropWhile_append, h]
  change more.dropWhile _ = more
  cases more with
  | nil => rfl
  | cons t more => exact List.dropWhile_cons_of_neg (by simpa [firstKind] using hmore)

theorem not_cutOff_expect (h : d.Live) (kind : TokenKind) : ¬CutOff (d.expect kind) := by
  unfold expect
  split
  · exact id
  · exact not_ended_at h.kind_ne _

theorem not_cutOff_expectText (h : d.Live) (kind : TokenKind) : ¬CutOff (d.expectText kind) := by
  intro hcut
  have hexpect := not_cutOff_expect h kind
  unfold expectText at hcut
  cases hresult : d.expect kind with
  | ok d' =>
      rw [hresult] at hcut
      exact hcut
  | error e =>
      rw [hresult] at hcut hexpect
      exact hexpect hcut

/-- What has to be closed behind line breaks is not closed only if there is nothing left. -/
theorem rest_of_cutOff_closing (h : d.Live) {kind : TokenKind}
    (hcut : CutOff (d.skipLineBreaks.expect kind)) : d.skipLineBreaks.rest = [] := by
  obtain hempty | hbeside := h.skipLineBreaks [] 0
  · exact hempty
  · exact absurd hcut (not_cutOff_expect hbeside.1 kind)

theorem succeeds_expect {t : Token} {more : List Token} (hrest : d.rest = t :: more) :
    Succeeds (·.rest = more) (d.expect t.kind) := by
  rw [expect_of_kind (by rw [peek_of_cons hrest])]
  exact succeeds_ok (rest_next_of hrest)

/-- A closing bracket is read whether it comes next or not before line breaks. -/
theorem succeeds_closing {t : Token} {more : List Token} (hrest : d.rest = t :: more)
    (hkind : t.kind ≠ .lineBreak) : Succeeds (·.rest = more) (d.skipLineBreaks.expect t.kind) := by
  rw [skipLineBreaks_of_ne (by rwa [peek_of_cons hrest])]
  exact succeeds_expect hrest

end Draft

/-! ## Interruptions -/

/-- The tokens leave the bracket around them open. -/
def Sinks (P : Inside → Prop) (tokens : List Token) : Prop :=
  ∃ further, ∀ i, P i → i.extent tokens = .unclosed { i.item with depth := i.depth + further }

namespace Sinks

variable {P : Inside → Prop} {tokens rest : List Token} {t : Token}

theorem nil : Sinks Nested [] := by
  refine ⟨0, fun i hi => ?_⟩
  rw [Inside.item_of_begun hi.1]
  rfl

theorem spans (h : Sinks Begun rest) (hspans : Spans P tokens rest) : Sinks P tokens := by
  obtain ⟨further, hrest⟩ := h
  refine ⟨further, fun i hi => ?_⟩
  rw [hspans i hi, hrest i.item i.begun_item]
  rfl

theorem spans_nested (h : Sinks Nested rest) (hspans : Spans Nested tokens rest) :
    Sinks Nested tokens := by
  obtain ⟨further, hrest⟩ := h
  refine ⟨further, fun i hi => ?_⟩
  rw [hspans i hi, hrest i.item ⟨rfl, hi.2⟩]
  rfl

theorem begun (h : Sinks Ready tokens) : Sinks Begun tokens := by
  obtain ⟨further, hrest⟩ := h
  exact ⟨further, fun i hi => hrest i hi.ready⟩

theorem nested (h : Sinks Begun tokens) : Sinks Nested tokens := by
  obtain ⟨further, hrest⟩ := h
  exact ⟨further, fun i hi => hrest i hi.1⟩

theorem bracket (hopen : isOpening t.kind = true) (h : Sinks Nested rest) :
    Sinks Ready (t :: rest) := by
  obtain ⟨further, hrest⟩ := h
  refine ⟨further + 1, fun i hi => ?_⟩
  rw [Inside.extent_of_read (Inside.read_opening hopen hi), hrest _ ⟨rfl, Nat.succ_pos _⟩]
  unfold Inside.item
  dsimp only
  rw [Nat.add_assoc, Nat.add_comm 1]

end Sinks

/-- The kinds of tokens that a script can be completed with. -/
def isCloser : TokenKind → Bool
  | .number | .comma | .equal | .rightParen | .rightBracket | .rightBrace | .end_ => true
  | _ => false

/-- With tokens of the given kinds behind it, what was begun is complete, whatever follows
them that may follow it. -/
def CompletedBy {α : Type} (ender : TokenKind → Bool) (left : List Token → α → Prop)
    (f : Draft → Except CompileError α) (d : Draft) (kinds : List TokenKind) : Prop :=
  ∀ (ws more : List Token) (last : Int), ws.map (·.kind) = kinds → ender (firstKind more) = true →
    Succeeds (left more) (f (d.followed (ws ++ more) last))

/-- The input ends inside of what was begun, where the bracket around it is still open, and
it can be completed, with so many tokens at least. -/
structure Interrupted {α : Type} (P : Inside → Prop) (least : Nat) (ender : TokenKind → Bool)
    (left : List Token → α → Prop) (f : Draft → Except CompileError α) (d : Draft) : Prop where
  sinks : Sinks P d.rest
  completed : ∃ kinds, least ≤ kinds.length ∧ (∀ kind ∈ kinds, isCloser kind = true) ∧
    CompletedBy ender left f d kinds

/-- The tokens that are left. -/
abbrev Leaves (more : List Token) (d : Draft) : Prop := d.rest = more

theorem not_lineBreak_of_isCloser {kind : TokenKind} (h : isCloser kind = true) :
    kind ≠ .lineBreak := by
  rintro rfl
  cases h

theorem isCloser_of_isClosing {kind : TokenKind} (h : isClosing kind = true) :
    isCloser kind = true := by
  cases kind with
  | rightParen | rightBracket | rightBrace => rfl
  | _ => cases h

section

variable {α β : Type} {P : Inside → Prop} {ender ender' : TokenKind → Bool}
  {left : List Token → α → Prop} {left' : List Token → β → Prop}
  {f g : Draft → Except CompileError α} {d d₁ : Draft} {kinds : List TokenKind} {least : Nat}

/-- What was begun is completed first, and then what comes behind it. -/
theorem CompletedBy.bind {g : α → Except CompileError β} {behind : List TokenKind}
    (h : CompletedBy ender left f d kinds)
    (hender : ∀ {ws more : List Token}, ws.map (·.kind) = behind →
      ender' (firstKind more) = true → ender (firstKind (ws ++ more)) = true)
    (hg : ∀ {ws more : List Token} {a : α}, ws.map (·.kind) = behind →
      ender' (firstKind more) = true → left (ws ++ more) a → Succeeds (left' more) (g a)) :
    CompletedBy ender' left' (fun d => f d >>= g) d (kinds ++ behind) := by
  intro ws more last hws hmore
  obtain ⟨ws₁, ws₂, rfl, hws₁, hws₂⟩ := List.map_eq_append_iff.mp hws
  rw [List.append_assoc]
  exact (h ws₁ _ last hws₁ (hender hws₂ hmore)).bind fun a ha => hg hws₂ hmore ha

namespace Interrupted

theorem begun (h : Interrupted Ready least ender left f d) : Interrupted Begun least ender left f d :=
  ⟨h.sinks.begun, h.completed⟩

theorem nested (h : Interrupted Begun least ender left f d) :
    Interrupted Nested least ender left f d :=
  ⟨h.sinks.nested, h.completed⟩

theorem item (h : Interrupted P least ender left f d) : Interrupted P 0 ender left f d := by
  obtain ⟨kinds, -, hcompleted⟩ := h.completed
  exact ⟨h.sinks, kinds, Nat.zero_le _, hcompleted⟩

theorem weaken (h : Interrupted P least ender left f d)
    (hender : ∀ kind, ender' kind = true → ender kind = true) : Interrupted P least ender' left f d := by
  obtain ⟨kinds, hle, hclosers, hcompleted⟩ := h.completed
  exact ⟨h.sinks, kinds, hle, hclosers, fun ws more last hws hmore =>
    hcompleted ws more last hws (hender _ hmore)⟩

/-- What goes on behind tokens that are read is interrupted where it goes on. -/
theorem behind {Q : Inside → Prop} (h : Interrupted Q least ender left g d₁)
    (hsinks : Sinks Q d₁.rest → Sinks P d.rest)
    (heq : ∀ more last, f (d.followed more last) = g (d₁.followed more last)) :
    Interrupted P least ender left f d := by
  obtain ⟨kinds, hle, hclosers, hcompleted⟩ := h.completed
  refine ⟨hsinks h.sinks, kinds, hle, hclosers, ?_⟩
  intro ws more last hws hmore
  rw [heq]
  exact hcompleted ws more last hws hmore

theorem of_spans (h : Interrupted Begun least ender left g d₁) (hspans : Spans P d.rest d₁.rest)
    (heq : ∀ more last, f (d.followed more last) = g (d₁.followed more last)) :
    Interrupted P least ender left f d :=
  h.behind (·.spans hspans) heq

theorem of_nested (h : Interrupted Nested least ender left g d₁) (hspans : Spans Nested d.rest d₁.rest)
    (heq : ∀ more last, f (d.followed more last) = g (d₁.followed more last)) :
    Interrupted Nested least ender left f d :=
  h.behind (·.spans_nested hspans) heq

/-- Behind what is completed, nothing is missing. -/
theorem bind {g : α → Except CompileError β} {f' : Draft → Except CompileError β}
    (h : Interrupted P least ender left f d)
    (heq : ∀ more last, f' (d.followed more last) = f (d.followed more last) >>= g)
    (hg : ∀ {more : List Token} {a : α}, ender (firstKind more) = true → left more a →
      Succeeds (left' more) (g a)) : Interrupted P least ender left' f' d := by
  obtain ⟨kinds, hle, hclosers, hcompleted⟩ := h.completed
  refine ⟨h.sinks, kinds, hle, hclosers, ?_⟩
  intro ws more last hws hmore
  rw [heq]
  exact (hcompleted ws more last hws hmore).bind fun a ha => hg hmore ha

end Interrupted

namespace Draft.Live

theorem sinks_bracket (h : d.Live) (hopen : isOpening d.peek.kind = true)
    (hinside : Sinks Nested d.next.rest) : Sinks Ready d.rest := by
  obtain ⟨rest, hrest⟩ := h.rest_eq
  rw [rest_next, hrest] at hinside
  rw [hrest]
  exact hinside.bracket hopen

/-- What was begun on a new line is complete where it was complete itself, or, where the
line is missing, with what is missing. -/
theorem interrupted_skipLineBreaks (h : d.Live) (missing : List TokenKind)
    (hclosers : ∀ kind ∈ missing, isCloser kind = true)
    (hmissing : d.skipLineBreaks.rest = [] → ∀ {a : Draft} {ws more : List Token},
      ws.map (·.kind) = missing → ender (firstKind more) = true → a.rest = ws ++ more →
      Succeeds (left more) (f a))
    (hbreak : missing ≠ [] ∨ ender .lineBreak = false)
    (hlive : d.skipLineBreaks.Live → Interrupted Nested 0 ender left f d.skipLineBreaks) :
    Interrupted Nested 0 ender left (fun d => f d.skipLineBreaks) d := by
  have hspans : Spans Nested d.rest d.skipLineBreaks.rest := (Passes.skipLineBreaks d).spans
  obtain hempty | ⟨hskipped, -⟩ := h.skipLineBreaks [] 0
  · rw [hempty] at hspans
    refine ⟨Sinks.nil.spans_nested hspans, missing, Nat.zero_le _, hclosers, ?_⟩
    intro ws more last hws hmore
    refine hmissing hempty hws hmore (rest_skipLineBreaks_followed hempty (ws ++ more) ?_ last)
    cases ws with
    | nil =>
        intro hkind
        rw [List.nil_append] at hkind
        obtain hne | hender := hbreak
        · exact hne hws.symm
        · rw [hkind, hender] at hmore
          cases hmore
    | cons t ws => exact not_lineBreak_of_isCloser (hclosers t.kind (hws ▸ List.mem_cons_self))
  · refine (hlive hskipped).of_nested hspans fun more last => ?_
    obtain hempty | ⟨-, heq⟩ := h.skipLineBreaks more last
    · exact absurd hempty hskipped.rest_ne
    · rw [heq]

/-- A bracket whose inside is interrupted is completed and closed. -/
theorem interrupted_inside {f : Draft → Except CompileError α} {g : α → Result}
    {closing : TokenKind} (h : d.Live) (hopen : isOpening d.peek.kind = true)
    (hclose : isClosing closing = true) (hinside : Interrupted Nested 0 (· = closing) left f d.next)
    (hread : ∀ {t : Token} {more : List Token} {a : α}, t.kind = closing → left (t :: more) a →
      Succeeds (Leaves more) (g a)) :
    Interrupted Ready 1 isEnder Leaves (fun d => f d.next >>= g) d := by
  obtain ⟨kinds, -, hclosers, hcompleted⟩ := hinside.completed
  refine ⟨h.sinks_bracket hopen hinside.sinks, kinds ++ [closing], by simp, ?_, ?_⟩
  · exact List.forall_mem_append.mpr ⟨hclosers, by simpa using isCloser_of_isClosing hclose⟩
  · have hbind : CompletedBy isEnder Leaves (fun d => f d >>= g) d.next (kinds ++ [closing]) := by
      refine hcompleted.bind (fun {ws more} hws _ => ?_) fun {ws more a} hws _ ha => ?_
      · obtain ⟨t, rfl, ht⟩ := List.map_eq_singleton_iff.mp hws
        exact decide_eq_true ht
      · obtain ⟨t, rfl, ht⟩ := List.map_eq_singleton_iff.mp hws
        exact hread ht ha
    intro ws more last hws hmore
    dsimp only
    rw [h.next_followed]
    exact hbind ws more last hws hmore

/-- A bracket that is only not closed is closed. -/
theorem interrupted_closing {f : Draft → Result} (closing : TokenKind) (h : d.Live)
    (hopen : isOpening d.peek.kind = true) (hclose : isClosing closing = true)
    (hspans : Spans Nested d.next.rest [])
    (hread : ∀ (t : Token) (more : List Token) (last : Int), t.kind = closing →
      Succeeds (Leaves more) (f (d.followed (t :: more) last))) :
    Interrupted Ready 1 isEnder Leaves f d := by
  refine ⟨h.sinks_bracket hopen (Sinks.nil.spans_nested hspans), [closing], Nat.le_refl 1, ?_, ?_⟩
  · simpa using isCloser_of_isClosing hclose
  · intro ws more last hws _
    obtain ⟨t, rfl, ht⟩ := List.map_eq_singleton_iff.mp hws
    exact hread t more last ht

/-- A bracket that is not closed at the end of the input is completed, whether it is its
inside that is cut off or only the closing bracket that is missing. -/
theorem interrupted_bracket (f : Draft → Result) (closing : TokenKind) (h : d.Live)
    (hopen : isOpening d.peek.kind = true) (hclose : isClosing closing = true)
    (halike : ∀ more last, Alike more last (f d.next) (f (d.next.followed more last)))
    (hpasses : ∀ {d₁ : Draft}, f d.next = .ok d₁ → Passes Nested d.next d₁)
    (hinside : CutOff (f d.next) → Interrupted Nested 0 (· = closing) Leaves f d.next)
    (hcut : CutOff (f d.next >>= fun d₁ => d₁.skipLineBreaks.expect closing)) :
    Interrupted Ready 1 isEnder Leaves
      (fun d => f d.next >>= fun d₁ => d₁.skipLineBreaks.expect closing) d := by
  have hbreak : closing ≠ .lineBreak := not_lineBreak_of_isCloser (isCloser_of_isClosing hclose)
  obtain hcut | ⟨d₁, hd₁, hcut⟩ := hcut.bind
  · exact h.interrupted_inside hopen hclose (hinside hcut) fun ht hrest => by
      rw [← ht]
      exact succeeds_closing hrest (ht ▸ hbreak)
  · obtain ⟨hlive₁, hsame₁⟩ := Alike.eq_ok halike hd₁
    have hempty := rest_of_cutOff_closing hlive₁ hcut
    have hspans := ((hpasses hd₁).trans_nested (.skipLineBreaks d₁)).spans
    rw [hempty] at hspans
    refine h.interrupted_closing closing hopen hclose hspans fun t more last ht => ?_
    rw [h.next_followed, hsame₁, ok_bind, ← ht]
    have hkind : t.kind ≠ .lineBreak := ht ▸ hbreak
    exact succeeds_expect (rest_skipLineBreaks_followed hempty (t :: more) hkind last)

/-- Behind a comma the next item is completed, or what is missing there is added. -/
theorem interrupted_separator (h : d.Live) (hsees : d.sees .comma = true) (missing : List TokenKind)
    (hclosers : ∀ kind ∈ missing, isCloser kind = true)
    (hmissing : d.next.skipLineBreaks.rest = [] → ∀ {a : Draft} {ws more : List Token},
      ws.map (·.kind) = missing → ender (firstKind more) = true → a.rest = ws ++ more →
      Succeeds (left more) (f a))
    (hbreak : missing ≠ [] ∨ ender .lineBreak = false)
    (hlive : d.next.skipLineBreaks.Live → Interrupted Nested 0 ender left f d.next.skipLineBreaks) :
    Interrupted Nested 0 ender left (fun d => f d.next.skipLineBreaks) d := by
  have hcomma := sees_iff.mp hsees
  have hnext : d.next.Live := h.next (by rw [hcomma]; decide)
  refine (hnext.interrupted_skipLineBreaks missing hclosers hmissing hbreak hlive).of_nested
    (Passes.comma hcomma).spans fun more last => ?_
  rw [h.next_followed]

end Draft.Live

end

namespace Precedence

/-! ## Values that were missing -/

/-- A number is an expression. -/
theorem succeeds_number {level : Nat} {enclosed fresh : Bool} {d : Draft} {t : Token}
    {more : List Token} (hrest : d.rest = t :: more) (hkind : t.kind = .number)
    (hmore : isEnder (firstKind more) = true) :
    Succeeds (Leaves more) (climb level enclosed fresh d) := by
  have hpeek : d.peek.kind = .number := by rw [Draft.peek_of_cons hrest]; exact hkind
  have hnext : (d.next.emitValue d.peek.value).rest = more := Draft.rest_next_of hrest
  have hfollow : MayFollow level (d.next.emitValue d.peek.value).peek.kind := by
    rw [Draft.kind_peek_of hnext]
    exact (mayFollow_of_isEnder hmore).mono (Nat.zero_le level)
  rw [climb_eq, operand_eq, hpeek]
  change Succeeds _ ((primary fresh d >>= suffixes) >>= operators level enclosed)
  rw [primary_eq, hpeek]
  dsimp only
  rw [ok_bind, suffixes_of_mayFollow hfollow, ok_bind, operators_of_mayFollow hfollow]
  exact succeeds_ok hnext

/-- The kinds of the tokens of further arguments. -/
def further : Nat → List TokenKind
  | 0 => []
  | n + 1 => .comma :: .number :: further n

theorem isCloser_further (n : Nat) : ∀ kind ∈ further n, isCloser kind = true := by
  induction n with
  | zero => exact List.forall_mem_nil _
  | succ n ih => exact List.forall_mem_cons.mpr ⟨rfl, List.forall_mem_cons.mpr ⟨rfl, ih⟩⟩

/-- The kind of the closing parenthesis, which ends the arguments of a call. -/
def isRightParen (kind : TokenKind) : Bool := kind = .rightParen

/-- What is left behind all arguments of a call. -/
def LeavesRow (arity : Nat) (more : List Token) (r : Draft × Nat) : Prop :=
  r.1.rest = more ∧ r.2 = arity

theorem isEnder_further {n : Nat} {ws more : List Token} (hws : ws.map (·.kind) = further n)
    (hmore : isRightParen (firstKind more) = true) : isEnder (firstKind (ws ++ more)) = true := by
  cases n with
  | zero =>
      cases List.map_eq_nil_iff.mp hws
      rw [List.nil_append, of_decide_eq_true hmore]
      rfl
  | succ n =>
      obtain ⟨t, ws, rfl, ht, -⟩ := List.map_eq_cons_iff.mp hws
      change isEnder t.kind = true
      rw [ht]
      rfl

/-- Behind an argument the further ones are read. -/
theorem succeeds_further {n count : Nat} {d : Draft} {ws more : List Token}
    (hws : ws.map (·.kind) = further n) (hrest : d.rest = ws ++ more)
    (hmore : isRightParen (firstKind more) = true) :
    Succeeds (LeavesRow (count + n) more)
      (if d.sees .comma then arguments d.next.skipLineBreaks count else .ok (d, count)) := by
  induction n generalizing count d ws with
  | zero =>
      cases List.map_eq_nil_iff.mp hws
      rw [if_neg, Nat.add_zero]
      · exact succeeds_ok ⟨hrest, rfl⟩
      · rw [Draft.sees_iff, Draft.kind_peek_of hrest, List.nil_append, of_decide_eq_true hmore]
        decide
  | succ n ih =>
      obtain ⟨comma, ws, rfl, hcomma, hws⟩ := List.map_eq_cons_iff.mp hws
      obtain ⟨number, ws, rfl, hnumber, hws⟩ := List.map_eq_cons_iff.mp hws
      have hnext : d.next.rest = number :: (ws ++ more) := Draft.rest_next_of hrest
      rw [if_pos, Draft.skipLineBreaks_of_ne, arguments_eq]
      · refine (succeeds_number hnext hnumber (isEnder_further hws hmore)).bind ?_
        intro d₁ hd₁
        rw [show count + (n + 1) = count + 1 + n by omega]
        exact ih hws hd₁
      · rw [Draft.peek_of_cons hnext, hnumber]
        decide
      · rw [Draft.sees_iff, Draft.peek_of_cons hrest, hcomma]

/-- Where an argument is missing, numbers are read. -/
theorem succeeds_arguments {n count : Nat} {d : Draft} {ws more : List Token}
    (hws : ws.map (·.kind) = .number :: further n) (hrest : d.rest = ws ++ more)
    (hmore : isRightParen (firstKind more) = true) :
    Succeeds (LeavesRow (count + 1 + n) more) (arguments d count) := by
  obtain ⟨number, ws, rfl, hnumber, hws⟩ := List.map_eq_cons_iff.mp hws
  rw [arguments_eq]
  refine (succeeds_number hrest hnumber (isEnder_further hws hmore)).bind ?_
  exact fun d₁ hd₁ => succeeds_further hws hd₁ hmore

/-! ## What can be interrupted -/

/-- Compiles the arguments of a call from where the first one may be. -/
def given (d : Draft) : Except CompileError (Draft × Nat) :=
  if d.sees .rightParen then .ok (d, 0) else arguments d 0

/-- Closes a call and checks how many arguments it has. -/
def closeCall (name : Token) (arity : Nat) (r : Draft × Nat) : Result :=
  r.1.skipLineBreaks.expect .rightParen >>= fun d₂ =>
    if r.2 = arity then .ok (d₂.emitName .call name.text)
    else .error (.at_ name (.arityMismatch name.text arity r.2))

theorem call_of_arity? {name : Token} {arity : Nat} {d : Draft}
    (h : d.arity? name.text = some arity) :
    call name d = given d.next.skipLineBreaks >>= closeCall name arity := by
  rw [call_eq, h]
  rfl

/-- The kinds of the tokens of all arguments of a call. -/
def arguments? : Nat → List TokenKind
  | 0 => []
  | n + 1 => .number :: further n

theorem succeeds_given {arity : Nat} {d : Draft} {ws more : List Token}
    (hws : ws.map (·.kind) = arguments? arity) (hmore : isRightParen (firstKind more) = true)
    (hrest : d.rest = ws ++ more) : Succeeds (LeavesRow arity more) (given d) := by
  unfold given
  cases arity with
  | zero =>
      cases List.map_eq_nil_iff.mp hws
      rw [if_pos]
      · exact succeeds_ok ⟨hrest, rfl⟩
      · rw [Draft.sees_iff, Draft.kind_peek_of hrest]
        exact of_decide_eq_true hmore
  | succ n =>
      rw [if_neg]
      · rw [show n + 1 = 0 + 1 + n by omega]
        exact succeeds_arguments hws hrest hmore
      · obtain ⟨t, ws, rfl, ht, -⟩ := List.map_eq_cons_iff.mp hws
        rw [Draft.sees_iff, Draft.peek_of_cons hrest, ht]
        decide

theorem succeeds_closeCall {name : Token} {arity : Nat} {r : Draft × Nat} {t : Token}
    {more : List Token} (ht : t.kind = .rightParen) (h : LeavesRow arity (t :: more) r) :
    Succeeds (Leaves more) (closeCall name arity r) := by
  have hclose := Draft.succeeds_closing h.1 (by rw [ht]; decide)
  rw [ht] at hclose
  refine hclose.bind fun d₂ hd₂ => ?_
  rw [if_pos h.2]
  exact succeeds_ok hd₂

/-- An expression that the end of the input interrupts. -/
abbrev Stopped (P : Inside → Prop) (f : Draft → Result) (d : Draft) : Prop :=
  Interrupted P 1 isEnder Leaves f d

/-- Items inside a bracket of the given kind that the end of the input interrupts. -/
abbrev StoppedRow (closing : TokenKind) (f : Draft → Result) (d : Draft) : Prop :=
  Interrupted Nested 0 (· = closing) Leaves f d

/-- An item is completed before the closing bracket too. -/
theorem stoppedRow {closing : TokenKind} {least : Nat} {f : Draft → Result} {d : Draft}
    (h : Interrupted Nested least isEnder Leaves f d) (hclosing : isEnder closing = true) :
    StoppedRow closing f d :=
  h.item.weaken fun kind hkind => by rw [of_decide_eq_true hkind]; exact hclosing

/-- Behind a comma the next items are completed. Where they are missing, none is needed. -/
theorem StoppedRow.separator {closing : TokenKind} {items : Draft → Result} {d : Draft}
    (h : d.Live) (hsees : d.sees .comma = true) (hclosing : closing ≠ .lineBreak)
    (hsucceeds : ∀ {a : Draft} {more : List Token}, a.rest = more → firstKind more = closing →
      Succeeds (Leaves more) (items a))
    (hlive : d.next.skipLineBreaks.Live → StoppedRow closing items d.next.skipLineBreaks) :
    StoppedRow closing (fun a => items a.next.skipLineBreaks) d := by
  refine h.interrupted_separator hsees [] (List.forall_mem_nil _) (fun _ _ ws more hws hmore hrest => ?_)
    (.inr (decide_eq_false hclosing.symm)) hlive
  cases List.map_eq_nil_iff.mp hws
  exact hsucceeds hrest (of_decide_eq_true hmore)

/-- Arguments that the end of the input interrupts. -/
abbrev StoppedArguments (count arity : Nat) (d : Draft) : Prop :=
  Interrupted Nested 0 isRightParen (LeavesRow arity) (arguments · count) d

/-- Everything that the end of the input interrupts can be completed, as long as fewer than
`bound` tokens are left. -/
structure Completing (bound : Nat) : Prop where
  climb : ∀ (level : Nat) (enclosed fresh : Bool) {d : Draft}, d.rest.length < bound → d.Live →
    d.CallsFit → CutOff (climb level enclosed fresh d) → Stopped Ready (climb level enclosed fresh) d
  operators : ∀ (level : Nat) (enclosed : Bool) {d : Draft}, d.rest.length < bound → d.Live →
    d.CallsFit → CutOff (operators level enclosed d) → Stopped Begun (operators level enclosed) d
  suffixes : ∀ {d : Draft}, d.rest.length < bound → d.Live → d.CallsFit → CutOff (suffixes d) →
    Stopped Begun suffixes d
  arguments : ∀ {count arity : Nat} {d : Draft}, d.rest.length < bound → d.Live → d.CallsFit →
    (∀ i, Inside.extent ⟨0, count, .fresh⟩ d.rest = .unclosed i → i.fits arity = true) →
    CutOff (arguments d count) → StoppedArguments count arity d
  elements : ∀ {d : Draft}, d.rest.length < bound → d.Live → d.CallsFit → CutOff (elements d) →
    StoppedRow .rightBracket elements d
  members : ∀ {d : Draft}, d.rest.length < bound → d.Live → d.CallsFit → CutOff (members d) →
    StoppedRow .rightBrace members d

/-- The grammar reads the same with more input, wherever tokens are left. -/
theorem alike_climb (level : Nat) (enclosed fresh : Bool) {d : Draft} (h : d.Live)
    (more : List Token) (last : Int) :
    Alike more last (climb level enclosed fresh d)
      (climb level enclosed fresh (d.followed more last)) :=
  (matching more last (d.rest.length + 1)).climb level enclosed fresh (Nat.lt_succ_self _) h

/-- An expression that is read is read the same with more input. -/
theorem expression_followed {d d₁ : Draft} (h : d.Live) (hexpression : expression d = .ok d₁) :
    d₁.Live ∧ ∀ more last, expression (d.followed more last) = .ok (d₁.followed more last) :=
  Alike.eq_ok (alike_climb 0 false true h) hexpression

/-- Behind a completed value nothing is read. -/
theorem succeeds_operators {level : Nat} {enclosed : Bool} {d : Draft} {more : List Token}
    (hrest : d.rest = more) (hmore : isEnder (firstKind more) = true) :
    Succeeds (Leaves more) (operators level enclosed d) := by
  rw [operators_of_mayFollow]
  · exact succeeds_ok hrest
  · rw [Draft.kind_peek_of hrest]
    exact (mayFollow_of_isEnder hmore).mono (Nat.zero_le level)

theorem succeeds_suffixes {d : Draft} {more : List Token} (hrest : d.rest = more)
    (hmore : isEnder (firstKind more) = true) : Succeeds (Leaves more) (suffixes d) := by
  have hfollow : MayFollow 0 d.peek.kind := by
    rw [Draft.kind_peek_of hrest]
    exact mayFollow_of_isEnder hmore
  rw [suffixes_of_mayFollow hfollow]
  exact succeeds_ok hrest

theorem succeeds_combine {o : BinaryOp} {address : Nat} {d : Draft} :
    Succeeds (Leaves d.rest) (combine o address d) := by
  cases hcombine : combine o address d with
  | ok d' => exact rest_of_combine hcombine
  | error e => exact kind_of_combine hcombine

theorem not_cutOff_combine (o : BinaryOp) (address : Nat) (d : Draft) :
    ¬CutOff (combine o address d) := by
  unfold combine
  split
  · exact not_cutOff_patchHere _ address
  · exact id

theorem not_cutOff_missing {fresh : Bool} {d : Draft} (h : d.Live) :
    ¬CutOff (.error (missing fresh d.peek) : Result) := by
  unfold missing
  split
  · exact not_ended_at h.kind_ne _
  · exact not_ended_at h.kind_ne _

theorem not_cutOff_valueAfterValue {d : Draft} (h : d.Live) :
    ¬CutOff (.error (valueAfterValue d.peek) : Result) := by
  unfold valueAfterValue
  split
  all_goals exact not_ended_at h.kind_ne _

theorem not_cutOff_close {d : Draft} (h : d.Live) : ¬CutOff (close d) := by
  unfold close
  split
  · exact id
  · exact not_ended_at h.kind_ne _

/-- The last item of a bracket is followed by no comma. -/
theorem succeeds_last {d : Draft} {more : List Token} {closing : TokenKind} {f : Draft → Result}
    (hrest : d.rest = more) (hmore : firstKind more = closing) (hne : closing ≠ .comma) :
    Succeeds (Leaves more) (if d.sees .comma then f d.next.skipLineBreaks else .ok d) := by
  rw [if_neg]
  · exact succeeds_ok hrest
  · rw [Draft.sees_iff, Draft.kind_peek_of hrest, hmore]
    exact hne

/-- Before the closing bracket there are no further elements. -/
theorem succeeds_elements {d : Draft} {more : List Token} (hrest : d.rest = more)
    (hmore : firstKind more = .rightBracket) : Succeeds (Leaves more) (elements d) := by
  rw [elements_eq, if_pos (Draft.sees_iff.mpr (by rw [Draft.kind_peek_of hrest, hmore]))]
  exact succeeds_ok hrest

theorem succeeds_members {d : Draft} {more : List Token} (hrest : d.rest = more)
    (hmore : firstKind more = .rightBrace) : Succeeds (Leaves more) (members d) := by
  rw [members_eq, if_pos (Draft.sees_iff.mpr (by rw [Draft.kind_peek_of hrest, hmore]))]
  exact succeeds_ok hrest

/-- The arguments that are read are read the same with more input. -/
theorem given_followed {d d₁ : Draft} {count : Nat} (h : d.Live)
    (hgiven : given d.skipLineBreaks = .ok (d₁, count)) :
    d₁.Live ∧ ∀ more last, given (d.followed more last).skipLineBreaks =
      .ok (d₁.followed more last, count) := by
  have hlive : d.skipLineBreaks.Live := by
    obtain hempty | hbeside := h.skipLineBreaks [] 0
    · have hstops := stops_arguments hempty 0
      unfold given at hgiven
      rw [if_neg (by rw [Draft.sees_eq_false hempty (by decide)]; decide)] at hgiven
      rw [hgiven] at hstops
      exact hstops.elim
    · exact hbeside.1
  have hskip : ∀ more last, (d.followed more last).skipLineBreaks =
      d.skipLineBreaks.followed more last :=
    fun more last => ((h.skipLineBreaks more last).resolve_left hlive.rest_ne).2
  unfold given at hgiven
  split at hgiven
  · rename_i hsees
    cases hgiven
    refine ⟨hlive, fun more last => ?_⟩
    unfold given
    rw [hskip, hlive.sees_followed, if_pos hsees]
  · rename_i hsees
    have hsame : ∀ more last, d₁.Live ∧ given (d.followed more last).skipLineBreaks =
        .ok (d₁.followed more last, count) := by
      intro more last
      have hparallel := (matching more last _).arguments 0 (Nat.lt_succ_self _) hlive
      rw [hgiven] at hparallel
      obtain hfalse | ⟨⟨d₁', count'⟩, harguments, ⟨hlive₁, heq⟩, hcount⟩ := hparallel
      · exact hfalse.elim
      dsimp only at hlive₁ heq hcount
      subst heq hcount
      refine ⟨hlive₁, ?_⟩
      unfold given
      rw [hskip, hlive.sees_followed, if_neg hsees, harguments]
    exact ⟨(hsame [] 0).1, fun more last => (hsame more last).2⟩

/-- A call that is only not closed has all its arguments if it can still get them. -/
theorem count_of_given {d d₁ : Draft} {arity count : Nat} (hlive : d₁.Live)
    (hgiven : given d.skipLineBreaks = .ok (d₁, count)) (hempty : d₁.skipLineBreaks.rest = [])
    (hfits : ∀ i, Inside.extent {} d.rest = .unclosed i → i.fits arity = true) :
    Passes Nested d d₁ ∧ count = arity := by
  unfold given at hgiven
  split at hgiven
  · rename_i hsees
    cases hgiven
    rw [Draft.skipLineBreaks_of_ne (by rw [Draft.sees_iff.mp hsees]; decide)] at hempty
    exact absurd hempty hlive.rest_ne
  · obtain ⟨hpasses, hlt, hcounts⟩ := (passing _).arguments (Nat.lt_succ_self _) hgiven
    refine ⟨(Passes.skipLineBreaks d).trans_nested hpasses, ?_⟩
    have hblank : Inside.extent {} d.skipLineBreaks.rest = Inside.extent {} d.rest :=
      extent_skipLineBreaks d 0
    have hover := Inside.extent_lineBreaks (i := ⟨0, count - 1, .begun⟩) rfl rfl hlive.rest_ne
      (by rw [← Draft.rest_skipLineBreaks]; exact hempty)
    have hfit := hfits _ ((hblank.symm.trans hcounts).trans hover)
    have hcount : count - 1 + 1 = arity := of_decide_eq_true hfit
    rwa [Nat.sub_add_cancel (Nat.one_le_of_lt hlt)] at hcount

/-- A list or an object is completed with its items. They begin on a line of their own,
behind the instruction that makes the value they are put into. -/
theorem interrupted_items {items : Draft → Result} {op : Opcode} {closing : TokenKind} {d : Draft}
    (h : d.Live) (hfit : d.CallsFit) (hopen : isOpening d.peek.kind = true)
    (hclose : isClosing closing = true)
    (halike : ∀ {d : Draft}, d.Live → ∀ more last,
      Alike more last (items d) (items (d.followed more last)))
    (hpasses : ∀ {d d₁ : Draft}, items d = .ok d₁ → Passes Nested d d₁)
    (hstops : ∀ {d : Draft}, d.rest = [] → Stops (fun _ => False) (items d))
    (hsucceeds : ∀ {d : Draft} {more : List Token}, d.rest = more → firstKind more = closing →
      Succeeds (Leaves more) (items d))
    (hstopped : ∀ {d₁ : Draft}, d₁.rest.length < d.rest.length → d₁.Live → d₁.CallsFit →
      CutOff (items d₁) → StoppedRow closing items d₁)
    (hcut : CutOff (items (d.next.skipLineBreaks.emit op) >>= fun d₁ =>
      d₁.skipLineBreaks.expect closing)) :
    Stopped Ready (fun d => items (d.next.skipLineBreaks.emit op) >>= fun d₁ =>
      d₁.skipLineBreaks.expect closing) d := by
  have hbracket : ∀ {kind : TokenKind}, isOpening kind = true →
      kind ≠ .lineBreak ∧ kind ≠ .func ∧ kind ≠ .identifier := by
    intro kind
    cases kind <;> decide
  obtain ⟨hline, hfunc, hname⟩ := hbracket hopen
  have hbreak : closing ≠ .lineBreak := not_lineBreak_of_isCloser (isCloser_of_isClosing hclose)
  have hlt := Draft.length_next_lt h.kind_ne
  have hlive : d.next.Live := h.next hline
  have hnext : d.Skips d.next := Draft.skips_next hfunc fun h => absurd h hname
  refine h.interrupted_bracket (fun d => items (d.skipLineBreaks.emit op)) closing hopen hclose
    ?_ ?_ ?_ hcut
  · intro more last
    refine hlive.parallel_skipLineBreaks (fun d => items (d.emit op)) (fun d => items (d.emit op))
      (fun _ h => hstops h) fun h => ?_
    rw [h.emit_followed]
    exact halike (h.emitInstruction _) more last
  · intro d₁ hd₁
    have hemit : Passes Begun d.next.skipLineBreaks (d.next.skipLineBreaks.emit op) := .of_eq rfl rfl
    exact (Passes.skipLineBreaks d.next).trans_nested (hemit.nested.trans_nested (hpasses hd₁))
  · intro hcut
    refine hlive.interrupted_skipLineBreaks (f := fun d => items (d.emit op)) []
      (List.forall_mem_nil _) ?_ (.inr (decide_eq_false hbreak.symm)) fun hskipped => ?_
    · intro _ a ws more hws hmore hrest
      cases List.map_eq_nil_iff.mp hws
      exact hsucceeds (d := a.emit op) hrest (of_decide_eq_true hmore)
    · have hskip := d.next.length_skipLineBreaks_le
      have hemit : d.next.Skips (d.next.skipLineBreaks.emit op) :=
        d.next.skips_skipLineBreaks.trans (.of_eq rfl rfl)
      refine (hstopped (by rw [Draft.rest_emitInstruction]; omega) (hskipped.emitInstruction _)
        ((hnext.trans hemit).callsFit hfit) hcut).of_nested (Passes.of_eq rfl rfl).nested.spans ?_
      intro more last
      rw [hskipped.emit_followed]
      rfl

namespace Completing

variable {bound : Nat} (completing : Completing bound)
include completing

theorem operators_step (level : Nat) (enclosed : Bool) {d : Draft}
    (hbound : d.rest.length < bound + 1) (h : d.Live) (hfit : d.CallsFit)
    (hcut : CutOff (Precedence.operators level enclosed d)) :
    Stopped Begun (Precedence.operators level enclosed) d := by
  rw [operators_eq] at hcut
  split at hcut
  · exact absurd hcut (not_cutOff_valueAfterValue h)
  rename_i hvalue
  cases ho : BinaryOp.ofKind? d.peek.kind with
  | none =>
      rw [ho] at hcut
      exact hcut.elim
  | some o =>
      rw [ho] at hcut
      dsimp only at hcut
      split at hcut
      · exact hcut.elim
      rename_i hlevel
      have hlt : d.next.rest.length < d.rest.length :=
        Draft.length_next_lt fun hend => by rw [hend] at ho; cases ho
      have hlive : d.next.Live := h.next fun hbreak => by rw [hbreak] at ho; cases ho
      have hbegin : (begin o d.next).Live := (alike_begin hlive o : Beside [] 0 _ _).1
      have hpasses := (passes_binary ho).begun.trans (passes_begin o d.next)
      have heq : ∀ more last, Precedence.operators level enclosed (d.followed more last) =
          Precedence.climb (o.level + 1) enclosed false ((begin o d.next).followed more last) >>=
            fun d₁ => combine o d.next.address (concluding enclosed d₁) >>=
              Precedence.operators level enclosed := by
        intro more last
        rw [operators_eq, h.peek_followed, if_neg hvalue, ho]
        dsimp only
        rw [if_neg hlevel, h.next_followed, (alike_begin hlive o).2]
        rfl
      obtain hcut | ⟨d₁, hclimb, hcut⟩ := hcut.bind
      · -- The right operand is cut off; behind it the operator is emitted.
        have hright := completing.climb (o.level + 1) enclosed false (by rw [rest_begin]; omega)
          hbegin (hpasses.clears.callsFit hfit) hcut
        have hoperator : Stopped Ready (fun a =>
            Precedence.climb (o.level + 1) enclosed false a >>= fun d₁ =>
              combine o d.next.address (concluding enclosed d₁) >>=
                Precedence.operators level enclosed) (begin o d.next) := by
          refine hright.bind (g := fun d₁ => combine o d.next.address (concluding enclosed d₁) >>=
            Precedence.operators level enclosed) (fun _ _ => rfl) fun hmore hrest => ?_
          refine succeeds_combine.bind fun d₂ hd₂ => succeeds_operators ?_ hmore
          rw [hd₂, rest_concluding, hrest]
        exact hoperator.begun.of_spans hpasses.spans heq
      obtain hcut | ⟨d₂, hcombine, hcut⟩ := hcut.bind
      · exact absurd hcut (not_cutOff_combine _ _ _)
      obtain ⟨hlive₁, hsame₁⟩ := Alike.eq_ok (alike_climb _ _ _ hbegin) hclimb
      have hconclude : ∀ more last, Beside more last (concluding enclosed d₁)
          (concluding enclosed (d₁.followed more last)) :=
        fun _ _ => alike_concluding hlive₁ enclosed
      obtain ⟨hlive₂, hsame₂⟩ := Alike.eq_ok
        (fun _ _ => alike_combine (hconclude [] 0).1 o d.next.address) hcombine
      have hlt₁ := length_climb_lt hclimb
      have hrest := rest_of_combine hcombine
      rw [rest_begin] at hlt₁
      rw [rest_concluding] at hrest
      have hbefore := hpasses.trans
        (((passing _).climb (Nat.lt_succ_self _) hclimb).begun.trans (passes_combine hcombine))
      refine (completing.operators level enclosed (by rw [hrest]; omega) hlive₂
        (hbefore.clears.callsFit hfit) hcut).of_spans hbefore.spans fun more last => ?_
      rw [heq, hsame₁, ok_bind, (hconclude _ _).2, hsame₂, ok_bind]

/-! ### Brackets -/

/-- An expression that may begin on a line of its own. -/
theorem expression_step {d : Draft} (hbound : d.rest.length < bound) (h : d.Live)
    (hfit : d.CallsFit) (hcut : CutOff (expression d.skipLineBreaks)) :
    Interrupted Nested 0 isEnder Leaves (fun d => expression d.skipLineBreaks) d := by
  have hskip := d.length_skipLineBreaks_le
  refine h.interrupted_skipLineBreaks [.number] (by simp [isCloser]) ?_ (.inl nofun) ?_
  · intro _ a ws more hws hmore hrest
    obtain ⟨t, rfl, ht⟩ := List.map_eq_singleton_iff.mp hws
    exact succeeds_number hrest ht hmore
  · intro hlive
    exact (completing.climb 0 false true (by omega) hlive
      (d.skips_skipLineBreaks.callsFit hfit) hcut).begun.nested.item

theorem subscript_step {d : Draft} (hbound : d.rest.length < bound + 1) (h : d.Live)
    (hfit : d.CallsFit) (hkind : d.peek.kind = .leftBracket)
    (hcut : CutOff (Precedence.suffixes d)) : Stopped Begun Precedence.suffixes d := by
  have hlt := Draft.length_next_lt (d := d) (by rw [hkind]; decide)
  have hlive : d.next.Live := h.next (by rw [hkind]; decide)
  have hnext : d.Skips d.next := Draft.skips_next (by rw [hkind]; decide) (by rw [hkind]; nofun)
  have heq : ∀ d' : Draft, d'.peek.kind = .leftBracket → Precedence.suffixes d' =
      (expression d'.next.skipLineBreaks >>= fun d₁ => d₁.skipLineBreaks.expect .rightBracket) >>=
        fun d₂ => Precedence.suffixes (d₂.emit .index) := by
    intro d' hkind'
    rw [suffixes_eq, hkind', bind_assoc]
  have hfollowed := fun more last => heq (d.followed more last) (by rw [h.peek_followed]; exact hkind)
  have hposition : ∀ more last, Alike more last (expression d.next.skipLineBreaks)
      (expression (d.next.followed more last).skipLineBreaks) :=
    fun more last => (matching more last (d.rest.length + 1)).alike_operand (by omega) hlive
  have hpasses : ∀ {d₁ : Draft}, expression d.next.skipLineBreaks = .ok d₁ →
      Passes Nested d.next d₁ := by
    intro d₁ hd₁
    have hexpression := (passing _).expression (Nat.lt_succ_self _) hd₁
    exact (Passes.skipLineBreaks d.next).trans_nested hexpression.begun.nested
  rw [heq d hkind] at hcut
  obtain hcut | ⟨d₂, hindex, hcut⟩ := hcut.bind
  · have hbracket := h.interrupted_bracket (fun d => expression d.skipLineBreaks) .rightBracket
      (by rw [hkind]; rfl) rfl hposition hpasses
      (fun hcut => stoppedRow (completing.expression_step (by omega) hlive (hnext.callsFit hfit) hcut)
        rfl) hcut
    have hsubscript : Stopped Ready Precedence.suffixes d :=
      hbracket.bind hfollowed fun hmore hrest => succeeds_suffixes hrest hmore
    exact hsubscript.begun
  · have halike : ∀ more last, Alike more last
        (expression d.next.skipLineBreaks >>= fun d₁ => d₁.skipLineBreaks.expect .rightBracket)
        (expression (d.followed more last).next.skipLineBreaks >>= fun d₁ =>
          d₁.skipLineBreaks.expect .rightBracket) := by
      intro more last
      rw [h.next_followed]
      exact (hposition more last).bind fun d₁ _ hlive₁ =>
        hlive₁.alike_closing (by decide) (by decide)
    obtain ⟨hlive₂, hsame⟩ := Alike.eq_ok halike hindex
    obtain ⟨d₁, hexpression, hexpect⟩ := bind_eq_ok hindex
    have hlt₁ := length_climb_lt hexpression
    have hskip := d.next.length_skipLineBreaks_le
    have hskip₁ := d₁.length_skipLineBreaks_le
    have hlt₂ := length_expect_lt (by decide) hexpect
    have hemit : Passes Begun d₂ (d₂.emit .index) := .of_eq rfl rfl
    have hbefore := (passes_closing (by rw [hkind]; rfl) (hpasses hexpression) rfl
      hexpect).begun.trans hemit
    refine (completing.suffixes (by rw [Draft.rest_emitInstruction]; omega)
      (hlive₂.emitInstruction _) (hbefore.clears.callsFit hfit) hcut).of_spans hbefore.spans ?_
    intro more last
    rw [hfollowed, hsame, ok_bind, hlive₂.emit_followed]
    rfl

theorem member_step {d : Draft} (hbound : d.rest.length < bound + 1) (h : d.Live)
    (hfit : d.CallsFit) (hkind : d.peek.kind = .dot) (hcut : CutOff (Precedence.suffixes d)) :
    Stopped Begun Precedence.suffixes d := by
  have hlive : d.next.Live := h.next (by rw [hkind]; decide)
  rw [suffixes_eq, hkind] at hcut
  obtain hcut | ⟨⟨member, d₁⟩, hname, hcut⟩ := hcut.bind
  · exact absurd hcut (Draft.not_cutOff_expectText hlive _)
  obtain ⟨hidentifier, heq⟩ := Draft.expectText_eq_ok hname
  obtain ⟨rfl, rfl⟩ := Prod.mk.inj heq
  dsimp only at hcut
  have hlt := Draft.length_next_lt (d := d) (by rw [hkind]; decide)
  have hlt₁ := Draft.length_next_lt (d := d.next) (by rw [hidentifier]; decide)
  have hlive₁ : d.next.next.Live := hlive.next (by rw [hidentifier]; decide)
  have hdot : Passes Ready d d.next := .next (by rw [hkind]; rfl) (by rw [hkind]; decide)
    (by rw [hkind]; decide) (by rw [hkind]; nofun)
  -- Behind a parenthesis nothing is cut off, so there is none behind the name.
  have hsecond : d.next.peekSecond.kind ≠ .leftParen := by
    intro hopen
    have hpeek : (d.next.next.emitName .get d.next.peek.text).peek.kind = .leftParen := by
      rw [← Draft.peek_next] at hopen
      exact hopen
    rw [suffixes_eq, hpeek] at hcut
    exact hcut
  have hmember : Passes Ready d.next d.next.next := .next (by rw [hidentifier]; rfl)
    (by rw [hidentifier]; decide) (by rw [hidentifier]; decide) fun _ => hsecond
  have hemit : Passes Begun d.next.next (d.next.next.emitName .get d.next.peek.text) :=
    .of_eq rfl rfl
  have hbefore := (hdot.begun.trans hmember.begun).trans hemit
  refine (completing.suffixes (by rw [Draft.rest_emitInstruction]; omega)
    (hlive₁.emitInstruction _) (hbefore.clears.callsFit hfit) hcut).of_spans hbefore.spans ?_
  intro more last
  rw [suffixes_eq, h.peek_followed, hkind]
  dsimp only
  rw [h.next_followed, Draft.expectText_of_kind (by rw [hlive.peek_followed]; exact hidentifier),
    ok_bind, hlive.peek_followed, hlive.next_followed]
  dsimp only
  rw [hlive₁.emitName_followed]
  rfl

theorem suffixes_step {d : Draft} (hbound : d.rest.length < bound + 1) (h : d.Live)
    (hfit : d.CallsFit) (hcut : CutOff (Precedence.suffixes d)) :
    Stopped Begun Precedence.suffixes d := by
  by_cases hbracket : d.peek.kind = .leftBracket
  · exact completing.subscript_step hbound h hfit hbracket hcut
  by_cases hdot : d.peek.kind = .dot
  · exact completing.member_step hbound h hfit hdot hcut
  · rw [suffixes_eq] at hcut
    split at hcut
    · exact absurd ‹_› hbracket
    · exact absurd ‹_› hdot
    · exact hcut.elim

/-- The arguments of a call are completed up to as many as it takes. -/
theorem given_step {arity : Nat} {d : Draft} (hbound : d.rest.length < bound) (h : d.Live)
    (hfit : d.CallsFit)
    (hfits : ∀ i, Inside.extent {} d.rest = .unclosed i → i.fits arity = true)
    (hcut : CutOff (given d.skipLineBreaks)) :
    Interrupted Nested 0 isRightParen (LeavesRow arity) (fun d => given d.skipLineBreaks) d := by
  have hskip := d.length_skipLineBreaks_le
  have hclosers : ∀ kind ∈ arguments? arity, isCloser kind = true := by
    cases arity with
    | zero => exact List.forall_mem_nil _
    | succ n => exact List.forall_mem_cons.mpr ⟨rfl, isCloser_further n⟩
  refine h.interrupted_skipLineBreaks (arguments? arity) hclosers (fun _ => succeeds_given)
    (.inr rfl) ?_
  intro hlive
  unfold given at hcut
  split at hcut
  · exact hcut.elim
  rename_i hsees
  have hblank : Inside.extent {} d.skipLineBreaks.rest = Inside.extent {} d.rest :=
    extent_skipLineBreaks d 0
  have harguments := completing.arguments (by omega) hlive (d.skips_skipLineBreaks.callsFit hfit)
    (fun i hi => hfits i (hblank ▸ hi)) hcut
  refine harguments.of_nested (Passes.refl _).nested.spans fun more last => ?_
  unfold given
  rw [if_neg (by rw [hlive.sees_followed]; exact hsees)]

theorem call_step {name : Token} {d : Draft} (hbound : d.rest.length < bound + 1) (h : d.Live)
    (hfit : d.CallsFit) (hkind : d.peek.kind = .leftParen) (hname : name.kind ≠ .endOfInput)
    (hfits : ∀ arity i, d.arity? name.text = some arity →
      Inside.extent {} d.next.rest = .unclosed i → i.fits arity = true)
    (hcut : CutOff (Precedence.call name d)) : Stopped Ready (Precedence.call name) d := by
  have hlt := Draft.length_next_lt (d := d) (by rw [hkind]; decide)
  have hlive : d.next.Live := h.next (by rw [hkind]; decide)
  have hnext : d.Skips d.next := Draft.skips_next (by rw [hkind]; decide) (by rw [hkind]; nofun)
  have hopen : isOpening d.peek.kind = true := by rw [hkind]; rfl
  cases harity : d.arity? name.text with
  | none =>
      rw [call_eq, harity] at hcut
      exact absurd hcut (not_ended_at hname _)
  | some arity =>
      have heq : ∀ more last, Precedence.call name (d.followed more last) =
          given (d.followed more last).next.skipLineBreaks >>= closeCall name arity :=
        fun _ _ => call_of_arity? harity
      rw [call_of_arity? harity] at hcut
      obtain hcut | ⟨⟨d₁, count⟩, hgiven, hcut⟩ := hcut.bind
      · have hinside := completing.given_step (by omega) hlive (hnext.callsFit hfit)
          (fun i => hfits arity i harity) hcut
        have hcall : Stopped Ready (fun a => given a.next.skipLineBreaks >>= closeCall name arity) d :=
          h.interrupted_inside hopen rfl hinside succeeds_closeCall
        exact hcall.behind id heq
      · obtain ⟨hlive₁, hsame⟩ := given_followed hlive hgiven
        obtain hcut | ⟨d₂, -, hcut⟩ := hcut.bind
        · have hempty := Draft.rest_of_cutOff_closing hlive₁ hcut
          obtain ⟨hpasses, rfl⟩ :=
            count_of_given hlive₁ hgiven hempty (fun i => hfits arity i harity)
          have hspans := (hpasses.trans_nested (.skipLineBreaks d₁)).spans
          rw [hempty] at hspans
          refine h.interrupted_closing .rightParen hopen rfl hspans fun t more last ht => ?_
          have hrest := Draft.rest_skipLineBreaks_followed hempty (t :: more)
            (by change t.kind ≠ .lineBreak; rw [ht]; decide) last
          have hclose := Draft.succeeds_expect hrest
          rw [ht] at hclose
          rw [heq, h.next_followed, hsame, ok_bind]
          refine hclose.bind fun d₂ hd₂ => ?_
          rw [if_pos rfl]
          exact succeeds_ok hd₂
        · split at hcut
          · exact hcut.elim
          · exact absurd hcut (not_ended_at hname _)

/-- A grouping is completed with what it encloses. -/
theorem group_step {d : Draft} (hbound : d.rest.length < bound + 1) (h : d.Live) (hfit : d.CallsFit)
    (hkind : d.peek.kind = .leftParen) (hcut : CutOff (Precedence.climb 0 true false d.next >>= close)) :
    Stopped Ready (fun d => Precedence.climb 0 true false d.next >>= close) d := by
  have hlt := Draft.length_next_lt (d := d) (by rw [hkind]; decide)
  have hlive : d.next.Live := h.next (by rw [hkind]; decide)
  have hnext : d.Skips d.next := Draft.skips_next (by rw [hkind]; decide) (by rw [hkind]; nofun)
  obtain hcut | ⟨d₁, hclimb, hcut⟩ := hcut.bind
  · have hinside : StoppedRow .rightParen (Precedence.climb 0 true false) d.next :=
      stoppedRow (completing.climb 0 true false (by omega) hlive (hnext.callsFit hfit)
        hcut).begun.nested rfl
    refine h.interrupted_inside (by rw [hkind]; rfl) rfl hinside fun {t more d₁} ht hrest => ?_
    rw [close, if_pos (Draft.sees_iff.mpr (by rw [Draft.peek_of_cons hrest, ht]))]
    exact succeeds_ok (Draft.rest_next_of hrest)
  · exact absurd hcut (not_cutOff_close (Alike.eq_ok (alike_climb _ _ _ hlive) hclimb).1)

theorem list_step {d : Draft} (hbound : d.rest.length < bound + 1) (h : d.Live) (hfit : d.CallsFit)
    (hkind : d.peek.kind = .leftBracket)
    (hcut : CutOff (Precedence.elements (d.next.skipLineBreaks.emit .list) >>= fun d₁ =>
      d₁.skipLineBreaks.expect .rightBracket)) :
    Stopped Ready (fun d => Precedence.elements (d.next.skipLineBreaks.emit .list) >>= fun d₁ =>
      d₁.skipLineBreaks.expect .rightBracket) d :=
  interrupted_items h hfit (by rw [hkind]; rfl) rfl
    (fun h more last => (matching more last _).elements (Nat.lt_succ_self _) h)
    (fun h => (passing _).elements (Nat.lt_succ_self _) h) stops_elements succeeds_elements
    (fun hless => completing.elements (by omega)) hcut

theorem object_step {d : Draft} (hbound : d.rest.length < bound + 1) (h : d.Live) (hfit : d.CallsFit)
    (hkind : d.peek.kind = .leftBrace)
    (hcut : CutOff (Precedence.members (d.next.skipLineBreaks.emit .object) >>= fun d₁ =>
      d₁.skipLineBreaks.expect .rightBrace)) :
    Stopped Ready (fun d => Precedence.members (d.next.skipLineBreaks.emit .object) >>= fun d₁ =>
      d₁.skipLineBreaks.expect .rightBrace) d :=
  interrupted_items h hfit (by rw [hkind]; rfl) rfl
    (fun h more last => (matching more last _).members (Nat.lt_succ_self _) h)
    (fun h => (passing _).members (Nat.lt_succ_self _) h) stops_members succeeds_members
    (fun hless => completing.members (by omega)) hcut

theorem identifier_step {d : Draft} (hbound : d.rest.length < bound + 1) (h : d.Live)
    (hfit : d.CallsFit) (hname : d.peek.kind = .identifier) (hparen : d.peekSecond.kind = .leftParen)
    (hcut : CutOff (Precedence.call d.peek d.next)) :
    Stopped Ready (fun a => Precedence.call d.peek a.next) d := by
  have hlt := Draft.length_next_lt (d := d) (by rw [hname]; decide)
  have hlive : d.next.Live := h.next (by rw [hname]; decide)
  obtain ⟨htable, hcalls⟩ := Draft.calls_of_name hname hparen
  unfold Draft.CallsFit callsFit at hfit
  rw [hcalls, List.all_cons] at hfit
  obtain ⟨hcall, hrest⟩ := Bool.and_eq_true_iff.mp hfit
  have hnext : d.next.CallsFit := by
    unfold Draft.CallsFit callsFit
    rw [htable]
    exact hrest
  have hfits : ∀ arity i, d.next.arity? d.peek.text = some arity →
      Inside.extent {} d.next.next.rest = .unclosed i → i.fits arity = true := by
    intro arity i harity hopen
    rw [Draft.arity?_eq_of_frame d.frame_next] at harity
    dsimp only at hcall
    rw [Draft.table_of_arity? harity, hopen] at hcall
    exact hcall
  have hstopped := completing.call_step (by omega) hlive hnext
    (by rw [Draft.peek_next]; exact hparen) h.kind_ne hfits hcut
  exact hstopped.begun.of_spans (Spans.name hname) fun more last => by rw [h.next_followed]

theorem primary_step (fresh : Bool) {d : Draft} (hbound : d.rest.length < bound + 1) (h : d.Live)
    (hfit : d.CallsFit) (hcut : CutOff (Precedence.primary fresh d)) :
    Stopped Ready (Precedence.primary fresh) d := by
  rw [primary_eq] at hcut
  cases hkind : d.peek.kind
  all_goals rw [hkind] at hcut
  case number | string | boolean | null => exact hcut.elim
  case identifier =>
    dsimp only at hcut
    split at hcut
    · rename_i hparen
      refine (completing.identifier_step hbound h hfit hkind hparen hcut).behind id fun more last => ?_
      rw [primary_eq, h.peek_followed, hkind]
      dsimp only
      rw [h.peekSecond_followed (by rw [hkind]; decide), if_pos hparen]
    · split at hcut
      · exact hcut.elim
      · exact absurd hcut (not_ended_at h.kind_ne _)
  case leftParen =>
    exact (completing.group_step hbound h hfit hkind hcut).behind id fun more last => by
      rw [primary_eq, h.peek_followed, hkind]
  case leftBracket =>
    dsimp only at hcut
    split at hcut
    · rename_i hfresh
      refine (completing.list_step hbound h hfit hkind hcut).behind id fun more last => ?_
      rw [primary_eq, h.peek_followed, hkind]
      dsimp only
      rw [if_pos hfresh]
    · exact absurd hcut (not_ended_at h.kind_ne _)
  case leftBrace =>
    exact (completing.object_step hbound h hfit hkind hcut).behind id fun more last => by
      rw [primary_eq, h.peek_followed, hkind]
  case rightParen | dot => exact absurd hcut (not_ended_at h.kind_ne _)
  all_goals exact absurd hcut (not_cutOff_missing h)

theorem operand_step (enclosed fresh : Bool) {d : Draft} (hbound : d.rest.length < bound + 1)
    (h : d.Live) (hfit : d.CallsFit) (hcut : CutOff (Precedence.operand enclosed fresh d)) :
    Stopped Ready (Precedence.operand enclosed fresh) d := by
  have heq := fun more last => operand_eq enclosed fresh (d.followed more last)
  rw [operand_eq] at hcut
  cases ho : UnaryOp.ofKind? d.peek.kind with
  | some o =>
      rw [ho] at hcut
      obtain hcut | ⟨d₁, -, hcut⟩ := hcut.bind
      · have hlt : d.next.rest.length < d.rest.length :=
          Draft.length_next_lt fun hend => by rw [hend] at ho; cases ho
        have hlive : d.next.Live := h.next fun hbreak => by rw [hbreak] at ho; cases ho
        have hnext := passes_unary ho
        have hright := completing.climb o.level enclosed false (by omega) hlive
          (hnext.clears.callsFit hfit) hcut
        have hoperator : Stopped Ready (fun a => Precedence.climb o.level enclosed false a >>= fun d₁ =>
            .ok (apply o (concluding enclosed d₁))) d.next := by
          refine hright.bind (g := fun d₁ => .ok (apply o (concluding enclosed d₁)))
            (fun _ _ => rfl) fun _ hrest => succeeds_ok ?_
          rw [Leaves, rest_apply, rest_concluding, hrest]
        refine hoperator.begun.of_spans hnext.spans fun more last => ?_
        rw [heq, h.peek_followed, ho, h.next_followed]
        rfl
      · exact hcut.elim
  | none =>
      rw [ho] at hcut
      have hfollowed : ∀ more last, Precedence.operand enclosed fresh (d.followed more last) =
          Precedence.primary fresh (d.followed more last) >>= Precedence.suffixes := by
        intro more last
        rw [heq, h.peek_followed, ho]
      obtain hcut | ⟨d₁, hprimary, hcut⟩ := hcut.bind
      · exact (completing.primary_step fresh hbound h hfit hcut).bind hfollowed
          fun hmore hrest => succeeds_suffixes hrest hmore
      · have hlt := length_primary_lt hprimary
        have hpasses := (passing _).primary_step (Nat.lt_succ_self _) hprimary
        obtain ⟨hlive₁, hsame⟩ := Alike.eq_ok
          (fun more last => (matching more last _).primary_step fresh (Nat.lt_succ_self _) h) hprimary
        refine (completing.suffixes (by omega) hlive₁ (hpasses.clears.callsFit hfit)
          hcut).of_spans hpasses.spans fun more last => ?_
        rw [hfollowed, hsame, ok_bind]

theorem climb_step (level : Nat) (enclosed fresh : Bool) {d : Draft}
    (hbound : d.rest.length < bound + 1) (h : d.Live) (hfit : d.CallsFit)
    (hcut : CutOff (Precedence.climb level enclosed fresh d)) :
    Stopped Ready (Precedence.climb level enclosed fresh) d := by
  have heq := fun more last => climb_eq level enclosed fresh (d.followed more last)
  rw [climb_eq] at hcut
  obtain hcut | ⟨d₁, hoperand, hcut⟩ := hcut.bind
  · exact (completing.operand_step enclosed fresh hbound h hfit hcut).bind heq
      fun hmore hrest => succeeds_operators hrest hmore
  · have hlt := length_operand_lt hoperand
    obtain ⟨hlive₁, hsame⟩ := Alike.eq_ok
      (fun more last => (matching more last _).operand_step enclosed fresh (Nat.lt_succ_self _) h)
      hoperand
    have hparen : d₁.peek.kind ≠ .leftParen := by
      intro hkind
      rw [operators_eq, if_pos (by rw [hkind]; rfl)] at hcut
      exact not_cutOff_valueAfterValue hlive₁ hcut
    have hpasses := (passing _).operand_step (Nat.lt_succ_self _) hoperand hparen
    refine (completing.operators level enclosed (by omega) hlive₁ (hpasses.clears.callsFit hfit)
      hcut).of_spans hpasses.spans fun more last => ?_
    rw [heq, hsame, ok_bind]

/-! ### Items of brackets -/

theorem arguments_step {count arity : Nat} {d : Draft} (hbound : d.rest.length < bound + 1)
    (h : d.Live) (hfit : d.CallsFit)
    (hfits : ∀ i, Inside.extent ⟨0, count, .fresh⟩ d.rest = .unclosed i → i.fits arity = true)
    (hcut : CutOff (Precedence.arguments d count)) : StoppedArguments count arity d := by
  have heq := fun more last => arguments_eq (d.followed more last) count
  rw [arguments_eq] at hcut
  obtain hcut | ⟨d₁, hexpression, hcut⟩ := hcut.bind
  · have hstopped := completing.climb_step 0 false true hbound h hfit hcut
    -- The argument that is cut off has begun, so the call takes one more than are before it.
    have hless : count + 1 ≤ arity := by
      obtain ⟨further, hsinks⟩ := hstopped.sinks
      exact of_decide_eq_true (hfits _ (hsinks _ nofun))
    obtain ⟨n, rfl⟩ := Nat.exists_eq_add_of_le hless
    obtain ⟨kinds, -, hclosers, hcompleted⟩ := hstopped.completed
    refine ⟨hstopped.sinks.begun.nested, kinds ++ further n, Nat.zero_le _,
      List.forall_mem_append.mpr ⟨hclosers, isCloser_further n⟩, ?_⟩
    intro ws more last hws hmore
    dsimp only
    rw [heq]
    exact hcompleted.bind isEnder_further (fun hws hmore hrest => succeeds_further hws hrest hmore)
      ws more last hws hmore
  · have hlt := length_climb_lt hexpression
    have hpasses := (passing _).climb (Nat.lt_succ_self _) hexpression
    obtain ⟨hlive₁, hsame⟩ := expression_followed h hexpression
    split at hcut
    · rename_i hsees
      have hnext := d₁.length_next_le
      have hskip := d₁.next.length_skipLineBreaks_le
      have hargument : Inside.extent ⟨0, count, .fresh⟩ d.rest =
          Inside.extent ⟨0, count, .begun⟩ d₁.rest := hpasses.spans _ nofun
      have hitem := hargument.trans (extent_separator hsees)
      have hfit₁ := (passes_separator hsees).clears.callsFit (hpasses.clears.callsFit hfit)
      have hfurther : Interrupted Nested 0 isRightParen (LeavesRow arity)
          (fun a => Precedence.arguments a.next.skipLineBreaks (count + 1)) d₁ := by
        refine hlive₁.interrupted_separator (f := fun a => Precedence.arguments a (count + 1)) hsees
          (.number :: further (arity - (count + 2)))
          (List.forall_mem_cons.mpr ⟨rfl, isCloser_further _⟩) ?_ (.inl (List.cons_ne_nil _ _)) fun hlive₂ =>
          completing.arguments (by omega) hlive₂ hfit₁ (fun i hi => hfits i (hitem.trans hi)) hcut
        -- Where the comma is the last of the tokens, the call takes an argument behind it.
        intro hempty a ws more hws hmore hrest
        rw [hempty] at hitem
        have hless : count + 1 < arity := by
          have hfits := hfits _ hitem
          unfold Inside.fits at hfits
          simpa using hfits
        obtain ⟨n, rfl⟩ := Nat.exists_eq_add_of_le hless
        have hn : count + 1 + 1 + n - (count + 2) = n := by omega
        rw [hn] at hws
        exact succeeds_arguments hws hrest hmore
      refine hfurther.of_nested hpasses.spans.begun.nested fun more last => ?_
      rw [heq, hsame, ok_bind, if_pos (by rw [hlive₁.sees_followed]; exact hsees)]
    · exact hcut.elim

theorem elements_step {d : Draft} (hbound : d.rest.length < bound + 1) (h : d.Live)
    (hfit : d.CallsFit) (hcut : CutOff (Precedence.elements d)) :
    StoppedRow .rightBracket Precedence.elements d := by
  rw [elements_eq] at hcut
  split at hcut
  · exact hcut.elim
  rename_i hsees
  have heq : ∀ more last, Precedence.elements (d.followed more last) =
      expression (d.followed more last) >>= fun d₁ =>
        if (d₁.emit .append).sees .comma then
          Precedence.elements (d₁.emit .append).next.skipLineBreaks
        else .ok (d₁.emit .append) := by
    intro more last
    rw [elements_eq, if_neg (by rw [h.sees_followed]; exact hsees)]
  obtain hcut | ⟨d₁, hexpression, hcut⟩ := hcut.bind
  · have hstopped : StoppedRow .rightBracket expression d :=
      stoppedRow (completing.climb_step 0 false true hbound h hfit hcut).begun.nested rfl
    exact hstopped.bind heq fun {more d₁} hmore hrest =>
      succeeds_last (d := d₁.emit .append) hrest (of_decide_eq_true hmore) (by decide)
  · have hlt := length_climb_lt hexpression
    have hpasses := (passing _).climb (Nat.lt_succ_self _) hexpression
    obtain ⟨hlive₁, hsame⟩ := expression_followed h hexpression
    have hlive₂ : (d₁.emit .append).Live := hlive₁.emitInstruction _
    have hemit : Passes Begun d₁ (d₁.emit .append) := .of_eq rfl rfl
    have hbefore := hpasses.begun.trans hemit
    split at hcut
    · rename_i hsees
      have hnext := (d₁.emit .append).length_next_le
      have hskip := (d₁.emit .append).next.length_skipLineBreaks_le
      have hfit₂ := (passes_separator hsees).clears.callsFit (hbefore.clears.callsFit hfit)
      rw [Draft.rest_emit] at hnext
      have helements : StoppedRow .rightBracket
          (fun a => Precedence.elements a.next.skipLineBreaks) (d₁.emit .append) :=
        .separator hlive₂ hsees (by decide) succeeds_elements fun hlive₃ =>
          completing.elements (by omega) hlive₃ hfit₂ hcut
      refine helements.of_nested hbefore.spans.nested fun more last => ?_
      rw [heq, hsame, ok_bind, hlive₁.emit_followed,
        if_pos (by rw [hlive₂.sees_followed]; exact hsees)]
    · exact hcut.elim

theorem members_step {d : Draft} (hbound : d.rest.length < bound + 1) (h : d.Live)
    (hfit : d.CallsFit) (hcut : CutOff (Precedence.members d)) :
    StoppedRow .rightBrace Precedence.members d := by
  rw [members_eq] at hcut
  split at hcut
  · exact hcut.elim
  rename_i hsees
  obtain hcut | ⟨⟨member, d₁⟩, hname, hcut⟩ := hcut.bind
  · exact absurd hcut (Draft.not_cutOff_expectText h _)
  obtain ⟨hidentifier, heq⟩ := Draft.expectText_eq_ok hname
  obtain ⟨rfl, rfl⟩ := Prod.mk.inj heq
  have hlive₁ : d.next.Live := h.next (by rw [hidentifier]; decide)
  dsimp only at hcut
  obtain hcut | ⟨d₂, hexpect, hcut⟩ := hcut.bind
  · exact absurd hcut (Draft.not_cutOff_expect hlive₁ _)
  obtain ⟨hequal, rfl⟩ := Draft.expect_eq_ok hexpect
  have hlive₂ : d.next.next.Live := hlive₁.next (by rw [hequal]; decide)
  have hlt := Draft.length_next_lt (d := d) (by rw [hidentifier]; decide)
  have hlt₁ := Draft.length_next_lt (d := d.next) (by rw [hequal]; decide)
  have hmember := passes_member hidentifier hequal
  have hfit₂ := hmember.clears.callsFit hfit
  have heq : ∀ more last, Precedence.members (d.followed more last) =
      expression (d.next.next.followed more last).skipLineBreaks >>= fun d₃ =>
        if (d₃.emitName .set d.peek.text).sees .comma then
          Precedence.members (d₃.emitName .set d.peek.text).next.skipLineBreaks
        else .ok (d₃.emitName .set d.peek.text) := by
    intro more last
    rw [members_eq, if_neg (by rw [h.sees_followed]; exact hsees),
      Draft.expectText_of_kind (by rw [h.peek_followed]; exact hidentifier), ok_bind,
      h.peek_followed, h.next_followed]
    dsimp only
    rw [Draft.expect_of_kind (by rw [hlive₁.peek_followed]; exact hequal), ok_bind,
      hlive₁.next_followed]
  obtain hcut | ⟨d₃, hexpression, hcut⟩ := hcut.bind
  · have hstopped : StoppedRow .rightBrace (fun a => expression a.skipLineBreaks) d.next.next :=
      stoppedRow (completing.expression_step (by omega) hlive₂ hfit₂ hcut) rfl
    have hvalue : StoppedRow .rightBrace (fun a => expression a.skipLineBreaks >>= fun d₃ =>
        if (d₃.emitName .set d.peek.text).sees .comma then
          Precedence.members (d₃.emitName .set d.peek.text).next.skipLineBreaks
        else .ok (d₃.emitName .set d.peek.text)) d.next.next :=
      hstopped.bind (fun _ _ => rfl) fun {more d₃} hmore hrest =>
        succeeds_last (d := d₃.emitName .set d.peek.text) hrest (of_decide_eq_true hmore) (by decide)
    exact hvalue.of_nested hmember.spans.begun.nested heq
  · have hskip := d.next.next.length_skipLineBreaks_le
    have hlt₂ := length_climb_lt hexpression
    have hpasses := (passing _).expression (Nat.lt_succ_self _) hexpression
    obtain ⟨hlive₃, hsame⟩ := Alike.eq_ok (fun more last =>
      (matching more last (d.rest.length + 1)).alike_operand (by omega) hlive₂) hexpression
    have hlive₄ : (d₃.emitName .set d.peek.text).Live := hlive₃.emitInstruction _
    have hemit : Passes Begun d₃ (d₃.emitName .set d.peek.text) := .of_eq rfl rfl
    have hbefore := (hmember.begun.nested.trans_nested (.skipLineBreaks d.next.next)).trans_nested
      (hpasses.trans hemit).begun.nested
    split at hcut
    · rename_i hcomma
      have hnext := (d₃.emitName .set d.peek.text).length_next_le
      have hskip₁ := (d₃.emitName .set d.peek.text).next.length_skipLineBreaks_le
      have hfit₄ := (passes_separator hcomma).clears.callsFit (hbefore.clears.callsFit hfit)
      rw [Draft.rest_emitName] at hnext
      have hmembers : StoppedRow .rightBrace
          (fun a => Precedence.members a.next.skipLineBreaks) (d₃.emitName .set d.peek.text) :=
        .separator hlive₄ hcomma (by decide) succeeds_members fun hlive₅ =>
          completing.members (by omega) hlive₅ hfit₄ hcut
      refine hmembers.of_nested hbefore.spans fun more last => ?_
      rw [heq, hsame, ok_bind, hlive₃.emitName_followed,
        if_pos (by rw [hlive₄.sees_followed]; exact hcomma)]
    · exact hcut.elim

end Completing

theorem completing (bound : Nat) : Completing bound := by
  induction bound with
  | zero => constructor <;> intros <;> omega
  | succ bound ih =>
      exact {
        climb := fun level enclosed fresh _ hbound h hfit hcut =>
          ih.climb_step level enclosed fresh hbound h hfit hcut
        operators := fun level enclosed _ hbound h hfit hcut =>
          ih.operators_step level enclosed hbound h hfit hcut
        suffixes := fun hbound h hfit hcut => ih.suffixes_step hbound h hfit hcut
        arguments := fun hbound h hfit hfits hcut => ih.arguments_step hbound h hfit hfits hcut
        elements := fun hbound h hfit hcut => ih.elements_step hbound h hfit hcut
        members := fun hbound h hfit hcut => ih.members_step hbound h hfit hcut }

end Precedence

/-- An expression that the end of the input interrupts can be completed. -/
theorem interrupted_expression {d : Draft} (h : d.Live) (hfit : d.CallsFit)
    (hcut : CutOff (expression d)) : Interrupted Ready 1 isEnder Leaves expression d := by
  have heq : Compile.expression = Precedence.climb 0 false true := funext Precedence.expression_eq
  rw [heq] at hcut ⊢
  exact (Precedence.completing (d.rest.length + 1)).climb 0 false true (Nat.lt_succ_self _) h hfit hcut

/-- An expression that may begin on a line of its own, inside a bracket. -/
theorem interrupted_operand {d : Draft} (h : d.Live) (hfit : d.CallsFit)
    (hcut : CutOff (expression d.skipLineBreaks)) :
    Interrupted Nested 0 isEnder Leaves (fun d => expression d.skipLineBreaks) d := by
  have heq : Compile.expression = Precedence.climb 0 false true := funext Precedence.expression_eq
  rw [heq] at hcut ⊢
  exact (Precedence.completing (d.rest.length + 1)).expression_step (Nat.lt_succ_self _) h hfit hcut

end LineScript.Compile
