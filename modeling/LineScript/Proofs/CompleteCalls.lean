/-
# What is accepted has complete calls

Wherever the compiler has come to without an error, every call that began before is either
closed, and then it has the arguments that it takes, or it is one the compiler is inside
of. Read off the tokens, this says what an expression does to the bracket around it: it is
an item of it, whatever brackets and commas it contains itself.

How far a bracket has got decides what can be said. An expression can come where the
bracket is not over yet; what follows a value comes where an item has begun; and what lies
inside a further bracket may contain commas and line breaks of that one.
-/

import LineScript.Proofs.CompilationSteps
import LineScript.Proofs.OpenCalls

namespace LineScript.Compile

open LineScript.Code

theorem bind_eq_ok {α β : Type} {r : Except CompileError α} {f : α → Except CompileError β} {b : β}
    (h : r >>= f = .ok b) : ∃ a, r = .ok a ∧ f a = .ok b := by
  cases r with
  | error e => cases h
  | ok a => exact ⟨a, rfl, h⟩

theorem of_ite_eq_ok {α : Type} {p : Prop} [Decidable p] {r : Except CompileError α} {e : CompileError}
    {a : α} (h : (if p then r else .error e) = .ok a) : r = .ok a := by
  split at h
  · exact h
  · cases h

/-! ## Tokens inside a bracket -/

/-- The kinds of opening brackets. -/
def isOpening : TokenKind → Bool
  | .leftParen | .leftBracket | .leftBrace => true
  | _ => false

/-- The kinds of closing brackets. -/
def isClosing : TokenKind → Bool
  | .rightParen | .rightBracket | .rightBrace => true
  | _ => false

/-- The kinds of tokens that are nothing but a part of an item. -/
def isPlain (kind : TokenKind) : Bool :=
  !isOpening kind && !isClosing kind && kind ≠ .comma && kind ≠ .lineBreak

namespace Inside

/-- An item can begin or go on. -/
def Ready (i : Inside) : Prop := i.stage ≠ .ended

/-- An item has begun. -/
def Begun (i : Inside) : Prop := i.stage = .begun

/-- An item has begun, and it is inside a further bracket. -/
def Nested (i : Inside) : Prop := i.stage = .begun ∧ 0 < i.depth

theorem Begun.ready {i : Inside} (h : i.Begun) : i.Ready := by
  unfold Ready
  rw [h]
  decide

theorem begun_item (i : Inside) : i.item.Begun := rfl

theorem read_plain {i : Inside} {t : Token} (hkind : isPlain t.kind = true) (hi : i.Ready) :
    i.read t = .unclosed i.item := by
  unfold read
  cases h : t.kind with
  | lineBreak | comma | leftParen | rightParen | leftBracket | rightBracket | leftBrace
  | rightBrace =>
      rw [h] at hkind
      cases hkind
  | _ =>
      dsimp only
      rw [if_neg hi]
      rfl

theorem read_opening {i : Inside} {t : Token} (hkind : isOpening t.kind = true) (hi : i.Ready) :
    i.read t = .unclosed { i with depth := i.depth + 1, stage := .begun } := by
  unfold read
  cases h : t.kind with
  | leftParen | leftBracket | leftBrace =>
      dsimp only
      rw [if_neg hi]
  | _ =>
      rw [h] at hkind
      cases hkind

theorem read_closing {i : Inside} {t : Token} (hkind : isClosing t.kind = true) :
    i.read t = if i.depth = 0 then i.close else .unclosed { i with depth := i.depth - 1 } := by
  unfold read
  cases h : t.kind with
  | rightParen | rightBracket | rightBrace => rfl
  | _ =>
      rw [h] at hkind
      cases hkind

theorem read_comma {i : Inside} {t : Token} (hkind : t.kind = .comma) (hi : i.Ready) :
    i.read t = .unclosed
      (if i.depth = 0 then { i with commas := i.commas + 1, stage := .fresh } else i) := by
  unfold read
  rw [hkind]
  dsimp only
  rw [if_neg hi]

theorem read_lineBreak (i : Inside) {t : Token} (hkind : t.kind = .lineBreak) :
    i.read t = .unclosed
      (if i.depth = 0 && i.stage = .begun then { i with stage := .ended } else i) := by
  unfold read
  rw [hkind]

theorem extent_of_read {i i' : Inside} {t : Token} (h : i.read t = .unclosed i')
    (rest : List Token) : i.extent (t :: rest) = i'.extent rest := by
  rw [extent, h]

/-- Line breaks only matter behind an item. -/
theorem extent_dropWhile {i : Inside} (h : i.stage ≠ .begun ∨ 0 < i.depth) (tokens : List Token) :
    i.extent (tokens.dropWhile fun t => t.kind = .lineBreak) = i.extent tokens := by
  induction tokens with
  | nil => rfl
  | cons t rest ih =>
      by_cases hkind : t.kind = .lineBreak
      · have hread : i.read t = .unclosed i := by
          rw [i.read_lineBreak hkind, if_neg]
          rintro hbegun
          simp only [Bool.and_eq_true, decide_eq_true_eq] at hbegun
          exact h.elim (fun hstage => hstage hbegun.2) fun hdepth => by omega
        rw [List.dropWhile_cons_of_pos (by simpa using hkind), extent_of_read hread]
        exact ih
      · rw [List.dropWhile_cons_of_neg (by simpa using hkind)]

/-- Behind an item, line breaks leave nothing but the closing bracket. -/
theorem extent_lineBreaks {i : Inside} (hstage : i.stage = .begun) (hdepth : i.depth = 0)
    {tokens : List Token} (hne : tokens ≠ [])
    (h : (tokens.dropWhile fun t => t.kind = .lineBreak) = []) :
    i.extent tokens = .unclosed { i with stage := .ended } := by
  cases tokens with
  | nil => exact absurd rfl hne
  | cons t rest =>
      have hkind : t.kind = .lineBreak := Decidable.byContradiction fun hkind => by
        rw [List.dropWhile_cons_of_neg (by simpa using hkind)] at h
        cases h
      rw [List.dropWhile_cons_of_pos (by simpa using hkind)] at h
      rw [extent_of_read (i.read_lineBreak hkind), if_pos (by simp [hstage, hdepth]),
        ← extent_dropWhile (.inl (show Stage.ended ≠ .begun by decide)), h]
      rfl

/-- Behind an item and line breaks the bracket may be closed. -/
theorem extent_of_closing {i : Inside} (hstage : i.stage ≠ .fresh) (hdepth : i.depth = 0)
    {tokens rest : List Token} {t : Token} (hkind : isClosing t.kind = true)
    (h : (tokens.dropWhile fun t => t.kind = .lineBreak) = t :: rest) :
    i.extent tokens = .closed (i.commas + 1) := by
  induction tokens generalizing i with
  | nil => cases h
  | cons u tokens ih =>
      by_cases hbreak : u.kind = .lineBreak
      · rw [List.dropWhile_cons_of_pos (by simpa using hbreak)] at h
        rw [extent_of_read (i.read_lineBreak hbreak)]
        split
        · exact ih (by simp) hdepth h
        · exact ih hstage hdepth h
      · rw [List.dropWhile_cons_of_neg (by simpa using hbreak)] at h
        cases h
        rw [extent, read_closing hkind, if_pos hdepth, close]
        cases hi : i.stage with
        | fresh => exact absurd hi hstage
        | begun | ended => rfl

end Inside

open Inside (Ready Begun Nested)

/-- Wherever a bracket stands as `P` says, the tokens up to the given rest are part of an
item. -/
def Spans (P : Inside → Prop) (tokens rest : List Token) : Prop :=
  ∀ i, P i → i.extent tokens = i.item.extent rest

namespace Spans

variable {P : Inside → Prop} {tokens rest rest' : List Token} {t u : Token}

theorem refl (tokens : List Token) : Spans Begun tokens tokens := by
  intro i hi
  rw [Inside.item_of_begun hi]

theorem trans (h : Spans P tokens rest) (h' : Spans Begun rest rest') : Spans P tokens rest' := by
  intro i hi
  rw [h i hi, h' i.item i.begun_item, Inside.item_item]

theorem nested (h : Spans Begun tokens rest) : Spans Nested tokens rest :=
  fun i hi => h i hi.1

theorem begun (h : Spans Ready tokens rest) : Spans Begun tokens rest :=
  fun i hi => h i hi.ready

theorem trans_nested (h : Spans Nested tokens rest) (h' : Spans Nested rest rest') :
    Spans Nested tokens rest' := by
  intro i hi
  rw [h i hi, h' i.item ⟨rfl, hi.2⟩, Inside.item_item]

theorem plain (hkind : isPlain t.kind = true) : Spans Ready (t :: rest) rest := by
  intro i hi
  rw [Inside.extent_of_read (Inside.read_plain hkind hi)]

theorem comma (hkind : t.kind = .comma) : Spans Nested (t :: rest) rest := by
  intro i hi
  have hread := Inside.read_comma hkind (Inside.Begun.ready hi.1)
  rw [if_neg (by have := hi.2; omega)] at hread
  rw [Inside.extent_of_read hread, Inside.item_of_begun hi.1]

theorem lineBreaks (tokens : List Token) :
    Spans Nested tokens (tokens.dropWhile fun t => t.kind = .lineBreak) := by
  intro i hi
  rw [Inside.item_of_begun hi.1, Inside.extent_dropWhile (.inr hi.2)]

/-- A bracket with what is inside is part of an item. -/
theorem bracket (hopen : isOpening t.kind = true) (hinner : Spans Nested rest (u :: rest'))
    (hclose : isClosing u.kind = true) : Spans Ready (t :: rest) rest' := by
  intro i hi
  have hnested : Nested { i with depth := i.depth + 1, stage := .begun } :=
    ⟨rfl, Nat.succ_pos _⟩
  rw [Inside.extent_of_read (Inside.read_opening hopen hi), hinner _ hnested]
  refine Inside.extent_of_read ?_ rest'
  rw [Inside.read_closing hclose]
  exact if_neg (Nat.succ_ne_zero i.depth)

end Spans

/-! ## Drafts -/

namespace Draft

/-- The arities of all functions that are known, or that the tokens left define. -/
def table (d : Draft) (name : String) : Option Nat := (d.arity? name).or (declared? name d.rest)

/-- Between two drafts, only calls went by that are right, and every function that was
defined is known. -/
structure Clears (d d' : Draft) : Prop where
  table_eq : d'.table = d.table
  calls_eq : ∃ before, calls d.rest = before ++ calls d'.rest ∧ ∀ call ∈ before, Right d.table call
  rest_subset : d'.rest ⊆ d.rest

namespace Clears

variable {d d₁ d₂ : Draft}

theorem trans (h : d.Clears d₁) (h' : d₁.Clears d₂) : d.Clears d₂ := by
  obtain ⟨before, hbefore, hright⟩ := h.calls_eq
  obtain ⟨before', hbefore', hright'⟩ := h'.calls_eq
  refine ⟨h'.table_eq.trans h.table_eq, ⟨before ++ before', ?_, ?_⟩,
    List.Subset.trans h'.rest_subset h.rest_subset⟩
  · rw [hbefore, hbefore', List.append_assoc]
  · rw [h.table_eq] at hright'
    exact List.forall_mem_append.mpr ⟨hright, hright'⟩

end Clears

/-- Between two drafts, neither a call nor a function went by. -/
structure Skips (d d' : Draft) : Prop where
  declared?_eq : ∀ name, declared? name d'.rest = declared? name d.rest
  calls_eq : calls d'.rest = calls d.rest
  arity?_eq : d'.arity? = d.arity?
  rest_subset : d'.rest ⊆ d.rest

namespace Skips

variable {d d₁ d₂ : Draft}

theorem trans (h : d.Skips d₁) (h' : d₁.Skips d₂) : d.Skips d₂ :=
  ⟨fun name => (h'.declared?_eq name).trans (h.declared?_eq name), h'.calls_eq.trans h.calls_eq,
    h'.arity?_eq.trans h.arity?_eq, List.Subset.trans h'.rest_subset h.rest_subset⟩

/-- What changes neither tokens nor names. -/
theorem of_eq (hrest : d₁.rest = d.rest) (harity : d₁.arity? = d.arity?) : d.Skips d₁ := by
  refine ⟨fun name => by rw [hrest], by rw [hrest], harity, ?_⟩
  rw [hrest]
  exact List.Subset.refl _

theorem refl (d : Draft) : d.Skips d := of_eq rfl rfl

theorem clears (h : d.Skips d₁) : d.Clears d₁ := by
  refine ⟨?_, ⟨[], h.calls_eq.symm, List.forall_mem_nil _⟩, h.rest_subset⟩
  funext name
  unfold table
  rw [h.arity?_eq, h.declared?_eq]

end Skips

theorem Clears.of_eq {d d₁ : Draft} (hrest : d₁.rest = d.rest) (harity : d₁.arity? = d.arity?) :
    d.Clears d₁ :=
  (Skips.of_eq hrest harity).clears

theorem Clears.refl (d : Draft) : d.Clears d := (Skips.refl d).clears

theorem arity?_eq_of_frame {d d' : Draft} (h : d'.frame = d.frame) : d'.arity? = d.arity? := by
  have harity := congrArg (fun x : Draft => x.arity?) h
  exact harity

variable {d d' : Draft}

theorem declared?_of_ne {t : Token} (h : t.kind ≠ .func) (name : String) (rest : List Token) :
    declared? name (t :: rest) = declared? name rest := by
  rw [declared?, if_neg (by simp [h])]

/-- A token goes by that begins neither a function nor a call. -/
theorem skips_next (hfunc : d.peek.kind ≠ .func)
    (hcall : d.peek.kind = .identifier → d.peekSecond.kind ≠ .leftParen) : d.Skips d.next := by
  cases hrest : d.rest with
  | nil =>
      have hnext : d.next = d := by
        unfold next
        rw [hrest]
      rw [hnext]
      exact .refl d
  | cons t rest =>
      have hpeek := peek_of_cons hrest
      have hnext : d.next.rest = rest := by rw [rest_next, hrest]; rfl
      rw [hpeek] at hfunc hcall
      refine ⟨fun name => ?_, ?_, arity?_eq_of_frame d.frame_next, ?_⟩
      · rw [hnext, hrest, declared?_of_ne hfunc]
      · rw [hnext, hrest]
        refine (calls_cons hfunc fun hkind u hu => ?_).symm
        obtain ⟨more, rfl⟩ := List.head?_eq_some_iff.mp hu
        rw [← peekSecond_of_cons hrest]
        exact hcall hkind
      · rw [hnext, hrest]
        exact List.subset_cons_self t rest

/-- The name of a function goes by that is called. -/
theorem calls_of_name (hname : d.peek.kind = .identifier)
    (hparen : d.peekSecond.kind = .leftParen) :
    d.next.table = d.table ∧
      calls d.rest = (d.peek.text, Inside.extent {} d.next.next.rest) :: calls d.next.rest := by
  rw [← peek_next] at hparen
  obtain ⟨rest, hrest⟩ := rest_eq_cons_of_peek (d := d) (by rw [hname]; decide)
  have hnext : d.next.rest = rest := by rw [rest_next, hrest]; rfl
  obtain ⟨inner, hinner⟩ := rest_eq_cons_of_peek (d := d.next) (by rw [hparen]; decide)
  have htail : d.next.next.rest = inner := by rw [rest_next, hinner]; rfl
  rw [hnext] at hinner
  constructor
  · have hfunc : d.peek.kind ≠ .func := by rw [hname]; decide
    funext n
    unfold table
    rw [arity?_eq_of_frame d.frame_next, hnext, hrest, declared?_of_ne hfunc]
  · rw [htail, hnext, hrest, hinner]
    exact calls_of_call hname hparen inner

theorem table_of_arity? {name : String} {arity : Nat} (h : d.arity? name = some arity) :
    d.table name = some arity := by
  unfold table
  rw [h]
  rfl

theorem skips_skipLineBreaks (d : Draft) : d.Skips d.skipLineBreaks := by
  refine keeps_skipLineBreaks (fun d' hkind h => h.trans ?_) (.refl d)
  exact skips_next (by rw [hkind]; decide) (by rw [hkind]; nofun)

theorem expect_eq_ok {kind : TokenKind} (h : d.expect kind = .ok d') :
    d.peek.kind = kind ∧ d' = d.next := (d.sound_expect kind).of_ok h

theorem expectText_eq_ok {kind : TokenKind} {r : String × Draft} (h : d.expectText kind = .ok r) :
    d.peek.kind = kind ∧ r = (d.peek.text, d.next) := by
  unfold expectText at h
  cases hexpect : d.expect kind with
  | error e =>
      rw [hexpect] at h
      cases h
  | ok after =>
      rw [hexpect] at h
      cases h
      obtain ⟨hkind, rfl⟩ := expect_eq_ok hexpect
      exact ⟨hkind, rfl⟩

end Draft

/-! ## Parts of expressions -/

/-- A name is part of an item. -/
theorem Spans.name {d : Draft} (h : d.peek.kind = .identifier) : Spans Ready d.rest d.next.rest := by
  obtain ⟨rest, hrest⟩ := Draft.rest_eq_cons_of_peek (d := d) (by rw [h]; decide)
  rw [Draft.rest_next, hrest]
  exact .plain (by rw [h]; rfl)

/-- Between two drafts, a part of an item with only right calls went by. -/
structure Passes (P : Inside → Prop) (d d' : Draft) : Prop where
  spans : Spans P d.rest d'.rest
  clears : d.Clears d'

namespace Passes

variable {P : Inside → Prop} {d d₁ d₂ : Draft}

theorem trans (h : Passes P d d₁) (h' : Passes Begun d₁ d₂) : Passes P d d₂ :=
  ⟨h.spans.trans h'.spans, h.clears.trans h'.clears⟩

theorem trans_nested (h : Passes Nested d d₁) (h' : Passes Nested d₁ d₂) : Passes Nested d d₂ :=
  ⟨h.spans.trans_nested h'.spans, h.clears.trans h'.clears⟩

theorem begun (h : Passes Ready d d₁) : Passes Begun d d₁ := ⟨h.spans.begun, h.clears⟩

theorem nested (h : Passes Begun d d₁) : Passes Nested d d₁ := ⟨h.spans.nested, h.clears⟩

/-- What changes neither tokens nor names. -/
theorem of_eq (hrest : d₁.rest = d.rest) (harity : d₁.arity? = d.arity?) : Passes Begun d d₁ := by
  refine ⟨?_, .of_eq hrest harity⟩
  rw [hrest]
  exact .refl _

theorem refl (d : Draft) : Passes Begun d d := of_eq rfl rfl

/-- A token that is part of an item goes by, unless it begins a call. -/
theorem next (hkind : isPlain d.peek.kind = true) (hend : d.peek.kind ≠ .endOfInput)
    (hfunc : d.peek.kind ≠ .func)
    (hcall : d.peek.kind = .identifier → d.peekSecond.kind ≠ .leftParen) : Passes Ready d d.next := by
  refine ⟨?_, (Draft.skips_next hfunc hcall).clears⟩
  obtain ⟨rest, hrest⟩ := Draft.rest_eq_cons_of_peek hend
  rw [Draft.rest_next, hrest]
  exact .plain hkind

theorem comma (hkind : d.peek.kind = .comma) : Passes Nested d d.next := by
  refine ⟨?_, (Draft.skips_next (by rw [hkind]; decide) (by rw [hkind]; nofun)).clears⟩
  obtain ⟨rest, hrest⟩ := Draft.rest_eq_cons_of_peek (d := d) (by rw [hkind]; decide)
  rw [Draft.rest_next, hrest]
  exact .comma hkind

theorem skipLineBreaks (d : Draft) : Passes Nested d d.skipLineBreaks := by
  refine ⟨?_, d.skips_skipLineBreaks.clears⟩
  rw [Draft.rest_skipLineBreaks]
  exact .lineBreaks _

/-- A bracket with what is inside goes by. -/
theorem bracket (hopen : isOpening d.peek.kind = true) (hinner : Passes Nested d.next d₁)
    (hclose : isClosing d₁.peek.kind = true) : Passes Ready d d₁.next := by
  have hne : ∀ {kind : TokenKind}, isOpening kind = true ∨ isClosing kind = true →
      kind ≠ .endOfInput ∧ kind ≠ .func ∧ kind ≠ .identifier := by
    intro kind
    cases kind <;> decide
  obtain ⟨hend, hfunc, hname⟩ := hne (.inl hopen)
  obtain ⟨hend₁, hfunc₁, hname₁⟩ := hne (.inr hclose)
  obtain ⟨rest, hrest⟩ := Draft.rest_eq_cons_of_peek hend
  obtain ⟨rest₁, hrest₁⟩ := Draft.rest_eq_cons_of_peek hend₁
  constructor
  · have hspans := hinner.spans
    rw [Draft.rest_next, hrest, hrest₁] at hspans
    rw [Draft.rest_next, hrest, hrest₁]
    exact .bracket hopen hspans hclose
  · have hfirst := Draft.skips_next hfunc fun h => absurd h hname
    have hlast := Draft.skips_next hfunc₁ fun h => absurd h hname₁
    exact (hfirst.clears.trans hinner.clears).trans hlast.clears

end Passes

/-! ## Expressions -/

namespace Precedence

/-- Before an item, line breaks do not matter. -/
theorem extent_skipLineBreaks (d : Draft) (count : Nat) :
    Inside.extent ⟨0, count, .fresh⟩ d.skipLineBreaks.rest =
      Inside.extent ⟨0, count, .fresh⟩ d.rest := by
  rw [Draft.rest_skipLineBreaks]
  exact Inside.extent_dropWhile (.inl (show Stage.fresh ≠ .begun by decide)) _

/-- A comma and the line breaks behind it, among items inside a bracket. -/
theorem passes_separator {d : Draft} (h : d.sees .comma = true) :
    Passes Nested d d.next.skipLineBreaks :=
  (Passes.comma (Draft.sees_iff.mp h)).trans_nested (.skipLineBreaks d.next)

/-- A comma and the line breaks behind it, among the items of a bracket itself. -/
theorem extent_separator {d : Draft} {count : Nat} (h : d.sees .comma = true) :
    Inside.extent ⟨0, count, .begun⟩ d.rest =
      Inside.extent ⟨0, count + 1, .fresh⟩ d.next.skipLineBreaks.rest := by
  have hcomma := Draft.sees_iff.mp h
  obtain ⟨rest, hrest⟩ := Draft.rest_eq_cons_of_peek (d := d) (by rw [hcomma]; decide)
  have hread : Inside.read ⟨0, count, .begun⟩ d.peek = .unclosed ⟨0, count + 1, .fresh⟩ :=
    Inside.read_comma hcomma nofun
  rw [extent_skipLineBreaks, hrest, Inside.extent_of_read hread, Draft.rest_next, hrest]
  rfl

theorem passes_closing {d d₁ d₂ : Draft} {kind : TokenKind} (hopen : isOpening d.peek.kind = true)
    (hinner : Passes Nested d.next d₁) (hclose : isClosing kind = true)
    (h : d₁.skipLineBreaks.expect kind = .ok d₂) : Passes Ready d d₂ := by
  obtain ⟨hkind, rfl⟩ := Draft.expect_eq_ok h
  exact .bracket hopen (hinner.trans_nested (.skipLineBreaks d₁)) (hkind ▸ hclose)

/-- The name of a member and the sign behind it. -/
theorem passes_member {d : Draft} (hname : d.peek.kind = .identifier)
    (hequal : d.next.peek.kind = .equal) : Passes Ready d d.next.next := by
  have hmember : Passes Ready d d.next := .next (by rw [hname]; rfl) (by rw [hname]; decide)
    (by rw [hname]; decide) (fun _ => by rw [← Draft.peek_next, hequal]; decide)
  have hsign : Passes Ready d.next d.next.next := .next (by rw [hequal]; rfl)
    (by rw [hequal]; decide) (by rw [hequal]; decide) (by rw [hequal]; nofun)
  exact hmember.trans hsign.begun

theorem passes_binary {d : Draft} {o : BinaryOp} (h : BinaryOp.ofKind? d.peek.kind = some o) :
    Passes Ready d d.next := by
  have hplain : isPlain o.kind = true ∧ o.kind ≠ .endOfInput ∧ o.kind ≠ .func ∧
      o.kind ≠ .identifier := by
    cases o <;> decide
  rw [BinaryOp.kind_of_ofKind? h] at hplain
  exact .next hplain.1 hplain.2.1 hplain.2.2.1 fun hname => absurd hname hplain.2.2.2

theorem passes_unary {d : Draft} {o : UnaryOp} (h : UnaryOp.ofKind? d.peek.kind = some o) :
    Passes Ready d d.next := by
  have hplain : isPlain o.kind = true ∧ o.kind ≠ .endOfInput ∧ o.kind ≠ .func ∧
      o.kind ≠ .identifier := by
    cases o <;> decide
  rw [UnaryOp.kind_of_ofKind? h] at hplain
  exact .next hplain.1 hplain.2.1 hplain.2.2.1 fun hname => absurd hname hplain.2.2.2

theorem passes_combine {o : BinaryOp} {address : Nat} {enclosed : Bool} {d d' : Draft}
    (h : combine o address (concluding enclosed d) = .ok d') : Passes Begun d d' := by
  have hrest := rest_of_combine h
  rw [rest_concluding] at hrest
  have harity : d'.arity? = d.arity? := by
    have hconcluding : (concluding enclosed d).arity? = d.arity? := by
      unfold concluding
      split <;> rfl
    rw [← hconcluding]
    unfold combine at h
    split at h
    · obtain ⟨body, -, rfl⟩ := Draft.patchHere_eq_ok h
      rfl
    · cases h
      rfl
  exact .of_eq hrest harity

theorem passes_begin (o : BinaryOp) (d : Draft) : Passes Begun d (begin o d) := by
  refine .of_eq (rest_begin o d) ?_
  unfold begin
  split <;> rfl

theorem passes_apply (o : UnaryOp) (enclosed : Bool) (d : Draft) :
    Passes Begun d (apply o (concluding enclosed d)) := by
  refine .of_eq (by rw [rest_apply, rest_concluding]) ?_
  unfold apply concluding
  split <;> split <;> rfl

theorem close_eq_ok {d d' : Draft} (h : close d = .ok d') :
    d.peek.kind = .rightParen ∧ d' = d.next := by
  unfold close at h
  split at h
  · rename_i hsees
    exact ⟨Draft.sees_iff.mp hsees, (Except.ok.inj h).symm⟩
  · cases h

/-- The arguments of a call, from one of them on, as the bracket around them sees them. -/
def Counts (tokens rest : List Token) (before after : Nat) : Prop :=
  before < after ∧
    Inside.extent ⟨0, before, .fresh⟩ tokens = Inside.extent ⟨0, after - 1, .begun⟩ rest

/-- Everything that the grammar reads is part of an item, as long as fewer than `bound`
tokens are left. -/
structure Passing (bound : Nat) : Prop where
  climb : ∀ {level : Nat} {enclosed fresh : Bool} {d d' : Draft}, d.rest.length < bound →
    climb level enclosed fresh d = .ok d' → Passes Ready d d'
  operators : ∀ {level : Nat} {enclosed : Bool} {d d' : Draft}, d.rest.length < bound →
    operators level enclosed d = .ok d' → Passes Begun d d'
  suffixes : ∀ {d d' : Draft}, d.rest.length < bound → suffixes d = .ok d' →
    d'.peek.kind ≠ .leftParen → Passes Begun d d'
  arguments : ∀ {d : Draft} {count : Nat} {r : Draft × Nat}, d.rest.length < bound →
    arguments d count = .ok r → Passes Nested d r.1 ∧ Counts d.rest r.1.rest count r.2
  elements : ∀ {d d' : Draft}, d.rest.length < bound → elements d = .ok d' → Passes Nested d d'
  members : ∀ {d d' : Draft}, d.rest.length < bound → members d = .ok d' → Passes Nested d d'

/-- What follows an expression begins no call. -/
theorem beginsValue_of_operators {level : Nat} {enclosed : Bool} {d d' : Draft}
    (h : operators level enclosed d = .ok d') : beginsValue d.peek.kind = false := by
  rw [operators_eq] at h
  split at h
  · cases h
  · rename_i hvalue
    exact Bool.not_eq_true _ ▸ hvalue

namespace Passing

variable {bound : Nat} (passing : Passing bound)
include passing

theorem operators_step {level : Nat} {enclosed : Bool} {d d' : Draft}
    (hbound : d.rest.length < bound + 1) (h : Precedence.operators level enclosed d = .ok d') :
    Passes Begun d d' := by
  rw [operators_eq] at h
  split at h
  · cases h
  split at h
  · cases h
    exact .refl d
  rename_i o ho
  split at h
  · cases h
    exact .refl d
  obtain ⟨d₁, hclimb, h⟩ := bind_eq_ok h
  obtain ⟨d₂, hcombine, h⟩ := bind_eq_ok h
  have hnext := passes_binary ho
  have hlt : d.next.rest.length < d.rest.length :=
    Draft.length_next_lt fun hend => by rw [hend] at ho; cases ho
  have hlt₁ := length_climb_lt hclimb
  have hrest := rest_of_combine hcombine
  rw [rest_begin] at hlt₁
  rw [rest_concluding] at hrest
  have hright := passing.climb (by rw [rest_begin]; omega) hclimb
  have hafter := passing.operators (by rw [hrest]; omega) h
  exact (((hnext.begun.trans (passes_begin o d.next)).trans hright.begun).trans
    (passes_combine hcombine)).trans hafter

theorem expression {d d' : Draft} (hbound : d.rest.length < bound)
    (h : Precedence.expression d = .ok d') : Passes Ready d d' :=
  passing.climb hbound h

theorem suffixes_step {d d' : Draft} (hbound : d.rest.length < bound + 1)
    (h : Precedence.suffixes d = .ok d') (hparen : d'.peek.kind ≠ .leftParen) :
    Passes Begun d d' := by
  rw [suffixes_eq] at h
  split at h
  · rename_i hkind
    obtain ⟨d₁, hexpression, h⟩ := bind_eq_ok h
    obtain ⟨d₂, hexpect, h⟩ := bind_eq_ok h
    have hlt := Draft.length_next_lt (d := d) (by rw [hkind]; decide)
    have hskip := d.next.length_skipLineBreaks_le
    have hlt₁ := length_climb_lt hexpression
    have hskip₁ := d₁.length_skipLineBreaks_le
    have hlt₂ := length_expect_lt (by decide) hexpect
    have hposition := passing.expression (by omega) hexpression
    have hindex := passes_closing (by rw [hkind]; rfl)
      ((Passes.skipLineBreaks d.next).trans_nested hposition.begun.nested) rfl hexpect
    have hemit : Passes Begun d₂ (d₂.emit .index) := .of_eq rfl rfl
    exact (hindex.begun.trans hemit).trans
      (passing.suffixes (by rw [Draft.rest_emit]; omega) h hparen)
  · rename_i hkind
    obtain ⟨⟨member, d₁⟩, hname, h⟩ := bind_eq_ok h
    obtain ⟨hidentifier, heq⟩ := Draft.expectText_eq_ok hname
    obtain ⟨rfl, rfl⟩ := Prod.mk.inj heq
    have hlt := Draft.length_next_lt (d := d) (by rw [hkind]; decide)
    have hlt₁ := Draft.length_next_lt (d := d.next) (by rw [hidentifier]; decide)
    have hdot : Passes Ready d d.next := .next (by rw [hkind]; rfl) (by rw [hkind]; decide)
      (by rw [hkind]; decide) (by rw [hkind]; nofun)
    -- Behind a parenthesis the suffixes end, so there is none behind the name.
    have hsecond : d.next.peekSecond.kind ≠ .leftParen := by
      intro hopen
      have hpeek : (d.next.next.emitName .get d.next.peek.text).peek.kind = .leftParen := by
        rw [← Draft.peek_next] at hopen
        exact hopen
      dsimp only at h
      rw [suffixes_eq, hpeek] at h
      cases h
      exact hparen hpeek
    have hmember : Passes Ready d.next d.next.next := .next (by rw [hidentifier]; rfl)
      (by rw [hidentifier]; decide) (by rw [hidentifier]; decide) fun _ => hsecond
    have hemit : Passes Begun d.next.next (d.next.next.emitName .get d.next.peek.text) :=
      .of_eq rfl rfl
    exact ((hdot.begun.trans hmember.begun).trans hemit).trans
      (passing.suffixes (by rw [Draft.rest_emitName]; omega) h hparen)
  · cases h
    exact .refl d

/-- A call that is accepted goes by with its arguments counted. -/
theorem call_step {d d' : Draft} {name : Token} (hbound : d.rest.length < bound + 1)
    (hkind : d.peek.kind = .leftParen) (h : Precedence.call name d = .ok d') :
    Passes Ready d d' ∧
      ∃ arity, d.arity? name.text = some arity ∧
        Inside.extent {} d.next.rest = .closed arity := by
  rw [call_eq] at h
  split at h
  · cases h
  rename_i arity harity
  obtain ⟨⟨d₁, count⟩, hgiven, h⟩ := bind_eq_ok h
  obtain ⟨d₂, hexpect, h⟩ := bind_eq_ok h
  dsimp only at hexpect h
  have hcount : count = arity := Decidable.byContradiction fun hne => by
    rw [if_neg hne] at h
    cases h
  rw [if_pos hcount] at h
  cases h
  have hlt := Draft.length_next_lt (d := d) (by rw [hkind]; decide)
  have hskip := d.next.length_skipLineBreaks_le
  obtain ⟨hclose, rfl⟩ := Draft.expect_eq_ok hexpect
  obtain ⟨rest, hrest⟩ := Draft.rest_eq_cons_of_peek (d := d₁.skipLineBreaks)
    (by rw [hclose]; decide)
  have hblank : Inside.extent {} d.next.skipLineBreaks.rest = Inside.extent {} d.next.rest :=
    extent_skipLineBreaks d.next 0
  have hinner : Passes Nested d.next d₁ ∧ Inside.extent {} d.next.rest = .closed count := by
    rw [← hblank]
    split at hgiven
    · rename_i hsees
      cases hgiven
      refine ⟨.skipLineBreaks d.next, ?_⟩
      have hparen := Draft.sees_iff.mp hsees
      obtain ⟨rest, hrest⟩ := Draft.rest_eq_cons_of_peek (d := d.next.skipLineBreaks)
        (by rw [hparen]; decide)
      rw [hrest, Inside.extent, Inside.read_closing (by rw [hparen]; rfl)]
      rfl
    · obtain ⟨hpasses, hlt, hcounts⟩ := passing.arguments (by omega) hgiven
      refine ⟨(Passes.skipLineBreaks d.next).trans_nested hpasses, ?_⟩
      rw [hcounts, Inside.extent_of_closing (by simp) rfl (t := d₁.skipLineBreaks.peek)
        (by rw [hclose]; rfl) (by rw [← Draft.rest_skipLineBreaks, hrest])]
      dsimp only at hlt ⊢
      rw [Nat.sub_add_cancel (by omega)]
  have hcall := passes_closing (by rw [hkind]; rfl) hinner.1 rfl hexpect
  have hemit : Passes Begun d₁.skipLineBreaks.next
      (d₁.skipLineBreaks.next.emitName .call name.text) := .of_eq rfl rfl
  exact ⟨hcall.trans hemit, arity, harity, hcount ▸ hinner.2⟩

/-- The name of a function and its call. -/
theorem passes_call {d d' : Draft} (hbound : d.rest.length < bound + 1)
    (hname : d.peek.kind = .identifier) (hparen : d.peekSecond.kind = .leftParen)
    (h : Precedence.call d.peek d.next = .ok d') : Passes Ready d d' := by
  have hlt := Draft.length_next_lt (d := d) (by rw [hname]; decide)
  have hpeek : d.next.peek.kind = .leftParen := by rw [Draft.peek_next]; exact hparen
  obtain ⟨hpasses, arity, harity, hclosed⟩ := passing.call_step (by omega) hpeek h
  obtain ⟨htable, hcalls⟩ := Draft.calls_of_name hname hparen
  have hright : Right d.table (d.peek.text, Inside.extent {} d.next.next.rest) := by
    refine ⟨arity, Draft.table_of_arity? ?_, hclosed⟩
    rw [← harity, Draft.arity?_eq_of_frame d.frame_next]
  have hclears := hpasses.clears
  refine ⟨(Spans.name hname).trans hpasses.spans.begun, ?_, ?_, ?_⟩
  · rw [hclears.table_eq, htable]
  · obtain ⟨before, hbefore, hall⟩ := hclears.calls_eq
    rw [htable] at hall
    refine ⟨(d.peek.text, _) :: before, ?_, List.forall_mem_cons.mpr ⟨hright, hall⟩⟩
    rw [hcalls, hbefore, List.cons_append]
  · have hrest : d.next.rest ⊆ d.rest := fun t ht => List.mem_of_mem_tail (d.rest_next ▸ ht)
    exact List.Subset.trans hclears.rest_subset hrest

theorem primary_step {fresh : Bool} {d d' : Draft} (hbound : d.rest.length < bound + 1)
    (h : Precedence.primary fresh d = .ok d') : Passes Ready d d' := by
  have hword : isPlain d.peek.kind = true → d.peek.kind ≠ .endOfInput → d.peek.kind ≠ .func →
      (d.peek.kind = .identifier → d.peekSecond.kind ≠ .leftParen) →
      ∀ i : Instruction, Passes Ready d (d.next.emitInstruction i) := by
    intro hplain hend hfunc hcall i
    have hnext : Passes Ready d d.next := .next hplain hend hfunc hcall
    exact hnext.trans (.of_eq rfl rfl)
  have hskip := d.next.length_skipLineBreaks_le
  have hlt : d.peek.kind ≠ .endOfInput → d.next.rest.length < d.rest.length :=
    Draft.length_next_lt
  have hopening : ∀ {op : Opcode} {d₁ d₂ : Draft} {kind : TokenKind}, isOpening d.peek.kind = true →
      Passes Nested (d.next.skipLineBreaks.emit op) d₁ → isClosing kind = true →
      d₁.skipLineBreaks.expect kind = .ok d₂ → Passes Ready d d₂ := by
    intro op d₁ d₂ kind hopen hinner hclose hexpect
    have hemit : Passes Begun d.next.skipLineBreaks (d.next.skipLineBreaks.emit op) := .of_eq rfl rfl
    exact passes_closing hopen ((Passes.skipLineBreaks d.next).trans_nested
      (hemit.nested.trans_nested hinner)) hclose hexpect
  rw [primary_eq] at h
  cases hkind : d.peek.kind
  all_goals rw [hkind] at h hword hlt hopening
  case number | string | boolean | null =>
    cases h
    exact hword rfl nofun nofun nofun _
  case identifier =>
    dsimp only at h
    split at h
    · rename_i hparen
      exact passing.passes_call hbound hkind hparen h
    · rename_i hparen
      split at h
      · cases h
        exact hword rfl nofun nofun (fun _ => hparen) _
      · cases h
  case leftParen =>
    obtain ⟨d₁, hclimb, hclose⟩ := bind_eq_ok h
    obtain ⟨hparen, rfl⟩ := close_eq_ok hclose
    have hinner := passing.climb (by have := hlt nofun; omega) hclimb
    exact .bracket (by rw [hkind]; rfl) hinner.begun.nested (by rw [hparen]; rfl)
  case leftBracket =>
    obtain ⟨d₁, helements, hexpect⟩ := bind_eq_ok (of_ite_eq_ok h)
    have hinner := passing.elements (by have := hlt nofun; rw [Draft.rest_emit]; omega) helements
    exact hopening rfl hinner rfl hexpect
  case leftBrace =>
    obtain ⟨d₁, hmembers, hexpect⟩ := bind_eq_ok h
    have hinner := passing.members (by have := hlt nofun; rw [Draft.rest_emit]; omega) hmembers
    exact hopening rfl hinner rfl hexpect
  all_goals cases h

theorem operand_step {enclosed fresh : Bool} {d d' : Draft} (hbound : d.rest.length < bound + 1)
    (h : Precedence.operand enclosed fresh d = .ok d') (hparen : d'.peek.kind ≠ .leftParen) :
    Passes Ready d d' := by
  rw [operand_eq] at h
  split at h
  · rename_i o ho
    obtain ⟨d₁, hclimb, h⟩ := bind_eq_ok h
    cases h
    have hlt : d.next.rest.length < d.rest.length :=
      Draft.length_next_lt fun hend => by rw [hend] at ho; cases ho
    exact ((passes_unary ho).trans (passing.climb (by omega) hclimb).begun).trans (passes_apply o enclosed d₁)
  · obtain ⟨d₁, hprimary, h⟩ := bind_eq_ok h
    have hlt := length_primary_lt hprimary
    exact (passing.primary_step hbound hprimary).trans (passing.suffixes (by omega) h hparen)

theorem climb_step {level : Nat} {enclosed fresh : Bool} {d d' : Draft}
    (hbound : d.rest.length < bound + 1) (h : Precedence.climb level enclosed fresh d = .ok d') :
    Passes Ready d d' := by
  rw [climb_eq] at h
  obtain ⟨d₁, hoperand, h⟩ := bind_eq_ok h
  have hlt := length_operand_lt hoperand
  have hparen : d₁.peek.kind ≠ .leftParen := by
    intro hkind
    have hvalue := beginsValue_of_operators h
    rw [hkind] at hvalue
    cases hvalue
  exact (passing.operand_step hbound hoperand hparen).trans (passing.operators (by omega) h)

theorem arguments_step {d : Draft} {count : Nat} {r : Draft × Nat}
    (hbound : d.rest.length < bound + 1) (h : Precedence.arguments d count = .ok r) :
    Passes Nested d r.1 ∧ Counts d.rest r.1.rest count r.2 := by
  rw [arguments_eq] at h
  obtain ⟨d₁, hexpression, h⟩ := bind_eq_ok h
  have hlt := length_climb_lt hexpression
  have hargument := passing.climb_step hbound hexpression
  have hitem : Inside.extent ⟨0, count, .fresh⟩ d.rest =
      Inside.extent ⟨0, count, .begun⟩ d₁.rest := hargument.spans _ nofun
  split at h
  · rename_i hsees
    have hnext := d₁.length_next_le
    have hskip := d₁.next.length_skipLineBreaks_le
    obtain ⟨hpasses, hlt', hcounts⟩ := passing.arguments (by omega) h
    refine ⟨(hargument.begun.nested.trans_nested (passes_separator hsees)).trans_nested hpasses,
      Nat.lt_of_succ_lt hlt', ?_⟩
    rw [hitem, extent_separator hsees, hcounts]
  · cases h
    exact ⟨hargument.begun.nested, Nat.lt_succ_self count, hitem⟩

theorem elements_step {d d' : Draft} (hbound : d.rest.length < bound + 1)
    (h : Precedence.elements d = .ok d') : Passes Nested d d' := by
  rw [elements_eq] at h
  split at h
  · cases h
    exact (Passes.refl d).nested
  obtain ⟨d₁, hexpression, h⟩ := bind_eq_ok h
  have hlt := length_climb_lt hexpression
  have hemit : Passes Begun d₁ (d₁.emit .append) := .of_eq rfl rfl
  have helement := ((passing.climb_step hbound hexpression).trans hemit).begun.nested
  split at h
  · rename_i hsees
    have hnext := (d₁.emit .append).length_next_le
    have hskip := (d₁.emit .append).next.length_skipLineBreaks_le
    rw [Draft.rest_emit] at hnext
    exact (helement.trans_nested (passes_separator hsees)).trans_nested
      (passing.elements (by omega) h)
  · cases h
    exact helement

theorem members_step {d d' : Draft} (hbound : d.rest.length < bound + 1)
    (h : Precedence.members d = .ok d') : Passes Nested d d' := by
  rw [members_eq] at h
  split at h
  · cases h
    exact (Passes.refl d).nested
  obtain ⟨⟨member, d₁⟩, hname, h⟩ := bind_eq_ok h
  obtain ⟨hidentifier, heq⟩ := Draft.expectText_eq_ok hname
  obtain ⟨rfl, rfl⟩ := Prod.mk.inj heq
  dsimp only at h
  obtain ⟨d₂, hexpect, h⟩ := bind_eq_ok h
  obtain ⟨hequal, rfl⟩ := Draft.expect_eq_ok hexpect
  obtain ⟨d₃, hexpression, h⟩ := bind_eq_ok h
  have hlt := Draft.length_next_lt (d := d) (by rw [hidentifier]; decide)
  have hlt₁ := Draft.length_next_lt (d := d.next) (by rw [hequal]; decide)
  have hskip := d.next.next.length_skipLineBreaks_le
  have hlt₂ := length_climb_lt hexpression
  have hvalue := passing.expression (by omega) hexpression
  have hemit : Passes Begun d₃ (d₃.emitName .set d.peek.text) := .of_eq rfl rfl
  have hall := ((passes_member hidentifier hequal).begun.nested.trans_nested
    (.skipLineBreaks d.next.next)).trans_nested (hvalue.trans hemit).begun.nested
  split at h
  · rename_i hsees
    have hnext := (d₃.emitName .set d.peek.text).length_next_le
    have hskip := (d₃.emitName .set d.peek.text).next.length_skipLineBreaks_le
    rw [Draft.rest_emitName] at hnext
    exact (hall.trans_nested (passes_separator hsees)).trans_nested (passing.members (by omega) h)
  · cases h
    exact hall

end Passing

theorem passing (bound : Nat) : Passing bound := by
  induction bound with
  | zero => constructor <;> intros <;> omega
  | succ bound ih =>
      exact {
        climb := fun hbound h => ih.climb_step hbound h
        operators := fun hbound h => ih.operators_step hbound h
        suffixes := fun hbound h hparen => ih.suffixes_step hbound h hparen
        arguments := fun hbound h => ih.arguments_step hbound h
        elements := fun hbound h => ih.elements_step hbound h
        members := fun hbound h => ih.members_step hbound h }

end Precedence

/-- An expression that is accepted is an item with right calls. -/
theorem passes_expression {d d' : Draft} (h : expression d = .ok d') : Passes Ready d d' := by
  rw [Precedence.expression_eq] at h
  exact (Precedence.passing (d.rest.length + 1)).expression (Nat.lt_succ_self _) h

end LineScript.Compile
