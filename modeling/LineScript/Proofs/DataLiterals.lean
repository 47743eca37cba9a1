/-
# Data as literals

Plain data are written as literals: constants, numerals with a minus in front where they are negative, lists
and objects. The compiler reads the tokens of data as these literals, so a line that returns data is compiled
to the return of the literal.

What is read is given by tokens without their lines here, as they come out of a text. In rendered trees a
constant also has another text; the compiler looks at the value of a constant only.
-/

import LineScript.Proofs.SpelledData
import LineScript.Proofs.WrittenStatements

namespace LineScript.Machine.Data

open LineScript.Tree

/-! ## Literals -/

/-- The literal of a number. -/
def numberExpr (x : Float) : Expr :=
  if isNegative x then .unary .minus (.literal (.ofNumber (-x))) else .literal (.ofNumber x)

mutual

/-- The literal of data. -/
def expr : Data → Expr
  | .null => .null
  | .number x => numberExpr x
  | .string s => .literal (.ofString s)
  | .boolean b => .literal (.ofBool b)
  | .list items => .list (exprs items)
  | .object members => .object (memberExprs members)

/-- The literals of the elements of a list. -/
def exprs : List Data → Exprs
  | [] => .nil
  | item :: rest => .cons (expr item) (exprs rest)

/-- The literals of the members of an object. -/
def memberExprs : List (String × Data) → Members
  | [] => .nil
  | (key, member) :: rest => .cons key (expr member) (memberExprs rest)

end

end LineScript.Machine.Data

namespace LineScript.Compile

open LineScript.Code LineScript.Tree LineScript.Token LineScript.Machine
open LineScript.Compile.Draft (firstKind kind_peek peek_of_cons rest_next_of skipLineBreaks_of_ne
  expect_of_kind expectText_of_kind expectLineEnd_of_kind sees_iff moves_silent moves_symbol)
open LineScript.Compile.Precedence

/-! ## Tokens to come -/

/-- The tokens that come next, wherever they stand. -/
def Draft.Awaits (d : Draft) (tokens : List Token) : Prop := d.rest.map unplaced = tokens

namespace Draft.Awaits

variable {d : Draft} {t : Token} {tokens : List Token}

theorem kind_eq (h : d.Awaits tokens) : d.peek.kind = firstKind tokens := by
  rw [kind_peek, ← h]
  cases d.rest <;> rfl

theorem peek_eq (h : d.Awaits (t :: tokens)) : d.peek.unplaced = t := by
  obtain ⟨u, rest, hrest, hu, -⟩ := List.map_eq_cons_iff.mp h
  rw [peek_of_cons hrest, hu]

theorem value_eq (h : d.Awaits (t :: tokens)) : d.peek.value = t.value := by
  rw [← h.peek_eq]
  rfl

theorem text_eq (h : d.Awaits (t :: tokens)) : d.peek.text = t.text := by
  rw [← h.peek_eq]
  rfl

theorem next (h : d.Awaits (t :: tokens)) : d.next.Awaits tokens := by
  obtain ⟨u, rest, hrest, -, hmore⟩ := List.map_eq_cons_iff.mp h
  rw [Awaits, rest_next_of hrest, hmore]

/-- An expression begins right here. -/
theorem skipLineBreaks_eq (h : d.Awaits tokens) (hkind : firstKind tokens ≠ .lineBreak) :
    d.skipLineBreaks = d :=
  skipLineBreaks_of_ne (by rw [h.kind_eq]; exact hkind)

end Draft.Awaits

/-! ## Tokens read as literals -/

/-- Tokens are read as an expression, up to what ends it. -/
structure ReadAs (tokens : List Token) (e : Expr) : Prop where
  begins : beginsExpression (firstKind tokens) = true
  reads : ∀ {d : Draft} {rest : List Token}, d.Awaits (tokens ++ rest) →
    isEnder (firstKind rest) = true →
    ∃ d', Reads d e d' ∧ d'.Awaits rest ∧ Precedence.expression d = .ok d'

/-- Before subscripts and operators, tokens are read as an expression. -/
def ReadFirst (fresh : Bool) (tokens : List Token) (e : Expr) : Prop :=
  ∀ {d : Draft} {rest : List Token}, d.Awaits (tokens ++ rest) →
    UnaryOp.ofKind? d.peek.kind = none ∧
      ∃ d', Reads d e d' ∧ d'.Awaits rest ∧ primary fresh d = .ok d'

namespace ReadAs

variable {tokens : List Token} {e : Expr}

theorem firstKind_append (h : ReadAs tokens e) (rest : List Token) :
    firstKind (tokens ++ rest) = firstKind tokens := by
  have hbegins := h.begins
  cases tokens with
  | nil => cases hbegins
  | cons t more => rfl

/-- No other kind of token begins an expression. -/
theorem firstKind_ne (h : ReadAs tokens e) (rest : List Token) {kind : TokenKind}
    (hkind : beginsExpression kind = false) : firstKind (tokens ++ rest) ≠ kind := by
  rintro rfl
  rw [h.firstKind_append, h.begins] at hkind
  cases hkind

/-- Where no operator follows, reading ends with the first value. -/
theorem of_first (hbegins : beginsExpression (firstKind tokens) = true) (h : ReadFirst true tokens e) :
    ReadAs tokens e := by
  refine ⟨hbegins, fun {d rest} hd hender => ?_⟩
  obtain ⟨hkind, d', hreads, hd', hprimary⟩ := h hd
  have hfollow : MayFollow 0 d'.peek.kind := mayFollow_of_isEnder (by rw [hd'.kind_eq]; exact hender)
  refine ⟨d', hreads, hd', ?_⟩
  unfold Precedence.expression
  rw [climb_of_operand (operand_of_primary hkind hprimary) hfollow, operators_of_mayFollow hfollow]

end ReadAs

/-! ### Constants -/

theorem readFirst_constant {t : Token} (hkind : t.kind = .number ∨ t.kind = .string ∨ t.kind = .boolean)
    (fresh : Bool) : ReadFirst fresh [t] (.literal t.value) := by
  intro d rest hd
  have hpeek : d.peek.kind = .number ∨ d.peek.kind = .string ∨ d.peek.kind = .boolean := by
    rw [hd.kind_eq]
    exact hkind
  have hreads : Reads d (.literal d.peek.value) (d.next.emitValue d.peek.value) := by
    apply Reads.constant
    · rcases hpeek with h | h | h <;> simp [h]
    · unfold Word.ofToken?
      rcases hpeek with h | h | h <;> rw [h]
  rw [hd.value_eq] at hreads
  refine ⟨?_, _, hreads, hd.next, ?_⟩
  · rcases hpeek with h | h | h <;> rw [h] <;> rfl
  · rw [primary_eq]
    rcases hpeek with h | h | h <;> rw [h, hd.value_eq]

theorem readAs_constant {t : Token} (hkind : t.kind = .number ∨ t.kind = .string ∨ t.kind = .boolean) :
    ReadAs [t] (.literal t.value) := by
  refine .of_first ?_ (readFirst_constant hkind true)
  rcases hkind with h | h | h <;> simp [firstKind, h, beginsExpression]

theorem readAs_null : ReadAs [.ofKind .null 0] .null := by
  refine .of_first rfl fun {d rest} hd => ?_
  have hkind : d.peek.kind = .null := hd.kind_eq
  refine ⟨by rw [hkind]; rfl, _, .null hkind, hd.next, ?_⟩
  rw [primary_eq, hkind]

/-- A minus negates the numeral behind it. -/
theorem readAs_minus {t : Token} (hkind : t.kind = .number) :
    ReadAs [.ofKind .minus 0, t] (.unary .minus (.literal t.value)) := by
  refine ⟨rfl, fun {d rest} hd hender => ?_⟩
  have hminus : UnaryOp.ofKind? d.peek.kind = some .minus := by
    rw [hd.kind_eq]
    rfl
  obtain ⟨hvalue, d', hreads, hd', hprimary⟩ := readFirst_constant (.inl hkind) false hd.next
  have hfollow : ∀ {d' : Draft}, d'.Awaits rest → MayFollow 0 d'.peek.kind :=
    fun hd' => mayFollow_of_isEnder (by rw [hd'.kind_eq]; exact hender)
  have hbehind : (apply .minus (concluding false d')).Awaits rest := by
    rw [Draft.Awaits, rest_apply, rest_concluding]
    exact hd'
  refine ⟨_, hreads.unary false hminus, hbehind, ?_⟩
  unfold Precedence.expression
  rw [climb_eq, operand_eq, hminus]
  dsimp only
  rw [climb_of_operand (operand_of_primary hvalue hprimary) (hfollow hd'),
    operators_of_mayFollow ((hfollow hd').mono (Nat.zero_le _)), ok_bind]
  exact operators_of_mayFollow (hfollow hbehind) false

/-! ### Rows -/

/-- Behind a row comes what stands behind all rows, or a comma and the other rows. -/
theorem separated_cons (row : List Token) (rows : List (List Token)) (rest : List Token) :
    ∃ behind, separated (row :: rows) ++ rest = row ++ behind ∧
      ((rows = [] ∧ behind = rest) ∨ behind = .ofKind .comma 0 :: (separated rows ++ rest)) := by
  cases rows with
  | nil => exact ⟨rest, rfl, .inl ⟨rfl, rfl⟩⟩
  | cons next rows => exact ⟨_, List.append_assoc _ _ _, .inr rfl⟩

/-- The first row begins right here. -/
theorem firstKind_separated_ne {rows : List (List Token)} {rest : List Token}
    (hrows : ∀ row ∈ rows, beginsExpression (firstKind row) = true)
    (hrest : firstKind rest ≠ .lineBreak) : firstKind (separated rows ++ rest) ≠ .lineBreak := by
  cases rows with
  | nil => exact hrest
  | cons row rows =>
      obtain ⟨behind, hrow, -⟩ := separated_cons row rows rest
      have hbegins := hrows row List.mem_cons_self
      rw [hrow]
      cases row with
      | nil => cases hbegins
      | cons t row =>
          intro hbreak
          have hbreak : t.kind = .lineBreak := hbreak
          have hbegins : beginsExpression t.kind = true := hbegins
          rw [hbreak] at hbegins
          cases hbegins

theorem begins_rows {items : List Data} (h : ∀ item ∈ items, ReadAs item.tokens item.expr) :
    ∀ row ∈ Data.rows items, beginsExpression (firstKind row) = true := by
  induction items with
  | nil => exact List.forall_mem_nil _
  | cons item more ih =>
      obtain ⟨hitem, hmore⟩ := List.forall_mem_cons.mp h
      exact List.forall_mem_cons.mpr ⟨hitem.begins, ih hmore⟩

theorem begins_memberRows (members : List (String × Data)) :
    ∀ row ∈ Data.memberRows members, beginsExpression (firstKind row) = true := by
  induction members with
  | nil => exact List.forall_mem_nil _
  | cons m more ih => exact List.forall_mem_cons.mpr ⟨rfl, ih⟩

/-- A comma is passed over, up to the next row. -/
theorem moves_comma {d : Draft} {tokens : List Token} (hd : d.Awaits (.ofKind .comma 0 :: tokens))
    (hkind : firstKind tokens ≠ .lineBreak) :
    d.sees .comma = true ∧ d.next.skipLineBreaks = d.next ∧ d.Moves [] [] d.next := by
  have hcomma : d.peek.kind = .comma := hd.kind_eq
  exact ⟨sees_iff.mpr hcomma, hd.next.skipLineBreaks_eq hkind, moves_silent hcomma rfl⟩

theorem not_sees {d : Draft} {tokens : List Token} (hd : d.Awaits tokens) {kind : TokenKind}
    (hkind : firstKind tokens ≠ kind) : ¬d.sees kind = true := by
  rw [sees_iff, hd.kind_eq]
  exact hkind

/-! ### Lists -/

theorem reads_elements {items : List Data} (h : ∀ item ∈ items, ReadAs item.tokens item.expr)
    {d : Draft} {rest : List Token} (hd : d.Awaits (separated (Data.rows items) ++ rest))
    (hend : firstKind rest = .rightBracket) :
    ∃ d', ReadsElements d (Data.exprs items) d' ∧ d'.Awaits rest ∧
      Precedence.elements d = .ok d' := by
  induction items generalizing d with
  | nil =>
      refine ⟨d, .nil d, hd, ?_⟩
      rw [elements_eq, if_pos]
      rw [sees_iff, hd.kind_eq]
      exact hend
  | cons item more ih =>
      obtain ⟨hitem, hmore⟩ := List.forall_mem_cons.mp h
      obtain ⟨behind, hrow, hbehind⟩ := separated_cons item.tokens (Data.rows more) rest
      have hender : isEnder (firstKind behind) = true := by
        rcases hbehind with ⟨-, rfl⟩ | rfl
        · rw [hend]
          rfl
        · rfl
      rw [Data.rows, hrow] at hd
      obtain ⟨d₁, hreads, hd₁, hexpression⟩ := hitem.reads hd hender
      have hd₁ : (d₁.emit .append).Awaits behind := hd₁
      rw [elements_eq, if_neg (not_sees hd (hitem.firstKind_ne behind rfl)), hexpression, ok_bind]
      rcases hbehind with ⟨hnil, rfl⟩ | rfl
      · rw [if_neg (not_sees hd₁ (by rw [hend]; decide))]
        cases more with
        | nil => exact ⟨_, hreads.element (.refl _) (.nil _), hd₁, rfl⟩
        | cons next more => cases hnil
      · obtain ⟨hcomma, hskip, hmoves⟩ := moves_comma hd₁
          (firstKind_separated_ne (begins_rows hmore) (by rw [hend]; decide))
        obtain ⟨d₂, hreads₂, hd₂, helements⟩ := ih hmore hd₁.next
        rw [if_pos hcomma, hskip, helements]
        exact ⟨d₂, hreads.element hmoves hreads₂, hd₂, rfl⟩

theorem readAs_list {items : List Data} (h : ∀ item ∈ items, ReadAs item.tokens item.expr) :
    ReadAs (Data.list items).tokens (Data.list items).expr := by
  refine .of_first rfl fun {d rest} hd => ?_
  rw [Data.tokens, List.append_assoc, List.cons_append] at hd
  have hkind : d.peek.kind = .leftBracket := hd.kind_eq
  have hskip := hd.next.skipLineBreaks_eq
    (firstKind_separated_ne (begins_rows h) (by simp [firstKind, ofKind]))
  have hopen : (d.next.skipLineBreaks.emit .list).Awaits
      (separated (Data.rows items) ++ ([.ofKind .rightBracket 0] ++ rest)) := by
    rw [hskip]
    exact hd.next
  obtain ⟨d₁, hreads, hd₁, helements⟩ := reads_elements h hopen rfl
  have hclose : d₁.peek.kind = .rightBracket := hd₁.kind_eq
  have hskip₁ : d₁.skipLineBreaks = d₁ := skipLineBreaks_of_ne (by rw [hclose]; decide)
  refine ⟨by rw [hkind]; rfl, d₁.next, .list hkind hreads ?_, hd₁.next, ?_⟩
  · rw [hskip₁]
    exact moves_symbol hclose rfl
  · rw [primary_eq, hkind]
    dsimp only
    rw [if_pos rfl, helements, ok_bind, hskip₁, expect_of_kind hclose]

/-! ### Objects -/

theorem reads_members {members : List (String × Data)}
    (h : ∀ m ∈ members, ReadAs m.2.tokens m.2.expr) {d : Draft} {rest : List Token}
    (hd : d.Awaits (separated (Data.memberRows members) ++ rest))
    (hend : firstKind rest = .rightBrace) :
    ∃ d', ReadsMembers d (Data.memberExprs members) d' ∧ d'.Awaits rest ∧
      Precedence.members d = .ok d' := by
  induction members generalizing d with
  | nil =>
      refine ⟨d, .nil d, hd, ?_⟩
      rw [members_eq, if_pos]
      rw [sees_iff, hd.kind_eq]
      exact hend
  | cons m more ih =>
      obtain ⟨key, member⟩ := m
      obtain ⟨hmember, hmore⟩ := List.forall_mem_cons.mp h
      obtain ⟨behind, hrow, hbehind⟩ :=
        separated_cons (.ofName key 0 :: .ofKind .equal 0 :: member.tokens) (Data.memberRows more) rest
      have hender : isEnder (firstKind behind) = true := by
        rcases hbehind with ⟨-, rfl⟩ | rfl
        · rw [hend]
          rfl
        · rfl
      rw [Data.memberRows, hrow] at hd
      have hname : d.peek.kind = .identifier := hd.kind_eq
      have htext : d.peek.text = key := hd.text_eq
      have hequal : d.next.peek.kind = .equal := hd.next.kind_eq
      have hvalue : d.next.next.Awaits (member.tokens ++ behind) := hd.next.next
      have hskip := hvalue.skipLineBreaks_eq (hmember.firstKind_ne behind rfl)
      obtain ⟨d₃, hreads, hd₃, hexpression⟩ := hmember.reads hvalue hender
      have hreads' : Reads d.next.next.skipLineBreaks member.expr d₃ := by
        rw [hskip]
        exact hreads
      have hd₃ : (d₃.emitName .set d.peek.text).Awaits behind := hd₃
      have hfirst : ¬d.sees .rightBrace = true := by
        rw [sees_iff, hname]
        decide
      rw [members_eq, if_neg hfirst, expectText_of_kind hname, ok_bind]
      dsimp only
      rw [expect_of_kind hequal, ok_bind, hskip, hexpression, ok_bind]
      have hitem := fun {d₄ d₅ : Draft} {ms : Members} (hcomma) (hms : ReadsMembers d₄ ms d₅) =>
        Reads.memberValue hname (moves_symbol hequal rfl) hreads' hcomma hms
      rw [htext] at hd₃ hitem ⊢
      rcases hbehind with ⟨hnil, rfl⟩ | rfl
      · rw [if_neg (not_sees hd₃ (by rw [hend]; decide))]
        cases more with
        | nil => exact ⟨_, hitem (.refl _) (.nil _), hd₃, rfl⟩
        | cons next more => cases hnil
      · obtain ⟨hcomma, hskip, hmoves⟩ := moves_comma hd₃
          (firstKind_separated_ne (begins_memberRows more) (by rw [hend]; decide))
        obtain ⟨d₄, hreads₂, hd₄, hmembers⟩ := ih hmore hd₃.next
        rw [if_pos hcomma, hskip, hmembers]
        exact ⟨d₄, hitem hmoves hreads₂, hd₄, rfl⟩

theorem readAs_object {members : List (String × Data)}
    (h : ∀ m ∈ members, ReadAs m.2.tokens m.2.expr) :
    ReadAs (Data.object members).tokens (Data.object members).expr := by
  refine .of_first rfl fun {d rest} hd => ?_
  rw [Data.tokens, List.append_assoc, List.cons_append] at hd
  have hkind : d.peek.kind = .leftBrace := hd.kind_eq
  have hskip := hd.next.skipLineBreaks_eq
    (firstKind_separated_ne (begins_memberRows members) (by simp [firstKind, ofKind]))
  have hopen : (d.next.skipLineBreaks.emit .object).Awaits
      (separated (Data.memberRows members) ++ ([.ofKind .rightBrace 0] ++ rest)) := by
    rw [hskip]
    exact hd.next
  obtain ⟨d₁, hreads, hd₁, hmembers⟩ := reads_members h hopen rfl
  have hclose : d₁.peek.kind = .rightBrace := hd₁.kind_eq
  have hskip₁ : d₁.skipLineBreaks = d₁ := skipLineBreaks_of_ne (by rw [hclose]; decide)
  refine ⟨by rw [hkind]; rfl, d₁.next, .object hkind hreads ?_, hd₁.next, ?_⟩
  · rw [hskip₁]
    exact moves_symbol hclose rfl
  · rw [primary_eq, hkind]
    dsimp only
    rw [hmembers, ok_bind, hskip₁, expect_of_kind hclose]

/-! ### Data -/

theorem readAs_number (x : Float) : ReadAs (Data.numberTokens x) (Data.numberExpr x) := by
  unfold Data.numberTokens Data.numberExpr
  split
  · exact readAs_minus rfl
  · exact readAs_constant (.inl rfl)

/-- The tokens of data are read as their literal. -/
theorem readAs_data {d : Data} (h : d.Expressible) : ReadAs d.tokens d.expr := by
  induction h with
  | null => exact readAs_null
  | @number x => exact readAs_number x
  | string => exact readAs_constant (.inr (.inl rfl))
  | boolean b => exact readAs_constant (.inr (.inr rfl))
  | list _ ih => exact readAs_list ih
  | object _ _ _ ih => exact readAs_object ih

end LineScript.Compile

namespace LineScript.Compiler

open LineScript.Code LineScript.Tree LineScript.Token LineScript.Machine
open LineScript.Compile
open LineScript.Compile.Draft (skipLineBreaks_of_ne expectLineEnd_of_kind sees_iff moves_silent moves_symbol)

/-! ## Returning data -/

/-- The script that returns the value of an expression. -/
def returning (e : Expr) : Block := .cons (.simple (.giveBack (some e))) .nil

theorem returnStatement_of_readAs {tokens rest : List Token} {e : Expr} (h : ReadAs tokens e) {d : Draft}
    (hd : d.Awaits (.ofKind .return_ 0 :: (tokens ++ lineEnd :: rest))) :
    ∃ d', ReadsSimple d (.giveBack (some e)) d' ∧ d'.Awaits rest ∧ returnStatement d = .ok d' := by
  have hkind : d.peek.kind = .return_ := hd.kind_eq
  obtain ⟨d₁, hreads, hd₁, hexpression⟩ := h.reads hd.next rfl
  have hbreak : d₁.peek.kind = .lineBreak := hd₁.kind_eq
  have hend : ¬d.next.atEnd = true := not_sees hd.next (h.firstKind_ne _ rfl)
  unfold returnStatement
  dsimp only
  rw [if_neg hend, if_neg (not_sees hd.next (h.firstKind_ne _ rfl)), Precedence.expression_eq,
    hexpression, ok_bind, expectLineEnd_of_kind hbreak, ok_bind]
  exact ⟨_, .giveBack hkind hreads (moves_silent hbreak rfl), hd₁.next, rfl⟩

/-- A line that returns what tokens are read as is compiled to the return of it. -/
theorem compiles_returning {c : Compiler} {tokens line : List Token} {e : Expr} (h : ReadAs tokens e)
    (hline : line.map unplaced = .ofKind .return_ 0 :: (tokens ++ [lineEnd])) :
    ∃ p, c.compile line = .ok p ∧ c.Compiles (returning e) p := by
  have hd : (c.draft line).Awaits (.ofKind .return_ 0 :: (tokens ++ [lineEnd])) := hline
  obtain ⟨d, hreads, hrest, hreturn⟩ := returnStatement_of_readAs h hd
  have hblock : ReadsBlock (c.draft line) (returning e) d := hreads.stmt.cons (.nil (.refl d))
  have hresolved : d.checkResolved = .ok d := by
    apply Compile.Draft.checkResolved_of_code
    rw [hblock.wrote.code_eq, (c.draft_code _).1]
    exact (returning e).resolved_code _
  refine ⟨d.program, ?_, compiles_program hblock⟩
  have hkind : (c.draft line).peek.kind = .return_ := hd.kind_eq
  have hgoes : ¬((c.draft line).atEnd || [].contains (c.draft line).peek.kind) = true := by
    simp [Draft.atEnd, hkind]
  have hstops : (d.atEnd || [].contains d.peek.kind) = true := by
    have hend : d.peek.kind = .endOfInput := hrest.kind_eq
    simp [Draft.atEnd, hend]
  unfold compile Compile.block
  rw [blockWith, if_neg hgoes, (statement_of_return hkind _).2, hreturn]
  dsimp only
  rw [blockWith, if_pos hstops, ok_bind, hresolved, ok_bind]

end LineScript.Compiler
