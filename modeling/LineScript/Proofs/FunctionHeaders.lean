/-
# The headers of functions

A function is defined where its header stands, and a header stands at the beginning of a line: `func`,
a name, and parameters between parentheses. Nothing else in a script that compiles is read as `func`, so
the headers among its tokens name the functions of the program, each of them once and with its
parameters.

The compiler is followed through the tokens. What has been read so far is described by the headers in it,
together with whether it ends a line; what is known about the draft is that its functions are those of
the headers. Both are kept by all that compiles an expression or a simple statement.
-/

import LineScript.Proofs.CompleteScripts

namespace LineScript.Tree

mutual

/-- No expression has the word `func`. -/
theorem Expr.ne_func : ∀ (e : Expr), ∀ w ∈ e.words, w ≠ .symbol .func
  | .null | .literal _ | .name _ => by simp [Expr.words]
  | .call _ arguments => by simpa [Expr.words] using arguments.ne_func
  | .list items => by simpa [Expr.words, or_imp, forall_and] using items.ne_func
  | .object members => by simpa [Expr.words, or_imp, forall_and] using members.ne_func
  | .index container position => by
      simpa [Expr.words, or_imp, forall_and] using ⟨container.ne_func, position.ne_func⟩
  | .member object _ => by simpa [Expr.words, or_imp, forall_and] using object.ne_func
  | .unary o operand => by
      have ho : o.kind ≠ .func := by cases o <;> decide
      simpa [Expr.words, ho] using operand.ne_func
  | .binary o left right => by
      have ho : o.kind ≠ .func := by cases o <;> decide
      simpa [Expr.words, ho, or_imp, forall_and] using ⟨left.ne_func, right.ne_func⟩

theorem Exprs.ne_func : ∀ (es : Exprs), ∀ w ∈ es.words, w ≠ .symbol .func
  | .nil => by simp [Exprs.words]
  | .cons first rest => by
      simpa [Exprs.words, or_imp, forall_and] using ⟨first.ne_func, rest.ne_func⟩

theorem Members.ne_func : ∀ (ms : Members), ∀ w ∈ ms.words, w ≠ .symbol .func
  | .nil => by simp [Members.words]
  | .cons _ value rest => by
      simpa [Members.words, or_imp, forall_and] using ⟨value.ne_func, rest.ne_func⟩

end

end LineScript.Tree

namespace LineScript

/-- A token without its constant and its line. -/
def Token.face (t : Token) : TokenKind × String := (t.kind, t.text)

namespace Compile

open LineScript.Code LineScript.Tree
open LineScript.Compile.Precedence (readable_expression expression_eq)

/-! ## Headers -/

/-- What a header says of a function. -/
structure Header where
  name : String
  params : List String

/-- How parameters are listed. The flag says whether the list is open for another one: it is empty, or a
comma stands behind the last one. -/
inductive Listed : List (TokenKind × String) → List String → Bool → Prop where
  | nil : Listed [] [] true
  | last (name : String) : Listed [(.identifier, name)] [name] false
  | more {breaks rest : List (TokenKind × String)} {names : List String} {opened : Bool}
      (name comma : String) : (∀ f ∈ breaks, f.1 = .lineBreak) → Listed rest names opened →
      Listed ((.identifier, name) :: (.comma, comma) :: (breaks ++ rest)) (name :: names) opened

/-- How a header is written. -/
inductive IsHeader : List (TokenKind × String) → Header → Prop where
  | intro {listed : List (TokenKind × String)} {params : List String} {opened : Bool}
      (keyword name left right : String) : Listed listed params opened → params.Nodup →
      IsHeader ((.func, keyword) :: (.identifier, name) :: (.leftParen, left) ::
        (listed ++ [(.rightParen, right)])) ⟨name, params⟩

/-- The headers among tokens. A header stands at the beginning of a line, and `func` stands in headers
only. The flags say whether a line begins before the tokens, and whether one begins behind them. -/
inductive Headed : Bool → List (TokenKind × String) → List Header → Bool → Prop where
  | nil (start : Bool) : Headed start [] [] start
  | other {start stop : Bool} {f : TokenKind × String} {rest : List (TokenKind × String)}
      {headers : List Header} : f.1 ≠ .func → Headed (f.1 = .lineBreak) rest headers stop →
      Headed start (f :: rest) headers stop
  | header {stop : Bool} {faces rest : List (TokenKind × String)} {h : Header}
      {headers : List Header} : IsHeader faces h → Headed false rest headers stop →
      Headed true (faces ++ rest) (h :: headers) stop

section

variable {start middle stop : Bool} {faces faces' : List (TokenKind × String)}
  {headers headers' : List Header}

theorem Headed.trans (h : Headed start faces headers middle) (h' : Headed middle faces' headers' stop) :
    Headed start (faces ++ faces') (headers ++ headers') stop := by
  induction h with
  | nil => exact h'
  | other hkind _ ih => exact .other hkind (ih h')
  | header hheader _ ih =>
      rw [List.append_assoc]
      exact .header hheader (ih h')

/-- Behind the last line break a line goes on. -/
theorem Headed.exists_others (hkinds : ∀ f ∈ faces, f.1 ≠ .func) (start : Bool) :
    ∃ stop, Headed start faces [] stop := by
  induction faces generalizing start with
  | nil => exact ⟨start, .nil start⟩
  | cons f rest ih =>
      obtain ⟨hkind, hrest⟩ := List.forall_mem_cons.mp hkinds
      obtain ⟨stop, hstop⟩ := ih hrest (f.1 = .lineBreak)
      exact ⟨stop, .other hkind hstop⟩

end

/-! ## What has been read and what is known -/

/-- What has been read of the tokens, when the given ones are left. With `start` set, a line begins
there or the input ends. -/
structure HasRead (tokens : List Token) (headers : List Header) (start : Bool) (rest : List Token) :
    Prop where
  headed : ∃ before stop, tokens = before ++ rest ∧ Headed true (before.map Token.face) headers stop ∧
    (start = true → stop = true ∨ ∀ t ∈ rest.head?, t.kind = .endOfInput)

/-- The functions of a draft are those of the headers, among them the one it is in. -/
structure Knows (headers : List Header) (d : Draft) : Prop where
  functions : ∀ h : Header, (d.functions.get? h.name).map Function.params = some h.params ↔ h ∈ headers
  nodup : (headers.map (·.name)).Nodup
  reserved : ∀ h ∈ headers, h.name ≠ topLevel
  inside : d.outer?.isSome = true → ⟨d.body.name, d.body.params⟩ ∈ headers

/-- A draft some way through the tokens knows the headers that have been read. -/
def Draft.Accounts (tokens : List Token) (start : Bool) (d : Draft) : Prop :=
  ∃ headers, HasRead tokens headers start d.rest ∧ Knows headers d

section

variable {tokens rest : List Token} {headers : List Header} {start : Bool}

theorem HasRead.mem_of_mem_rest (h : HasRead tokens headers start rest) {t : Token} (ht : t ∈ rest) :
    t ∈ tokens := by
  obtain ⟨before, -, rfl, -, -⟩ := h.headed
  exact List.mem_append_right before ht

/-- Tokens that are passed by without a header among them. -/
theorem HasRead.passed {ts : List Token} (h : HasRead tokens headers start (ts ++ rest))
    (hts : ∀ t ∈ ts, t.kind ≠ .func) : HasRead tokens headers false rest := by
  obtain ⟨before, stop, htokens, hheaded, -⟩ := h.headed
  have hkinds : ∀ f ∈ ts.map Token.face, f.1 ≠ .func := by simpa [Token.face] using hts
  obtain ⟨stop', hothers⟩ := Headed.exists_others hkinds stop
  refine ⟨before ++ ts, stop', by rw [htokens, List.append_assoc], ?_, nofun⟩
  rw [List.map_append]
  simpa using hheaded.trans hothers

/-- A line break that is passed by ends a line. -/
theorem HasRead.lineBreak {t : Token} (h : HasRead tokens headers start (t :: rest))
    (hkind : t.kind = .lineBreak) : HasRead tokens headers true rest := by
  obtain ⟨before, stop, htokens, hheaded, -⟩ := h.headed
  have hbreak : Headed stop [t.face] [] true := by
    have hface : t.face.1 = .lineBreak := hkind
    have hnil := Headed.nil (t.face.1 = .lineBreak : Bool)
    refine .other (by rw [hface]; decide) ?_
    simpa [hface] using hnil
  refine ⟨before ++ [t], true, by rw [htokens, List.append_assoc]; rfl, ?_, fun _ => .inl rfl⟩
  rw [List.map_append]
  simpa using hheaded.trans hbreak

theorem HasRead.nextLine {d : Draft} (h : HasRead tokens headers start d.rest)
    (hkind : d.peek.kind = .lineBreak) : HasRead tokens headers true d.next.rest := by
  obtain ⟨rest, hrest⟩ := Draft.rest_eq_cons_of_peek (d := d) (by rw [hkind]; decide)
  rw [Draft.rest_next, hrest]
  exact (hrest ▸ h).lineBreak hkind

theorem HasRead.expectLineEnd {d d' : Draft} (h : HasRead tokens headers start d.rest)
    (hline : d.expectLineEnd = .ok d') : HasRead tokens headers true d'.rest := by
  unfold Draft.expectLineEnd at hline
  split at hline
  · rename_i hend
    cases hline
    obtain ⟨before, stop, htokens, hheaded, -⟩ := h.headed
    refine ⟨before, stop, htokens, hheaded, fun _ => .inr fun t ht => ?_⟩
    obtain ⟨rest, hrest⟩ := List.head?_eq_some_iff.mp ht
    unfold Draft.atEnd at hend
    rw [Draft.peek_of_cons hrest] at hend
    exact of_decide_eq_true hend
  · obtain ⟨hkind, rfl⟩ := Draft.expect_eq_ok hline
    exact h.nextLine hkind

/-- A header that is passed by. -/
theorem HasRead.header {ts : List Token} {h : Header} (hread : HasRead tokens headers true (ts ++ rest))
    (hts : IsHeader (ts.map Token.face) h) : HasRead tokens (headers ++ [h]) false rest := by
  obtain ⟨before, stop, htokens, hheaded, hstart⟩ := hread.headed
  obtain rfl : stop = true := by
    refine (hstart rfl).resolve_right fun hend => ?_
    cases ts with
    | nil => cases hts
    | cons t ts =>
        have hkind : t.kind = .func := by
          generalize hfaces : (t :: ts).map Token.face = faces at hts
          cases hts with
          | intro => exact congrArg Prod.fst (List.cons.inj hfaces).1
        exact absurd ((hend t rfl).symm.trans hkind) (by decide)
  refine ⟨before ++ ts, false, by rw [htokens, List.append_assoc], ?_, nofun⟩
  rw [List.map_append, ← List.append_nil (ts.map Token.face)]
  exact hheaded.trans (.header hts (.nil false))

end

namespace Knows

variable {headers : List Header} {d d' : Draft} (h : Knows headers d)
include h

/-- What is known does not depend on tokens and instructions. -/
theorem of_frame (hframe : d'.frame = d.frame) : Knows headers d' := by
  have hfunctions := congrArg (fun x : Draft => x.functions) hframe
  have houter := congrArg (fun x : Draft => x.outer?) hframe
  have hname := congrArg (fun x : Draft => x.body.name) hframe
  have hparams := congrArg (fun x : Draft => x.body.params) hframe
  change d'.functions = d.functions at hfunctions
  change d'.outer? = d.outer? at houter
  change d'.body.name = d.body.name at hname
  change d'.body.params = d.body.params at hparams
  refine ⟨?_, h.nodup, h.reserved, ?_⟩
  · rw [hfunctions]
    exact h.functions
  · rw [houter, hname, hparams]
    exact h.inside

theorem declare (name : String) : Knows headers (d.declare name) := by
  unfold Draft.declare Function.declare
  split
  · exact h
  · exact ⟨h.functions, h.nodup, h.reserved, h.inside⟩

/-- A function under a new name is entered. -/
theorem enter {name : String} (params : List String) (hreserved : name ≠ topLevel)
    (hnew : d.functions.get? name = none) :
    Knows (headers ++ [⟨name, params⟩]) (d.enter name params) := by
  obtain ⟨scope, hbody⟩ := Function.new_eq name params
  rw [Draft.enter_eq params hreserved]
  have habsent : ∀ params, (⟨name, params⟩ : Header) ∉ headers := by
    intro params hmem
    have hparams := (h.functions ⟨name, params⟩).mpr hmem
    rw [hnew] at hparams
    cases hparams
  refine ⟨?_, ?_, ?_, fun _ => ?_⟩
  · rintro ⟨name', params'⟩
    dsimp only
    rw [List.mem_append, List.mem_singleton]
    by_cases hname : name' = name
    · subst hname
      rw [Dict.get?_insert_self, hbody, or_iff_right (habsent params')]
      change some params = some params' ↔ _
      rw [Option.some.injEq, Header.mk.injEq, eq_comm, and_iff_right rfl]
    · rw [Dict.get?_insert_of_ne _ _ hname, h.functions ⟨name', params'⟩, or_iff_left]
      exact fun heq => hname (Header.mk.inj heq).1
  · rw [List.map_append, List.map_singleton]
    refine List.nodup_append.mpr ⟨h.nodup, List.nodup_singleton _, ?_⟩
    rintro other hother _ hname rfl
    obtain ⟨⟨_, params'⟩, hmem, rfl⟩ := List.mem_map.mp hother
    obtain rfl := List.mem_singleton.mp hname
    exact habsent params' hmem
  · intro header hheader
    obtain hheader | hheader := List.mem_append.mp hheader
    · exact h.reserved header hheader
    · obtain rfl := List.mem_singleton.mp hheader
      exact hreserved
  · rw [hbody]
    exact List.mem_append_right _ List.mem_cons_self

/-- Leaving a function puts it where it was. -/
theorem leave : Knows headers d.leave := by
  unfold Draft.leave
  cases houter : d.outer? with
  | none => exact h
  | some top =>
      have hinside := h.inside (by rw [houter]; rfl)
      refine ⟨?_, h.nodup, h.reserved, nofun⟩
      rintro ⟨name, params⟩
      dsimp only
      by_cases hname : name = d.body.name
      · subst hname
        rw [Dict.get?_insert_self, ← h.functions ⟨d.body.name, params⟩]
        rw [← h.functions] at hinside
        rw [hinside]
        rfl
      · rw [Dict.get?_insert_of_ne _ _ hname]
        exact h.functions ⟨name, params⟩

end Knows

/-! ## Steps that read no header -/

namespace Draft.Accounts

variable {tokens : List Token} {start : Bool} {d d' : Draft} (h : d.Accounts tokens start)
include h

theorem passed (ts : List Token) (hrest : d.rest = ts ++ d'.rest) (hts : ∀ t ∈ ts, t.kind ≠ .func)
    (hframe : d'.frame = d.frame) : d'.Accounts tokens false := by
  obtain ⟨headers, hread, hknows⟩ := h
  exact ⟨headers, (hrest ▸ hread).passed hts, hknows.of_frame hframe⟩

theorem midLine : d.Accounts tokens false := h.passed [] rfl (List.forall_mem_nil _) rfl

/-- Nothing but instructions is written. -/
theorem written (hrest : d'.rest = d.rest) (hframe : d'.frame = d.frame) :
    d'.Accounts tokens start := by
  obtain ⟨headers, hread, hknows⟩ := h
  exact ⟨headers, hrest ▸ hread, hknows.of_frame hframe⟩

theorem emit (op : Opcode) : (d.emit op).Accounts tokens start := h.written rfl rfl

theorem emitValue (l : Literal) : (d.emitValue l).Accounts tokens start := h.written rfl rfl

theorem emitName (op : Opcode) (name : String) : (d.emitName op name).Accounts tokens start :=
  h.written rfl rfl

theorem emitJump (op : Opcode) : (d.emitJump op).Accounts tokens start := h.written rfl rfl

theorem emitJumpTo (op : Opcode) (target : Nat) : (d.emitJumpTo op target).Accounts tokens start :=
  h.written rfl rfl

theorem declare (name : String) : (d.declare name).Accounts tokens start := by
  obtain ⟨headers, hread, hknows⟩ := h
  exact ⟨headers, hread, hknows.declare name⟩

theorem leave : d.leave.Accounts tokens start := by
  obtain ⟨headers, hread, hknows⟩ := h
  refine ⟨headers, ?_, hknows.leave⟩
  unfold Draft.leave
  split <;> exact hread

theorem patchHere (address : Nat) : Yields (Accounts tokens start) (d.patchHere address) := by
  cases hpatch : d.patchHere address with
  | error e => exact yields_error e
  | ok d' =>
      obtain ⟨body, hbody, rfl⟩ := patchHere_eq_ok hpatch
      rw [Function.eq_of_patchHere hbody]
      exact yields_ok (h.written rfl rfl)

theorem patchAllHere (addresses : List Nat) :
    Yields (Accounts tokens start) (d.patchAllHere addresses) := by
  induction addresses generalizing d with
  | nil => exact yields_ok h
  | cons address addresses ih =>
      rw [Draft.patchAllHere_cons]
      exact (h.patchHere address).bind fun d₁ h₁ => ih h₁

theorem checkResolved : Yields (Accounts tokens start) d.checkResolved := by
  unfold Draft.checkResolved
  split
  · exact yields_ok h
  · exact yields_error _

theorem next (hkind : d.peek.kind ≠ .func) : d.next.Accounts tokens false := by
  cases hrest : d.rest with
  | nil =>
      refine h.passed [] ?_ (List.forall_mem_nil _) d.frame_next
      rw [rest_next, hrest]
      rfl
  | cons t rest =>
      rw [peek_of_cons hrest] at hkind
      refine h.passed [t] ?_ (by simpa using hkind) d.frame_next
      rw [rest_next, hrest]
      rfl

theorem nextLine (hkind : d.peek.kind = .lineBreak) : d.next.Accounts tokens true := by
  obtain ⟨headers, hread, hknows⟩ := h
  exact ⟨headers, hread.nextLine hkind, hknows.of_frame d.frame_next⟩

theorem skipLineBreaks : d.skipLineBreaks.Accounts tokens false :=
  keeps_skipLineBreaks (fun _ hkind h => h.next (by rw [hkind]; decide)) h.midLine

theorem expect (kind : TokenKind) (hkind : kind ≠ .func) :
    Yields (Accounts tokens false) (d.expect kind) := by
  unfold Draft.expect
  split
  · rename_i hsees
    exact yields_ok (h.next (by rwa [sees_iff.mp hsees]))
  · exact yields_error _

theorem expectLineEnd : Yields (Accounts tokens true) d.expectLineEnd := by
  cases hline : d.expectLineEnd with
  | error e => exact yields_error e
  | ok d' =>
      obtain ⟨headers, hread, hknows⟩ := h
      exact yields_ok ⟨headers, hread.expectLineEnd hline,
        hknows.of_frame (d.sound_expectLineEnd.of_ok hline).frame_eq⟩

theorem expression : Yields (Accounts tokens false) (Compile.expression d) := by
  cases hresult : Compile.expression d with
  | error e => exact yields_error e
  | ok d' =>
      rw [expression_eq] at hresult
      obtain ⟨e, he⟩ := (readable_expression d).of_ok hresult
      obtain ⟨ts, hrest, hwords⟩ := he.moves.tokens
      refine yields_ok (h.passed _ hrest (fun t ht hkind => ?_) he.moves.frame_eq)
      refine e.ne_func (.symbol .func) ?_ rfl
      rw [← hwords]
      exact List.mem_filterMap.mpr ⟨t, ht, ofToken?_of_isSymbol hkind rfl⟩

end Draft.Accounts

/-! ## Simple statements -/

section

variable {tokens : List Token} {start : Bool} {d : Draft}

theorem accounts_expressionStatement (h : d.Accounts tokens start) :
    Yields (Draft.Accounts tokens true) (expressionStatement d) := by
  unfold expressionStatement
  apply h.expression.bind
  intro d₁ h₁
  exact (h₁.emit .pop).expectLineEnd

theorem accounts_elementAssignment (h : d.Accounts tokens start) (name : String) :
    Yields (Draft.Accounts tokens true) (elementAssignment d name) := by
  unfold elementAssignment
  apply (h.emitName .load name).skipLineBreaks.expression.bind
  intro d₁ h₁
  apply (h₁.skipLineBreaks.expect _ (by decide)).bind
  intro d₂ h₂
  apply (h₂.expect _ (by decide)).bind
  intro d₃ h₃
  apply h₃.expression.bind
  intro d₄ h₄
  exact (h₄.emit .put).expectLineEnd

theorem accounts_memberAssignment (h : d.Accounts tokens start) (name : String) :
    Yields (Draft.Accounts tokens true) (memberAssignment d name) := by
  unfold memberAssignment Draft.expectText
  obtain ⟨e, he⟩ | ⟨d₁, hd₁, h₁⟩ := ((h.emitName .load name).expect .identifier (by decide)).cases
  · rw [he]
    exact yields_error e
  rw [hd₁]
  apply (h₁.expect .equal (by decide)).bind
  intro d₂ h₂
  apply h₂.expression.bind
  intro d₃ h₃
  exact ((h₃.emitName .set _).emit .pop).expectLineEnd

theorem accounts_assignment (h : d.Accounts tokens start) (name : String) (visible : Bool) :
    Yields (Draft.Accounts tokens true) (assignment d name visible) := by
  unfold assignment
  apply h.expression.bind
  intro d₁ h₁
  dsimp only
  split
  · exact (h₁.emitName .store name).expectLineEnd
  · exact ((h₁.declare name).emitName .store name).expectLineEnd

theorem accounts_declaration (h : d.Accounts tokens start) (hkind : d.peek.kind = .identifier) :
    Yields (Draft.Accounts tokens true) (declaration d) := by
  have hname := h.next (by rw [hkind]; decide)
  unfold declaration
  dsimp only
  rw [← Draft.peek_next]
  split
  · rename_i hsecond
    exact accounts_assignment (hname.next (by rw [hsecond]; decide)) _ _
  · rename_i hsecond
    split
    · exact accounts_elementAssignment (hname.next (by rw [hsecond]; decide)) _
    · exact yields_error _
  · rename_i hsecond
    split
    · exact accounts_memberAssignment (hname.next (by rw [hsecond]; decide)) _
    · exact yields_error _
  · exact accounts_expressionStatement h

theorem accounts_returnStatement (h : d.Accounts tokens start) (hkind : d.peek.kind = .return_) :
    Yields (Draft.Accounts tokens true) (returnStatement d) := by
  have hnext := h.next (by rw [hkind]; decide)
  have hline : d.next.expectLineEnd = if d.next.atEnd then .ok d.next else d.next.expect .lineBreak :=
    rfl
  unfold returnStatement
  dsimp only
  split
  · rename_i hend
    rw [if_pos hend] at hline
    exact yields_ok (((hnext.expectLineEnd.of_ok hline).emitValue .null).emit .ret)
  split
  · rename_i hsees
    exact yields_ok (((hnext.nextLine (Draft.sees_iff.mp hsees)).emitValue .null).emit .ret)
  · apply hnext.expression.bind
    intro d₁ h₁
    apply h₁.expectLineEnd.bind
    intro d₂ h₂
    exact yields_ok (h₂.emit .ret)

theorem accounts_inlineStatement (h : d.Accounts tokens start) :
    Yields (Draft.Accounts tokens true) (inlineStatement d) := by
  unfold inlineStatement
  split
  · exact accounts_declaration h ‹_›
  · exact accounts_returnStatement h ‹_›
  · exact accounts_expressionStatement h

end

/-! ## Functions -/

/-- The parameters that are read are those that are listed. -/
theorem listed_parameters (fuel : Nat) (d : Draft) (names : List String) :
    Yields (fun r => ∃ ts more opened, r.2 = names.reverse ++ more ∧ d.rest = ts ++ r.1.rest ∧
        Listed (ts.map Token.face) more opened ∧ r.1.frame = d.frame)
      (parameters fuel d names) := by
  induction fuel generalizing d names with
  | zero => exact yields_error _
  | succ fuel ih =>
      rw [parameters]
      split
      · rename_i hkind
        obtain ⟨rest, hrest⟩ := Draft.rest_eq_cons_of_peek (d := d) (by rw [hkind]; decide)
        have hnext : d.next.rest = rest := by
          rw [Draft.rest_next, hrest]
          rfl
        have hface : d.peek.face = (.identifier, d.peek.text) := by rw [Token.face, hkind]
        split
        · exact yields_error _
        split
        · rename_i hsees
          have hcomma := Draft.sees_iff.mp hsees
          obtain ⟨rest', hrest'⟩ := Draft.rest_eq_cons_of_peek (d := d.next) (by rw [hcomma]; decide)
          have hsecond : d.next.next.rest = rest' := by
            rw [Draft.rest_next, hrest']
            rfl
          obtain ⟨e, he⟩ | ⟨r, hr, ts, more, opened, hnames, hts, hlisted, hframe⟩ :=
            (ih d.next.next.skipLineBreaks (d.peek.text :: names)).cases
          · rw [he]
            exact yields_error e
          rw [hr]
          refine yields_ok ⟨d.peek :: d.next.peek ::
            (rest'.takeWhile (fun t => t.kind = .lineBreak) ++ ts), d.peek.text :: more, opened,
            ?_, ?_, ?_, ?_⟩
          · rw [hnames, List.reverse_cons, List.append_assoc]
            rfl
          · rw [Draft.rest_skipLineBreaks, hsecond] at hts
            rw [hrest, ← hnext, hrest', List.cons_append, List.cons_append, List.append_assoc, ← hts,
              List.takeWhile_append_dropWhile]
          · have hbreaks : ∀ f ∈ (rest'.takeWhile fun t => t.kind = .lineBreak).map Token.face,
                f.1 = .lineBreak := by
              rintro _ hf
              obtain ⟨t, ht, rfl⟩ := List.mem_map.mp hf
              simpa [Token.face] using List.mem_takeWhile_imp ht
            rw [List.map_cons, List.map_cons, List.map_append, hface, Token.face, hcomma]
            exact .more _ _ hbreaks hlisted
          · rw [hframe, Draft.frame_skipLineBreaks, Draft.frame_next, Draft.frame_next]
        · refine yields_ok ⟨[d.peek], [d.peek.text], false, ?_, ?_, ?_, d.frame_next⟩
          · rw [List.reverse_cons]
          · rw [hnext, hrest]
            rfl
          · rw [List.map_singleton, hface]
            exact .last _
      · exact yields_ok ⟨[], [], true, (List.append_nil _).symm, rfl, .nil, rfl⟩

theorem Draft.functions_of_frame {d d' : Draft} (h : d'.frame = d.frame) :
    d'.functions = d.functions := by
  have hfunctions := congrArg (fun x : Draft => x.functions) h
  exact hfunctions

/-- A token that is expected goes by. -/
theorem Draft.rest_of_expect {d d' : Draft} {kind : TokenKind} (h : d.expect kind = .ok d')
    (hkind : kind ≠ .endOfInput) :
    d.rest = d.peek :: d'.rest ∧ d.peek.face = (kind, d.peek.text) ∧ d'.frame = d.frame := by
  obtain ⟨hpeek, rfl⟩ := Draft.expect_eq_ok h
  obtain ⟨rest, hrest⟩ := Draft.rest_eq_cons_of_peek (d := d) (by rwa [hpeek])
  refine ⟨?_, by rw [Token.face, hpeek], d.frame_next⟩
  rw [Draft.rest_next, hrest]
  rfl

/-- What is read behind `func` makes up a header, and the function is entered that it names. -/
theorem header_of_functionHeader {d d' : Draft} (h : functionHeader d = .ok d') :
    ∃ (new : Header) (d₁ d₂ : Draft) (ts : List Token), d.rest = ts ++ d₁.rest ∧
      (∀ keyword, IsHeader ((.func, keyword) :: ts.map Token.face) new) ∧
      d.functions.get? new.name = none ∧ NameOf ts new.name ∧ d₁.frame = d.frame ∧
      d₁.expectLineEnd = .ok d₂ ∧ d' = d₂.enter new.name new.params := by
  obtain ⟨d₁, hname, h⟩ := bind_eq_ok h
  obtain ⟨hrest₁, hface₁, hframe₁⟩ := Draft.rest_of_expect hname (by decide)
  split at h
  · cases h
  rename_i hnew
  obtain ⟨d₂, hleft, h⟩ := bind_eq_ok h
  obtain ⟨hrest₂, hface₂, hframe₂⟩ := Draft.rest_of_expect hleft (by decide)
  obtain ⟨⟨d₃, params⟩, hparams, h⟩ := bind_eq_ok h
  obtain ⟨ts, more, opened, hmore, hts, hlisted, hframe₃⟩ :=
    (listed_parameters _ _ _).of_ok hparams
  obtain ⟨-, -, hnodup, -⟩ :=
    (sound_parameters (Nat.lt_succ_self d₂.rest.length) List.nodup_nil).of_ok hparams
  dsimp only at h hmore hts hframe₃ hnodup
  obtain rfl : params = more := hmore
  obtain ⟨d₄, hright, h⟩ := bind_eq_ok h
  obtain ⟨hrest₄, hface₄, hframe₄⟩ := Draft.rest_of_expect hright (by decide)
  obtain ⟨d₅, hline, h⟩ := bind_eq_ok h
  have harity : d.arity? d.peek.text = none := by
    rw [← Draft.arity?_eq_of_frame hframe₁]
    exact Option.not_isSome_iff_eq_none.mp hnew
  refine ⟨⟨d.peek.text, params⟩, d₄, d₅, d.peek :: d₁.peek :: (ts ++ [d₃.peek]), ?_, ?_,
    Draft.get?_of_arity?_eq_none harity,
    ⟨d.peek, List.mem_cons_self, congrArg Prod.fst hface₁, rfl⟩,
    hframe₄.trans (hframe₃.trans (hframe₂.trans hframe₁)), hline, (Except.ok.inj h).symm⟩
  · rw [hrest₁, hrest₂, hts, hrest₄]
    simp
  · intro keyword
    rw [List.map_cons, List.map_cons, List.map_append, List.map_singleton, hface₁, hface₂, hface₄]
    exact .intro keyword _ _ _ hlisted hnodup

/-- A header that is read is known, and so is its function when it is entered. -/
theorem accounts_functionHeader {tokens : List Token}
    (hnames : ∀ t ∈ tokens, t.kind = .identifier → t.text ≠ topLevel) {d : Draft}
    (h : d.Accounts tokens true) (hkind : d.peek.kind = .func) :
    Yields (Draft.Accounts tokens true) (functionHeader d.next) := by
  cases hresult : functionHeader d.next with
  | error e => exact yields_error e
  | ok d' =>
      obtain ⟨headers, hread, hknows⟩ := h
      obtain ⟨⟨name, params⟩, d₁, d₂, ts, hrest, hheader, hnew, hname, hframe, hline, rfl⟩ :=
        header_of_functionHeader hresult
      obtain ⟨rest, hcons⟩ := Draft.rest_eq_cons_of_peek (d := d) (by rw [hkind]; decide)
      have hfunc : d.rest = (d.peek :: ts) ++ d₁.rest := by
        rw [List.cons_append, ← hrest, Draft.rest_next, hcons]
        rfl
      have hreserved : name ≠ topLevel := by
        obtain ⟨t, ht, hident, rfl⟩ := hname
        refine hnames t (hread.mem_of_mem_rest ?_) hident
        rw [hfunc]
        exact List.mem_append_left _ (List.mem_cons_of_mem _ ht)
      have hread₁ : HasRead tokens (headers ++ [⟨name, params⟩]) false d₁.rest := by
        refine (hfunc ▸ hread).header ?_
        rw [List.map_cons, Token.face, hkind]
        exact hheader _
      have hframe₂ : d₂.frame = d.next.frame :=
        (d₁.sound_expectLineEnd.of_ok hline).frame_eq.trans hframe
      have hknows₂ : Knows headers d₂ := hknows.of_frame (hframe₂.trans d.frame_next)
      have hread₂ := hread₁.expectLineEnd hline
      rw [← Draft.functions_of_frame hframe₂] at hnew
      refine yields_ok ⟨headers ++ [⟨name, params⟩], ?_, hknows₂.enter params hreserved hnew⟩
      rwa [Draft.enter_eq params hreserved]

/-- With the given bound on the depth, what is compiled keeps the account. -/
structure Accounting (tokens : List Token) (fuel : Nat) : Prop where
  block : ∀ {d : Draft} (enders : List TokenKind), d.Accounts tokens true →
    Yields (Draft.Accounts tokens true) (blockWith fuel enders d)
  statement : ∀ {d : Draft}, d.Accounts tokens true →
    Yields (Draft.Accounts tokens true) (statement fuel d)
  conditional : ∀ {d : Draft}, d.Accounts tokens false →
    Yields (Draft.Accounts tokens true) (ifStatement fuel d)
  arms : ∀ {d : Draft} (branch : Nat) (jumps : List Nat), d.Accounts tokens true →
    Yields (fun r => r.1.Accounts tokens true) (arms fuel d branch jumps)
  loop : ∀ {d : Draft}, d.Accounts tokens false →
    Yields (Draft.Accounts tokens true) (whileStatement fuel d)
  function : ∀ {d : Draft}, d.Accounts tokens true → d.peek.kind = .func →
    Yields (Draft.Accounts tokens true) (functionDefinition fuel d.next)

namespace Accounting

variable {tokens : List Token} {fuel : Nat} (accounting : Accounting tokens fuel) {d : Draft}
include accounting

theorem block_step (enders : List TokenKind) (h : d.Accounts tokens true) :
    Yields (Draft.Accounts tokens true) (blockWith (fuel + 1) enders d) := by
  rw [blockWith_succ]
  split
  · exact yields_ok h
  · exact (accounting.statement h).bind fun d₁ h₁ => accounting.block enders h₁

theorem statement_step (h : d.Accounts tokens true) :
    Yields (Draft.Accounts tokens true) (Compile.statement (fuel + 1) d) := by
  unfold Compile.statement
  dsimp only
  split
  · exact accounts_declaration h ‹_›
  · rename_i hkind
    exact accounting.conditional (h.next (by rw [hkind]; decide))
  · rename_i hkind
    exact accounting.loop (h.next (by rw [hkind]; decide))
  · rename_i hkind
    split
    · exact yields_error _
    · exact accounting.function h hkind
  · exact accounts_returnStatement h ‹_›
  · exact yields_ok (h.nextLine ‹_›)
  · exact yields_error _
  · exact yields_error _
  · exact yields_error _
  · exact accounts_expressionStatement h

theorem conditional_step (h : d.Accounts tokens false) :
    Yields (Draft.Accounts tokens true) (ifStatement (fuel + 1) d) := by
  rw [ifStatement_succ]
  apply h.expression.bind
  intro d₁ h₁
  split
  · rename_i hsees
    apply (accounts_inlineStatement ((h₁.emitJump .branch).next
      (by rw [Draft.sees_iff.mp hsees]; decide))).bind
    intro d₂ h₂
    exact h₂.patchHere _
  apply (h₁.emitJump .branch).expectLineEnd.bind
  intro d₂ h₂
  apply (accounting.arms _ _ h₂).bind
  rintro ⟨d₃, jumps⟩ h₃
  have helse : Yields (Draft.Accounts tokens true) (elseBlock fuel d₃) := by
    unfold elseBlock
    split
    · rename_i hsees
      exact (h₃.next (by rw [Draft.sees_iff.mp hsees]; decide)).expectLineEnd.bind fun _ h₄ =>
        accounting.block _ h₄
    · exact yields_ok h₃
  apply helse.bind
  intro d₄ h₄
  apply (h₄.expect .end_ (by decide)).bind
  intro d₅ h₅
  exact (h₅.patchAllHere jumps).bind fun _ h₆ => h₆.expectLineEnd

theorem arms_step (branch : Nat) (jumps : List Nat) (h : d.Accounts tokens true) :
    Yields (fun r => r.1.Accounts tokens true) (Compile.arms (fuel + 1) d branch jumps) := by
  unfold Compile.arms
  apply (accounting.block _ h).bind
  intro d₁ h₁
  apply ((h₁.emitJump .jump).patchHere _).bind
  intro d₂ h₂
  dsimp only
  split
  · rename_i hsees
    apply (h₂.next (by rw [Draft.sees_iff.mp hsees]; decide)).expression.bind
    intro d₃ h₃
    apply (h₃.emitJump .branch).expectLineEnd.bind
    intro d₄ h₄
    exact accounting.arms _ _ h₄
  · exact yields_ok h₂

theorem loop_step (h : d.Accounts tokens false) :
    Yields (Draft.Accounts tokens true) (whileStatement (fuel + 1) d) := by
  unfold whileStatement
  apply h.expression.bind
  intro d₁ h₁
  apply h₁.expectLineEnd.bind
  intro d₂ h₂
  apply (accounting.block _ (h₂.emitJump .branch)).bind
  intro d₃ h₃
  apply ((h₃.emitJumpTo .jump _).patchHere _).bind
  intro d₄ h₄
  apply (h₄.expect .end_ (by decide)).bind
  intro d₅ h₅
  exact h₅.expectLineEnd

theorem function_step (hnames : ∀ t ∈ tokens, t.kind = .identifier → t.text ≠ topLevel)
    (h : d.Accounts tokens true) (hkind : d.peek.kind = .func) :
    Yields (Draft.Accounts tokens true) (functionDefinition (fuel + 1) d.next) := by
  unfold functionDefinition
  apply (accounts_functionHeader hnames h hkind).bind
  intro d₁ h₁
  apply (accounting.block _ h₁).bind
  intro d₂ h₂
  apply (((h₂.emitValue .null).emit .ret).expect .end_ (by decide)).bind
  intro d₃ h₃
  apply h₃.checkResolved.bind
  intro d₄ h₄
  exact h₄.leave.expectLineEnd

end Accounting

/-- Each bound follows from the one before. -/
theorem accounting {tokens : List Token}
    (hnames : ∀ t ∈ tokens, t.kind = .identifier → t.text ≠ topLevel) (fuel : Nat) :
    Accounting tokens fuel := by
  induction fuel with
  | zero => constructor <;> intros <;> exact yields_error _
  | succ fuel ih =>
      exact {
        block := fun enders h => ih.block_step enders h
        statement := fun h => ih.statement_step h
        conditional := fun h => ih.conditional_step h
        arms := fun branch jumps h => ih.arms_step branch jumps h
        loop := fun h => ih.loop_step h
        function := fun h hkind => ih.function_step hnames h hkind }

end Compile

namespace Compiler

open LineScript.Code LineScript.Compile

/-- The functions of a program are those of the headers among the tokens it was compiled from. -/
theorem headed_of_compile {c : Compiler} (hprelude : c.prelude? = none) {tokens : List Token}
    (hproper : ∀ t ∈ tokens, t.Proper) {p : Program} (h : c.compile tokens = .ok p) :
    ∃ headers stop, Headed true (tokens.map Token.face) headers stop ∧
      (headers.map (·.name)).Nodup ∧
      ∀ h : Header, h ∈ headers ↔ h.name ≠ topLevel ∧
        (p.functions.get? h.name).map Function.params = some h.params := by
  have hfunctions : ∀ name, (c.draft tokens).functions.get? name = none := by
    intro name
    unfold draft
    rw [hprelude]
    rfl
  have hbegin : (c.draft tokens).Accounts tokens true := by
    refine ⟨[], ⟨[], true, rfl, .nil true, fun _ => .inl rfl⟩, ?_, List.nodup_nil, nofun, nofun⟩
    intro header
    rw [hfunctions]
    exact iff_of_false nofun nofun
  unfold compile at h
  obtain ⟨d, hblock, h⟩ := bind_eq_ok h
  obtain ⟨d', hresolved, hprogram⟩ := bind_eq_ok h
  obtain rfl := Draft.eq_of_checkResolved hresolved
  cases hprogram
  obtain ⟨headers, hread, hknows⟩ :=
    ((accounting (fun t ht hkind => ((hproper t ht).2 hkind).2) _).block [] hbegin).of_ok hblock
  obtain ⟨before, stop, htokens, hheaded, -⟩ := hread.headed
  have hrest : d'.rest = [] := by
    cases hrest : d'.rest with
    | nil => rfl
    | cons t rest =>
        have hend := atEnd_of_blockWith hblock
        unfold Draft.atEnd at hend
        rw [Draft.peek_of_cons hrest] at hend
        exact absurd (of_decide_eq_true hend)
          (hproper t (hread.mem_of_mem_rest (by rw [hrest]; exact List.mem_cons_self))).1
  rw [hrest, List.append_nil] at htokens
  refine ⟨headers, stop, htokens ▸ hheaded, hknows.nodup, fun header => ?_⟩
  unfold Draft.program
  dsimp only
  constructor
  · intro hheader
    have hne := hknows.reserved header hheader
    rw [Dict.get?_insert_of_ne _ _ hne]
    exact ⟨hne, (hknows.functions header).mpr hheader⟩
  · rintro ⟨hne, hparams⟩
    rw [Dict.get?_insert_of_ne _ _ hne] at hparams
    exact (hknows.functions header).mp hparams

end Compiler

end LineScript
