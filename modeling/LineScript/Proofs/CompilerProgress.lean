/-
# Compilations come to an end

The compiler is a set of functions that call each other and loops that come round until some token stops them,
and nothing but the tokens they consume brings them to an end. Whatever tokens they are given, also such that
no script is scanned to, with ends of the input among them or no line break at the end: each construct of the
language that is read takes the cursor further, and never past the end of the input. So no loop comes round
more often than there are tokens left, a compilation always has a result, and this result does not depend on
tokens behind the end of the input.
-/

import LineScript.Proofs.StackDiscipline
import LineScript.Proofs.StatementProgress

namespace LineScript.Compile

open Draft

/-! ## Constructs -/

/-- The constructs of the language, each with a part of the compiler that reads it. -/
inductive Construct where
  | expression
  | call
  | index
  | list
  | object
  | declaration
  | ifStatement
  | whileStatement
  | functionDefinition
  | returnStatement
  | expressionStatement

namespace Construct

/-- Compiles a construct. A conditional, a loop and a function are read from their first word on, an index, a
list and an object from behind their opening bracket and the line breaks there. -/
def compile : Construct → Nat → Draft → Result
  | expression, fuel, d => expressionWith fuel d
  | call, fuel, d => Compile.call fuel d
  | index, fuel, d => subscript fuel d
  | list, fuel, d => listLiteral fuel d
  | object, fuel, d => objectLiteral fuel d
  | declaration, _, d => Compile.declaration d
  | ifStatement, fuel, d => Compile.ifStatement fuel d.next
  | whileStatement, fuel, d => Compile.whileStatement fuel d.next
  | functionDefinition, fuel, d => Compile.functionDefinition fuel d.next
  | returnStatement, _, d => Compile.returnStatement d
  | expressionStatement, _, d => Compile.expressionStatement d

/-- What holds wherever the compiler begins with a construct: the tokens by which the construct was chosen are
there. Constructs that are not chosen by a token of theirs are begun anywhere. -/
def Begins : Construct → Draft → Prop
  | call, d => d.atEnd = false ∧ d.peekSecond.kind ≠ .endOfInput
  | declaration, d | ifStatement, d | whileStatement, d | functionDefinition, d | returnStatement, d =>
    d.atEnd = false
  | expression, _ | index, _ | list, _ | object, _ | expressionStatement, _ => True

theorem further {construct : Construct} {fuel : Nat} {d d' : Draft} (hbegins : construct.Begins d)
    (h : construct.compile fuel d = .ok d') : d.Further d' := by
  have hexpressions := expressionsPaired fuel 0
  have hstatements := statementsPaired fuel 0
  cases construct with
  | expression => exact (hexpressions.expression d).of_ok h
  | call => exact (hexpressions.call d hbegins.1 hbegins.2).of_ok h
  | index => exact (hexpressions.subscript d).of_ok h
  | list => exact (hexpressions.listLiteral d).of_ok h
  | object => exact (hexpressions.objectLiteral d).of_ok h
  | declaration =>
      have hpaired : Paired False cut _ _ _ := paired_declaration d hbegins
      exact hpaired.of_ok h
  | ifStatement =>
      exact (further_next hbegins).trans ((hstatements.conditional d.next).of_ok h).within
  | whileStatement => exact (further_next hbegins).trans ((hstatements.loop d.next).of_ok h).within
  | functionDefinition =>
      exact (further_next hbegins).trans ((hstatements.function d.next).of_ok h).within
  | returnStatement =>
      have hpaired : Paired False cut _ _ _ := paired_returnStatement d hbegins
      exact hpaired.of_ok h
  | expressionStatement =>
      have hpaired : Paired False cut _ _ _ := paired_expressionStatement d
      exact hpaired.of_ok h

end Construct

/-- A statement that is more than a line break is a construct that begins here. -/
theorem construct_of_statement {fuel : Nat} {d d' : Draft} (h : statement (fuel + 1) d = .ok d') :
    d.peek.kind = .lineBreak ∧ d' = d.next ∨
      ∃ construct : Construct, construct.Begins d ∧ construct.compile fuel d = .ok d' := by
  have hbegins : d.peek.kind ≠ .endOfInput → d.atEnd = false := atEnd_eq_false_iff.mpr
  unfold statement at h
  dsimp only at h
  split at h
  · exact .inr ⟨.declaration, hbegins (by rw [‹d.peek.kind = _›]; decide), h⟩
  · exact .inr ⟨.ifStatement, hbegins (by rw [‹d.peek.kind = _›]; decide), h⟩
  · exact .inr ⟨.whileStatement, hbegins (by rw [‹d.peek.kind = _›]; decide), h⟩
  · split at h
    · cases h
    · exact .inr ⟨.functionDefinition, hbegins (by rw [‹d.peek.kind = _›]; decide), h⟩
  · exact .inr ⟨.returnStatement, hbegins (by rw [‹d.peek.kind = _›]; decide), h⟩
  · exact .inl ⟨‹_›, (Except.ok.inj h).symm⟩
  · cases h
  · cases h
  · cases h
  · exact .inr ⟨.expressionStatement, trivial, h⟩

theorem construct_of_inlineStatement {d d' : Draft} (h : inlineStatement d = .ok d') :
    ∃ construct : Construct, construct.Begins d ∧ ∀ fuel, construct.compile fuel d = .ok d' := by
  have hbegins : d.peek.kind ≠ .endOfInput → d.atEnd = false := atEnd_eq_false_iff.mpr
  unfold inlineStatement at h
  split at h
  · exact ⟨.declaration, hbegins (by rw [‹d.peek.kind = _›]; decide), fun _ => h⟩
  · exact ⟨.returnStatement, hbegins (by rw [‹d.peek.kind = _›]; decide), fun _ => h⟩
  · exact ⟨.expressionStatement, trivial, fun _ => h⟩

/-- A name with a parenthesis behind it is a call that begins there. -/
theorem call_of_operatorTurn {fuel : Nat} {d : Draft} {p : Progress} {s : Draft × Progress}
    (hname : d.peek.kind = .identifier) (hparen : d.peekSecond.kind = .leftParen)
    (h : operatorTurn fuel d p = .ok (.inl s)) :
    Construct.call.Begins d ∧ Construct.call.compile fuel d = .ok s.1 := by
  refine ⟨⟨atEnd_eq_false_iff.mpr (by rw [hname]; decide), by rw [hparen]; decide⟩, ?_⟩
  unfold operatorTurn at h
  simp only [hname, if_pos hparen] at h
  split at h
  · cases h
  change call fuel d = .ok s.1
  cases hcall : call fuel d <;> rw [hcall] at h <;> cases h
  rfl

/-! ## Loops -/

/-- A loop of the compiler, taken apart into turns. A turn either leads to the next one, and then it has
consumed a token, or it ends the loop. -/
structure Loop (σ α : Type) where
  run : Nat → σ → Except CompileError α
  turn : Nat → σ → Except CompileError (σ ⊕ α)
  /-- Where a turn begins. -/
  before : σ → Draft
  /-- Where the loop has ended. -/
  behind : α → Draft
  run_zero : ∀ s a, run 0 s ≠ .ok a
  run_succ : ∀ fuel s, run (fuel + 1) s = turn fuel s >>= Sum.elim (run fuel) .ok
  further : ∀ fuel s s', turn fuel s = .ok (.inl s') → (before s).Further (before s')
  within : ∀ fuel s a, turn fuel s = .ok (.inr a) → (before s).Within (behind a)

namespace Loop

variable {σ α : Type} (l : Loop σ α)

/-- How many turns the loop takes: all that lead to another one, and the last one too, whether it consumes
tokens, only meets the one that ends the loop, or fails at one. A last turn at the end of the input meets no
token any more, and it does not count. -/
def turns : Nat → σ → Nat
  | 0, _ => 0
  | fuel + 1, s =>
    match l.turn fuel s with
    | .ok (.inl s') => turns fuel s' + 1
    | .ok (.inr _) | .error _ => if (l.before s).atEnd then 0 else 1

/-- The loop never takes more turns than there are tokens left, and never goes past the end of the input. -/
structure OncePerToken : Prop where
  turns_le : ∀ fuel s, l.turns fuel s ≤ (l.before s).ahead.length
  within : ∀ fuel s a, l.run fuel s = .ok a → (l.before s).Within (l.behind a)

theorem turns_le (fuel : Nat) (s : σ) : l.turns fuel s ≤ (l.before s).ahead.length := by
  induction fuel generalizing s with
  | zero => exact Nat.zero_le _
  | succ fuel ih =>
      -- The last turn is paid for by the token that it meets, which may be left.
      have hlast : (if (l.before s).atEnd then 0 else 1) ≤ (l.before s).ahead.length := by
        split
        · exact Nat.zero_le _
        · have hnext := (further_next (Bool.eq_false_iff.mpr ‹¬_›)).length_lt
          exact Nat.lt_of_le_of_lt (Nat.zero_le _) hnext
      unfold turns
      cases hturn : l.turn fuel s with
      | error e => exact hlast
      | ok result =>
          cases result with
          | inl s' => exact Nat.lt_of_le_of_lt (ih s') (l.further fuel s s' hturn).length_lt
          | inr a => exact hlast

theorem oncePerToken : l.OncePerToken := by
  refine ⟨l.turns_le, fun fuel => ?_⟩
  induction fuel with
  | zero => exact fun s a h => absurd h (l.run_zero s a)
  | succ fuel ih =>
      intro s a h
      rw [l.run_succ] at h
      cases hturn : l.turn fuel s with
      | error e =>
          rw [hturn] at h
          cases h
      | ok result =>
          rw [hturn] at h
          cases result with
          | inl s' => exact (l.further fuel s s' hturn).within.trans (ih s' a h)
          | inr a' =>
              cases h
              exact l.within fuel s a hturn

end Loop

/-- The loop over the statements of a block. -/
def blockLoop (enders : List TokenKind) : Loop Draft Draft where
  run fuel d := blockWith fuel enders d
  turn fuel d := blockTurn fuel enders d
  before := id
  behind := id
  run_zero _ _ := nofun
  run_succ fuel d := blockWith_turn fuel d enders
  further fuel d _ h := ((statementsPaired fuel 0).blockTurn d enders).of_ok h
  within fuel d _ h := ((statementsPaired fuel 0).blockTurn d enders).of_ok h

/-- The loop over the operators and values of an expression. -/
def operatorLoop : Loop (Draft × Progress) Draft where
  run fuel s := terms fuel s.1 s.2
  turn fuel s := operatorTurn fuel s.1 s.2
  before := Prod.fst
  behind := id
  run_zero _ _ := nofun
  run_succ fuel s := terms_turn fuel s.1 s.2
  further fuel s _ h := ((expressionsPaired fuel 0).operatorTurn s.1 s.2).of_ok h
  within fuel s _ h := (((expressionsPaired fuel 0).operatorTurn s.1 s.2).of_ok h).1

/-- The loop over the arguments of a call. -/
def argumentLoop : Loop (Draft × Nat) (Draft × Nat) where
  run fuel s := arguments fuel s.1 s.2
  turn fuel s := argumentTurn fuel s.1 s.2
  before := Prod.fst
  behind := Prod.fst
  run_zero _ _ := nofun
  run_succ fuel s := arguments_turn fuel s.1 s.2
  further fuel s _ h := ((expressionsPaired fuel 0).argumentTurn s.1 s.2).of_ok h
  within fuel s _ h := Further.within (((expressionsPaired fuel 0).argumentTurn s.1 s.2).of_ok h)

/-- The loop over the elements of a list. -/
def elementLoop : Loop Draft Draft where
  run := elements
  turn := elementTurn
  before := id
  behind := id
  run_zero _ _ := nofun
  run_succ := elements_turn
  further fuel d _ h := ((expressionsPaired fuel 0).elementTurn d).of_ok h
  within fuel d _ h := ((expressionsPaired fuel 0).elementTurn d).of_ok h

/-- The loop over the members of an object. -/
def memberLoop : Loop Draft Draft where
  run := members
  turn := memberTurn
  before := id
  behind := id
  run_zero _ _ := nofun
  run_succ := members_turn
  further fuel d _ h := ((expressionsPaired fuel 0).memberTurn d).of_ok h
  within fuel d _ h := ((expressionsPaired fuel 0).memberTurn d).of_ok h

/-- The loop over the parameters of a function. -/
def parameterLoop : Loop (Draft × List String) (Draft × List String) where
  run fuel s := parameters fuel s.1 s.2
  turn _ s := parameterTurn s.1 s.2
  before := Prod.fst
  behind := Prod.fst
  run_zero _ _ := nofun
  run_succ fuel s := parameters_turn fuel s.1 s.2
  further _ s _ h :=
    have hpaired : Paired False _ _ _ _ := paired_parameterTurn s.1 s.2
    hpaired.of_ok h
  within _ s _ h :=
    have hpaired : Paired False _ _ _ _ := paired_parameterTurn s.1 s.2
    hpaired.of_ok h

/-- The loop over the arms of a conditional. -/
def armLoop : Loop (Draft × Nat × List Nat) (Draft × List Nat) where
  run fuel s := arms fuel s.1 s.2.1 s.2.2
  turn fuel s := armTurn fuel s.1 s.2.1 s.2.2
  before := Prod.fst
  behind := Prod.fst
  run_zero _ _ := nofun
  run_succ fuel s := arms_turn fuel s.1 s.2.1 s.2.2
  further fuel s _ h := ((statementsPaired fuel 0).armTurn s.1 s.2.1 s.2.2).of_ok h
  within fuel s _ h := ((statementsPaired fuel 0).armTurn s.1 s.2.1 s.2.2).of_ok h

end LineScript.Compile

namespace LineScript.Compiler

open LineScript.Code LineScript.Compile LineScript.Compile.Draft

/-! ## Whole compilations -/

/-- A compilation with any fuel. -/
def compileWith (c : Compiler) (fuel : Nat) (tokens : List Token) : Except CompileError Program := do
  let d ← blockWith fuel [] (c.draft tokens)
  let d ← d.checkResolved
  .ok d.program

theorem compileWith_eq_compile (c : Compiler) (tokens : List Token) :
    c.compileWith (4 * tokens.length + 4) tokens = c.compile tokens := rfl

section

variable (c : Compiler) {e : Token} (he : e.kind = .endOfInput) (before after₁ after₂ : List Token)
include he

/-- A token that ends the input hides what stands behind it. -/
theorem hidden_behind_end (t₁ t₂ : Token) :
    (before ++ e :: after₁).takeWhile (·.kind ≠ .endOfInput) =
        (before ++ e :: after₂).takeWhile (·.kind ≠ .endOfInput) ∧
      ((before ++ e :: after₁).dropWhile (·.kind ≠ .endOfInput)).headD t₁ =
        ((before ++ e :: after₂).dropWhile (·.kind ≠ .endOfInput)).headD t₂ := by
  induction before with
  | nil => simp [he]
  | cons t before ih =>
      by_cases hkind : t.kind = .endOfInput
      · simp [hkind]
      · simpa [hkind] using ih

theorem ahead_draft_eq :
    (c.draft (before ++ e :: after₁)).ahead = (c.draft (before ++ e :: after₂)).ahead :=
  (hidden_behind_end he before after₁ after₂ e e).1

theorem cut_draft_eq : (c.draft (before ++ e :: after₁)).cut = (c.draft (before ++ e :: after₂)).cut := by
  have hending : (c.draft (before ++ e :: after₁)).ending = (c.draft (before ++ e :: after₂)).ending :=
    (hidden_behind_end he before after₁ after₂ _ _).2
  unfold cut
  rw [ahead_draft_eq c he before after₁ after₂, hending]
  rfl

end

/-- A compilation of a draft that was cut, with any fuel. -/
def compileCut (d : Draft) (fuel : Nat) : Except CompileError Program := do
  let d ← blockWith fuel [] d.cut
  let d ← d.checkResolved
  .ok d.program

section

variable (c : Compiler) (tokens : List Token) (fuel fuel' : Nat)

theorem paired_compileWith :
    Paired (Lasting 1 (c.draft tokens) fuel fuel') id (fun _ => True) (c.compileWith fuel tokens)
      (compileCut (c.draft tokens) fuel') := by
  unfold compileWith compileCut
  apply ((statementsPaired fuel fuel').block [] (c.draft tokens)).bind
  intro d₁ _
  apply (paired_checkResolved d₁).bind
  intro d₂ _
  exact paired_ok trivial

/-- The fuel of a compilation lasts. -/
theorem length_ahead_draft_lt : 4 * (c.draft tokens).ahead.length + 1 < 4 * tokens.length + 4 := by
  have hlength : (c.draft tokens).ahead.length ≤ tokens.length := (c.draft tokens).length_ahead_le
  omega

/-- All fuels that last give the result of the cut draft. -/
theorem compileCut_eq {fuel fuel' : Nat} (hfuel : 4 * (c.draft tokens).ahead.length + 1 < fuel)
    (hfuel' : 4 * (c.draft tokens).ahead.length + 1 < fuel') :
    compileCut (c.draft tokens) fuel' = c.compileWith fuel tokens :=
  (c.paired_compileWith tokens fuel fuel').eq ⟨hfuel, hfuel'⟩

end

/-- Whatever the state of a compilation, with any tokens in any order, a construct that is read takes the
cursor further, over tokens of which none ends the input. Every statement moves on: it is a line break, or a
construct that begins where the compiler begins to read it, and so does each call in an expression. No loop
takes more turns than there are tokens left before the input ends, or goes past that end. The fuel of a
compilation never runs out, more fuel makes no difference, and neither do tokens behind one that ends the
input. -/
theorem compilation_moves_on (c : Compiler) (tokens : List Token) :
    (∀ (construct : Construct) (fuel : Nat) (d d' : Draft), construct.Begins d →
      construct.compile fuel d = .ok d' → d.Further d') ∧
    (∀ (fuel : Nat) (d d' : Draft), statement (fuel + 1) d = .ok d' → d.Further d' ∧
      (d.peek.kind = .lineBreak ∧ d' = d.next ∨
        ∃ construct : Construct, construct.Begins d ∧ construct.compile fuel d = .ok d')) ∧
    (∀ (d d' : Draft), inlineStatement d = .ok d' → d.Further d' ∧
      ∃ construct : Construct, construct.Begins d ∧ ∀ fuel, construct.compile fuel d = .ok d') ∧
    (∀ (fuel : Nat) (d : Draft) (p : Progress) (s : Draft × Progress), d.peek.kind = .identifier →
      d.peekSecond.kind = .leftParen → operatorTurn fuel d p = .ok (.inl s) →
        Construct.call.Begins d ∧ Construct.call.compile fuel d = .ok s.1) ∧
    ((∀ enders, (blockLoop enders).OncePerToken) ∧ operatorLoop.OncePerToken ∧ argumentLoop.OncePerToken ∧
      elementLoop.OncePerToken ∧ memberLoop.OncePerToken ∧ parameterLoop.OncePerToken ∧
      armLoop.OncePerToken) ∧
    (∀ e, c.compile tokens = .error e → e.cause ≠ .exhausted) ∧
    (∀ fuel, 4 * tokens.length + 4 ≤ fuel → c.compileWith fuel tokens = c.compile tokens) ∧
    (∀ (fuel : Nat) (d : Draft), 4 * d.rest.length + 4 ≤ fuel → expressionWith fuel d = expression d) ∧
    ∀ (before after₁ after₂ : List Token) (e : Token), e.kind = .endOfInput →
      c.compile (before ++ e :: after₁) = c.compile (before ++ e :: after₂) := by
  have hlasts := c.length_ahead_draft_lt tokens
  refine ⟨fun _ _ _ _ hbegins h => Construct.further hbegins h,
    fun fuel d d' h => ⟨((statementsPaired (fuel + 1) 0).statement d).of_ok h, construct_of_statement h⟩,
    fun d d' h => ⟨?_, construct_of_inlineStatement h⟩,
    fun fuel d p s hname hparen h => call_of_operatorTurn hname hparen h,
    ⟨fun enders => (blockLoop enders).oncePerToken, operatorLoop.oncePerToken, argumentLoop.oncePerToken,
      elementLoop.oncePerToken, memberLoop.oncePerToken, parameterLoop.oncePerToken, armLoop.oncePerToken⟩,
    fun e he => ?_, fun fuel hfuel => ?_, fun fuel d hfuel => ?_, fun before after₁ after₂ e he => ?_⟩
  · have hpaired : Paired False cut _ _ _ := paired_inlineStatement d
    exact hpaired.of_ok h
  · have hpaired := c.paired_compileWith tokens (4 * tokens.length + 4) (4 * tokens.length + 4)
    rw [compileWith_eq_compile, he] at hpaired
    exact (hpaired ⟨hlasts, hlasts⟩).1
  · have hmore := Nat.lt_of_lt_of_le hlasts hfuel
    exact (c.compileCut_eq tokens hmore hlasts).symm.trans (c.compileCut_eq tokens hlasts hlasts)
  · have hagree := Precedence.agree (d.rest.length + 1)
    exact (hagree.expressionWith_eq (Nat.lt_succ_self _) (by omega)).trans (Precedence.expression_eq d).symm
  · -- Both compilations are that of one cut draft, with the fuel of either.
    have hlasts₁ := c.length_ahead_draft_lt (before ++ e :: after₁)
    have hlasts₂ := c.length_ahead_draft_lt (before ++ e :: after₂)
    have hahead := ahead_draft_eq c he before after₁ after₂
    have hsame : compileCut (c.draft (before ++ e :: after₁)) (4 * (before ++ e :: after₁).length + 4) =
        compileCut (c.draft (before ++ e :: after₂)) (4 * (before ++ e :: after₁).length + 4) := by
      unfold compileCut
      rw [cut_draft_eq c he before after₁ after₂]
    rw [← compileWith_eq_compile, ← compileWith_eq_compile, ← c.compileCut_eq _ hlasts₁ hlasts₁, hsame]
    exact c.compileCut_eq _ hlasts₂ (hahead ▸ hlasts₁)

/-- An assignment over two lines, with nothing to end the second one. -/
def unendedAssignment : List Token :=
  [{ kind := .identifier, text := "a", line := 1 }, { kind := .equal, line := 1 },
    { kind := .leftBracket, line := 1 }, { kind := .number, value := .ofNumber 1, line := 1 },
    { kind := .comma, line := 1 }, { kind := .lineBreak, line := 1 },
    { kind := .number, value := .ofNumber 2, line := 2 }, { kind := .rightBracket, line := 2 }]

/-- Tokens that would not compile. -/
def strayTokens : List Token := [{ kind := .end_, line := 3 }, .ending 3, { kind := .leftParen, line := 4 }]

/-- The assignment compiles when the input ends behind it, with stray tokens or without. It is the only turn of
its block, and its list takes two. -/
theorem compilation_moves_on_unended :
    ∃ (p : Program) (d d' : Draft), d = ({} : Compiler).draft (unendedAssignment ++ .ending 2 :: strayTokens) ∧
      ({} : Compiler).compile (unendedAssignment ++ .ending 2 :: strayTokens) = .ok p ∧
      ({} : Compiler).compile (unendedAssignment ++ [.ending 2]) = .ok p ∧
      Construct.declaration.compile 0 d = .ok d' ∧ d.Further d' ∧ d'.rest.length = 4 ∧
      (blockLoop []).turns 100 d = 1 ∧ elementLoop.turns 100 d.next.next.next = 2 ∧
      elementLoop.OncePerToken := by
  have hok : (({} : Compiler).compile (unendedAssignment ++ .ending 2 :: strayTokens)).isOk = true := by
    decide +kernel
  have hread : (Construct.declaration.compile 0
      (({} : Compiler).draft (unendedAssignment ++ .ending 2 :: strayTokens))).toOption.map
        (·.rest.length) = some 4 := by
    decide +kernel
  have hturns : (blockLoop []).turns 100
        (({} : Compiler).draft (unendedAssignment ++ .ending 2 :: strayTokens)) = 1 ∧
      elementLoop.turns 100
        (({} : Compiler).draft (unendedAssignment ++ .ending 2 :: strayTokens)).next.next.next = 2 := by
    decide +kernel
  obtain ⟨hfurther, -, -, -, ⟨-, -, -, helements, -⟩, -, -, -, hbehind⟩ :=
    compilation_moves_on {} (unendedAssignment ++ .ending 2 :: strayTokens)
  obtain ⟨p, hp⟩ := Registry.exists_of_isOk hok
  cases hdeclared : Construct.declaration.compile 0
      (({} : Compiler).draft (unendedAssignment ++ .ending 2 :: strayTokens)) with
  | error e =>
      rw [hdeclared] at hread
      cases hread
  | ok d' =>
      rw [hdeclared] at hread
      exact ⟨p, _, d', rfl, hp, (hbehind unendedAssignment [] strayTokens (.ending 2) rfl).trans hp, hdeclared,
        hfurther .declaration 0 _ d' rfl hdeclared, Option.some.inj hread, hturns.1, hturns.2, helements⟩

end LineScript.Compiler
