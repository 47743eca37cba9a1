/-
# Which incomplete scripts can be completed

A script that fails because its input ended is continued with lines of closing tokens. On
the level of tokens the statements say which lines those are. Here they get spelled, and
the tokens of the longer script are those of the script and then theirs.

Two kinds of scripts cannot be completed. In some a call that is still open has more
arguments already than it takes, or asks for fewer than it is certain to get: the compiler
only counts them at the closing parenthesis. In others a null character ends the input,
and what stands behind it is never read. All other scripts can be completed.
-/

import LineScript.Proofs.CompletedStatements
import LineScript.Proofs.JoinedTexts

namespace LineScript.Token

open Compile (Lines isCloser not_lineBreak_of_isCloser)

/-! ## Spelling closing tokens -/

/-- A closing token as it can be written. -/
def spelled (kind : TokenKind) : List Char :=
  if kind = .number then ['0'] else kind.label.toList

/-- Lines of closing tokens as they can be written, with a space behind each token. -/
def written : List TokenKind → List Char
  | [] => []
  | kind :: rest =>
    if kind = .lineBreak then '\n' :: written rest else spelled kind ++ ' ' :: written rest

theorem written_closer {kind : TokenKind} (h : isCloser kind = true) (rest : List TokenKind) :
    written (kind :: rest) = spelled kind ++ ' ' :: written rest := by
  rw [written, if_neg (not_lineBreak_of_isCloser h)]

/-- A zero is a number. -/
theorem beginning_zero (line : Nat) (more : List Char) :
    ∃ t : Token, t.kind = .number ∧
      beginning line '0' (' ' :: more) = .ok ⟨t, ' ' :: more, line⟩ := by
  have hread : (Number.read? "0").isSome = true := by decide
  obtain ⟨x, hx⟩ := Option.isSome_iff_exists.mp hread
  have hbody : numberBody ('0' :: ' ' :: more) = (['0'], ' ' :: more) := rfl
  have hsymbol : symbol? '0' = none := rfl
  unfold beginning
  rw [if_neg (by decide), hsymbol]
  dsimp only
  rw [if_neg (by decide), if_neg (by decide), if_neg (by decide), if_neg (by decide),
    if_pos (by decide), hbody]
  dsimp only
  rw [show String.ofList ['0'] = "0" from rfl, hx]
  exact ⟨_, rfl, rfl⟩

/-- A closing token is read as what it was written for. -/
theorem beginning_spelled {kind : TokenKind} (h : isCloser kind = true) :
    ∃ c cs, spelled kind = c :: cs ∧ isSpace c = false ∧ c ≠ '#' ∧ c ≠ '\n' ∧
      ∀ line more, ∃ t : Token, t.kind = kind ∧
        beginning line c (cs ++ ' ' :: more) = .ok ⟨t, ' ' :: more, line⟩ := by
  cases kind with
  | number => exact ⟨'0', [], rfl, by decide, by decide, by decide, beginning_zero⟩
  | end_ | comma | equal | rightParen | rightBracket | rightBrace =>
      exact ⟨_, _, rfl, by decide, by decide, by decide, fun line more => ⟨_, rfl, rfl⟩⟩
  | _ => cases h

/-! ## Reading them -/

/-- Characters that are read as tokens of the given kinds, on every line. `ended` says
whether the last token was a line break. -/
def Reads (ended : Bool) (cs : List Char) (kinds : List TokenKind) : Prop :=
  ∀ fuel line, cs.length < fuel →
    ∃ tokens, scanFrom fuel line ended cs = .ok tokens ∧ tokens.map (·.kind) = kinds

theorem reads_nil : Reads true [] [] := by
  intro fuel line hfuel
  obtain ⟨fuel, rfl⟩ := Nat.exists_eq_succ_of_ne_zero (Nat.ne_of_gt hfuel)
  exact ⟨[], rfl, rfl⟩

section

variable {ended : Bool} {cs : List Char} {kinds : List TokenKind}

theorem Reads.space (h : Reads ended cs kinds) : Reads ended (' ' :: cs) kinds := by
  intro fuel line hfuel
  obtain ⟨tokens, htokens, hkinds⟩ := h fuel line (Nat.lt_of_succ_lt hfuel)
  refine ⟨tokens, ?_, hkinds⟩
  cases fuel with
  | zero => cases htokens
  | succ fuel => exact htokens

theorem Reads.closer {kind : TokenKind} (h : Reads false cs kinds) (hkind : isCloser kind = true) :
    Reads ended (spelled kind ++ ' ' :: cs) (kind :: kinds) := by
  intro fuel line hfuel
  obtain ⟨c, name, hspelled, hspace, hhash, -, hbeginning⟩ := beginning_spelled hkind
  obtain ⟨t, rfl, ht⟩ := hbeginning line cs
  rw [hspelled, List.cons_append] at hfuel ⊢
  obtain ⟨fuel, rfl⟩ := Nat.exists_eq_succ_of_ne_zero (Nat.ne_of_gt (Nat.zero_lt_of_lt hfuel))
  have hlength : (' ' :: cs).length < fuel := by
    rw [List.length_cons, List.length_append] at hfuel
    omega
  obtain ⟨tokens, htokens, hkinds⟩ := h.space fuel line hlength
  have hnext : decide (t.kind = .lineBreak) = false :=
    decide_eq_false (not_lineBreak_of_isCloser hkind)
  refine ⟨t :: tokens, ?_, by rw [List.map_cons, hkinds]⟩
  rw [scanFrom, skipSpaces_of_head hspace hhash]
  dsimp only
  rw [ht]
  dsimp only
  rw [hnext, htokens]
  rfl

theorem Reads.lineBreak (h : Reads true cs kinds)
    (hcs : ∀ line, skipLines false line cs = (line, cs)) :
    Reads ended ('\n' :: cs) (.lineBreak :: kinds) := by
  intro fuel line hfuel
  obtain ⟨fuel, rfl⟩ := Nat.exists_eq_succ_of_ne_zero (Nat.ne_of_gt (Nat.zero_lt_of_lt hfuel))
  obtain ⟨tokens, htokens, hkinds⟩ := h fuel (line + 1) (Nat.lt_of_succ_lt_succ hfuel)
  refine ⟨{ kind := .lineBreak, text := "\n", line := line } :: tokens, ?_,
    by rw [List.map_cons, hkinds]⟩
  rw [scanFrom, skipSpaces_of_head (by decide) (by decide)]
  simp only [beginning, if_pos, hcs, decide_true]
  rw [htokens]
  rfl

end

/-- Lines begin with a closing token, so no blank line is skipped before them. -/
theorem skipLines_written {kinds : List TokenKind} (h : Lines kinds) (line : Nat) :
    skipLines false line (written kinds) = (line, written kinds) := by
  cases h with
  | nil => rfl
  | cons hne hclosers _ =>
      rename_i begun rest
      obtain ⟨kind, begun, rfl⟩ := List.exists_cons_of_ne_nil hne
      have hkind := hclosers kind List.mem_cons_self
      obtain ⟨c, cs, hspelled, hspace, hhash, hbreak, -⟩ := beginning_spelled hkind
      rw [List.cons_append, written_closer hkind, hspelled, List.cons_append, skipLines,
        if_neg hbreak, if_neg Bool.false_ne_true, if_neg (by simp [hspace]), if_neg hhash]

theorem reads_line {begun rest : List TokenKind} (hclosers : ∀ kind ∈ begun, isCloser kind = true)
    (hlines : Lines rest) (hrest : Reads true (written rest) rest) (ended : Bool) :
    Reads ended (written (begun ++ .lineBreak :: rest)) (begun ++ .lineBreak :: rest) := by
  induction begun generalizing ended with
  | nil => exact hrest.lineBreak (skipLines_written hlines)
  | cons kind begun ih =>
      obtain ⟨hkind, hbegun⟩ := List.forall_mem_cons.mp hclosers
      rw [List.cons_append, written_closer hkind]
      exact (ih hbegun false).closer hkind

/-- Lines are read as they were written. -/
theorem reads_written {kinds : List TokenKind} (h : Lines kinds) :
    Reads true (written kinds) kinds := by
  induction h with
  | nil => exact reads_nil
  | cons _ hclosers hlines ih => exact reads_line hclosers hlines ih true

theorem null_notMem_spelled {kind : TokenKind} (h : isCloser kind = true) :
    '\x00' ∉ spelled kind := by
  cases kind with
  | number | end_ | comma | equal | rightParen | rightBracket | rightBrace => decide
  | _ => cases h

theorem null_notMem_written {kinds : List TokenKind}
    (h : ∀ kind ∈ kinds, kind ≠ .lineBreak → isCloser kind = true) : '\x00' ∉ written kinds := by
  induction kinds with
  | nil => exact List.not_mem_nil
  | cons kind rest ih =>
      obtain ⟨hkind, hrest⟩ := List.forall_mem_cons.mp h
      rw [written]
      split
      · simpa using ih hrest
      · simpa using ⟨null_notMem_spelled (hkind ‹_›), ih hrest⟩

/-- The text of lines has the tokens that it was written for. -/
theorem scan_written {kinds : List TokenKind} (h : Lines kinds) (hne : kinds ≠ []) :
    ∃ tokens, scan (String.ofList (written kinds)) = .ok tokens ∧ tokens.map (·.kind) = kinds := by
  have hall : (written kinds).takeWhile (· ≠ '\x00') = written kinds := by
    refine List.takeWhile_eq_self_iff.mpr fun c hc => decide_eq_true ?_
    rintro rfl
    exact null_notMem_written h.closer_of_mem hc
  have hreads : Reads false (written kinds) kinds := by
    cases h with
    | nil => exact absurd rfl hne
    | cons _ hclosers hlines => exact reads_line hclosers hlines (reads_written hlines) false
  unfold scan
  rw [String.toList_ofList, hall]
  exact hreads _ 1 (Nat.lt_succ_self _)

/-! ## Lines behind a script -/

/-- A script with lines behind it has its tokens and theirs. -/
theorem scan_append_written {source : String} {tokens : List Token} {kinds : List TokenKind}
    (hnull : '\x00' ∉ source.toList) (hscan : scan source = .ok tokens) (h : Lines kinds)
    (hne : kinds ≠ []) :
    ∃ rest, scan (source ++ "\n" ++ String.ofList (written kinds)) = .ok (tokens ++ rest) ∧
      rest.map (·.kind) = kinds := by
  obtain ⟨lines, hlines, hkinds⟩ := scan_written h hne
  obtain ⟨rest, hrest, htrimmed⟩ := scan_append_break hnull hscan hlines
  have hunplaced : ∀ tokens : List Token,
      (tokens.map unplaced).map (·.kind) = tokens.map (·.kind) := by
    intro tokens
    rw [List.map_map]
    rfl
  refine ⟨rest, hrest, ?_⟩
  obtain hsame | ⟨t, ht, hsame⟩ := htrimmed
  · rw [← hunplaced, ← hsame, hunplaced, hkinds]
  · -- The first line is not blank.
    have hfirst := congrArg (List.map (·.kind)) hsame
    rw [hunplaced, hkinds, List.map_cons, ht] at hfirst
    exact absurd hfirst h.ne_lineBreak_cons

/-- A null character ends the input: no line more is read. -/
theorem scan_append_of_null {source : String} (h : '\x00' ∈ source.toList) (more : String) :
    scan (source ++ more) = scan source := by
  have hread : (source ++ more).toList.takeWhile (· ≠ '\x00') =
      source.toList.takeWhile (· ≠ '\x00') := by
    rw [String.toList_append, List.takeWhile_append, if_neg]
    intro hlength
    have hall := (List.takeWhile_prefix (p := (· ≠ '\x00')) (l := source.toList)).eq_of_length hlength
    exact of_decide_eq_true (List.takeWhile_eq_self_iff.mp hall _ h) rfl
  unfold scan
  rw [hread]

/-- What is no token is none whatever follows. -/
theorem atEnd_of_scanFrom {fuel line : Nat} {ended : Bool} {cs : List Char} {e : CompileError}
    (h : scanFrom fuel line ended cs = .error e) : e.atEnd = false := by
  induction fuel generalizing line ended cs with
  | zero =>
      cases h
      rfl
  | succ fuel ih =>
      unfold scanFrom at h
      split at h
      · cases h
      · split at h
        · cases h
          rfl
        · rename_i next _
          cases hrest : scanFrom fuel next.line (next.token.kind = .lineBreak) next.rest with
          | error e' =>
              rw [hrest] at h
              cases h
              exact ih hrest
          | ok tokens =>
              rw [hrest] at h
              cases h

end LineScript.Token

namespace LineScript.Compiler

open LineScript.Code LineScript.Compile

/-! ## Scripts -/

/-- Tokens that end too early are completed by lines. -/
theorem completable_compile (c : Compiler) {tokens : List Token} {e : CompileError}
    (hopen : (c.draft tokens).Open) (h : c.compile tokens = .error e) (hend : e.atEnd = true) :
    ∃ kinds, Lines kinds ∧ ∀ ws, ws.map (·.kind) = kinds →
      Succeeds (fun _ => True) (c.compile (tokens ++ ws)) := by
  have hcut : Ended Gone (block (c.draft tokens)) := by
    have hcompile : CutOff (c.compile tokens) := by
      rw [h]
      exact hend
    obtain hcut | ⟨d, -, hcut⟩ := hcompile.bind
    · exact hcut.ended
    · obtain hcut | ⟨d', -, hcut⟩ := hcut.bind
      · exact absurd hcut (not_cutOff_checkResolved d)
      · exact hcut.elim
  obtain ⟨kinds, hlines, hcompleted⟩ := (finishing _).block [] hopen hcut
  refine ⟨kinds, hlines, fun ws hws => ?_⟩
  obtain ⟨last, hdraft⟩ := c.draft_append tokens ws
  have hfuel : 4 * (c.draft tokens).rest.length + 4 ≤
      4 * ((c.draft tokens).followed ws last).rest.length + 4 := by
    simp only [Draft.followed, List.length_append]
    omega
  have hblock := hcompleted _ hfuel ws [] last hws rfl
  rw [List.append_nil] at hblock
  unfold compile block
  rw [hdraft]
  exact hblock.bind fun d hd => (succeeds_checkResolved hd).bind fun _ _ => succeeds_ok trivial

/-- A script that ends too early, though no call in it is lost and it has no null character, can
be continued to one that compiles. -/
theorem completed_of_callsFit (c : Compiler) {source : String} {e : CompileError}
    (h : c.compileSource source = .error e) (hincomplete : e.isIncomplete = true)
    (hnull : '\x00' ∉ source.toList) (hfit : c.callsFit source = true) :
    ∃ more p, c.compileSource (source ++ "\n" ++ more) = .ok p := by
  unfold compileSource at h
  cases hscan : Token.scan source with
  | error cause =>
      rw [hscan] at h
      cases h
      rw [CompileError.isIncomplete, Token.atEnd_of_scanFrom hscan] at hincomplete
      cases hincomplete
  | ok tokens =>
      rw [hscan] at h
      unfold callsFit at hfit
      rw [hscan] at hfit
      have h : c.compile tokens = .error e := h
      obtain ⟨hproper, -, -⟩ := Token.proper_of_scan hscan
      have hopen : (c.draft tokens).Open :=
        ⟨c.live_draft hscan, hfit, fun t ht hkind => ((hproper t ht).2 hkind).2⟩
      obtain ⟨kinds, hlines, hcompleted⟩ := c.completable_compile hopen h hincomplete
      have hne : kinds ≠ [] := by
        rintro rfl
        have hsame := hcompleted [] rfl
        rw [List.append_nil, h] at hsame
        exact c.kind_of_compile hscan h hsame
      obtain ⟨rest, hrest, hkinds⟩ := Token.scan_append_written hnull hscan hlines hne
      refine ⟨String.ofList (Token.written kinds), ?_⟩
      have hsucceeds := hcompleted rest hkinds
      unfold compileSource
      rw [hrest]
      change ∃ p, c.compile (tokens ++ rest) = .ok p
      cases hcompile : c.compile (tokens ++ rest) with
      | ok p => exact ⟨p, rfl⟩
      | error e' =>
          rw [hcompile] at hsucceeds
          exact absurd hsucceeds (c.kind_of_compile hrest hcompile)

/-- A script that fails because its input ended can be continued to one that compiles, unless a
call in it is lost that is still open, or a null character has ended it. -/
theorem completable_iff (c : Compiler) {source : String} {e : CompileError}
    (h : c.compileSource source = .error e) (hincomplete : e.isIncomplete = true) :
    (∃ more p, c.compileSource (source ++ "\n" ++ more) = .ok p) ↔
      '\x00' ∉ source.toList ∧ c.callsFit source = true := by
  constructor
  · rintro ⟨more, p, hp⟩
    refine ⟨fun hnull => ?_, c.callsFit_of_continued hp⟩
    unfold compileSource at h hp
    rw [String.append_assoc, Token.scan_append_of_null hnull, h] at hp
    cases hp
  · rintro ⟨hnull, hfit⟩
    exact c.completed_of_callsFit h hincomplete hnull hfit

/-- A list that is still open can be completed. -/
theorem completable_openList :
    ∃ e, compileSource {} "x = [1," = .error e ∧ e.isIncomplete = true ∧
      ∃ more p, compileSource {} ("x = [1," ++ "\n" ++ more) = .ok p := by
  have hfails : ((compileSource {} "x = [1,").map fun _ => ()).mapError CompileError.isIncomplete =
      .error true := by
    decide +kernel
  have hfit : '\x00' ∉ ("x = [1," : String).toList ∧ callsFit {} "x = [1," = true := by
    decide +kernel
  cases hsource : compileSource {} "x = [1," with
  | ok p =>
      rw [hsource] at hfails
      cases hfails
  | error e =>
      rw [hsource] at hfails
      have hincomplete : e.isIncomplete = true := Except.error.inj hfails
      exact ⟨e, rfl, hincomplete, (completable_iff {} hsource hincomplete).mpr hfit⟩

/-- A call with an argument too many asks for further lines, and none of them helps. -/
theorem lost_openCall :
    ∃ e, compileSource { natives := Dict.ofList [("len", ["v"])] } "x = len(1," = .error e ∧
      e.isIncomplete = true ∧
      ∀ more p, compileSource { natives := Dict.ofList [("len", ["v"])] }
        ("x = len(1," ++ "\n" ++ more) ≠ .ok p := by
  have hfails : ((compileSource { natives := Dict.ofList [("len", ["v"])] } "x = len(1,").map
      fun _ => ()).mapError CompileError.isIncomplete = .error true := by
    decide +kernel
  have hlost : callsFit { natives := Dict.ofList [("len", ["v"])] } "x = len(1," = false := by
    decide +kernel
  cases hsource : compileSource { natives := Dict.ofList [("len", ["v"])] } "x = len(1," with
  | ok p =>
      rw [hsource] at hfails
      cases hfails
  | error e =>
      rw [hsource] at hfails
      refine ⟨e, rfl, Except.error.inj hfails, fun more p hp => ?_⟩
      rw [callsFit_of_continued _ hp] at hlost
      cases hlost

end LineScript.Compiler
