/-
# Tokens one behind another

Characters that denote a token are read as that token in any surroundings, provided that the token
cannot go on with what follows. A space, the end of a line, a comma or a closing bracket is enough for
that, whatever the token is; most symbols and all string literals need nothing of the kind.

So a text that is put together from such characters is read as the tokens that they denote, one after
the other. Spaces before a token make no difference, and the end of a line is one token with all the
blank lines behind it.
-/

import LineScript.Proofs.LineByLine

namespace LineScript.Token

/-! ## Where tokens end -/

/-- No token goes on with these characters. -/
def Apart (more : List Char) : Prop :=
  ∀ c, more.head? = some c → isNameChar c = false ∧ c ≠ '.' ∧ c ≠ '='

theorem apart_nil : Apart [] := fun c h => by cases h

theorem apart_cons {c : Char} (h : isNameChar c = false ∧ c ≠ '.' ∧ c ≠ '=') (rest : List Char) :
    Apart (c :: rest) := by
  intro d hd
  cases hd
  exact h

theorem apart_of_isSpace {c : Char} (h : isSpace c = true) (rest : List Char) : Apart (c :: rest) := by
  simp only [isSpace, Bool.or_eq_true, decide_eq_true_eq] at h
  rcases h with (rfl | rfl) | rfl <;> exact apart_cons (by decide) rest

section

variable {more : List Char}

/-- What a run ends with does not belong to it. -/
theorem takeWhile_of_head {α : Type} {p : α → Bool} {run more : List α}
    (hrun : ∀ c ∈ run, p c = true) (hmore : ∀ c, more.head? = some c → p c = false) :
    (run ++ more).takeWhile p = run ∧ (run ++ more).dropWhile p = more := by
  rw [List.takeWhile_append_of_pos hrun, List.dropWhile_append_of_pos hrun]
  cases more with
  | nil => simp
  | cons c rest =>
      have hc : ¬ p c = true := by simp [hmore c rfl]
      rw [List.takeWhile_cons_of_neg hc, List.dropWhile_cons_of_neg hc]
      simp

theorem forall_ne_of_notMem {α : Type} [DecidableEq α] {a : α} {run : List α} (h : a ∉ run) :
    ∀ b ∈ run, decide (b ≠ a) = true :=
  fun _ hb => decide_eq_true (ne_of_mem_of_not_mem hb h)

/-- A run goes up to the first place of what is not in it. -/
theorem takeWhile_ne_cons {α : Type} [DecidableEq α] {a : α} {run : List α} (h : a ∉ run)
    (rest : List α) :
    (run ++ a :: rest).takeWhile (· ≠ a) = run ∧
      (run ++ a :: rest).dropWhile (· ≠ a) = a :: rest := by
  refine takeWhile_of_head (forall_ne_of_notMem h) fun c hc => ?_
  cases hc
  simp

theorem Apart.isDigit_eq_false (h : Apart more) (c : Char) (hc : more.head? = some c) :
    isDigit c = false := by
  have hname := (h c hc).1
  simp only [isNameChar, Bool.or_eq_false_iff] at hname
  exact hname.1.2

/-- A numeral is read up to its last digit. -/
theorem numberBody_numeral {whole fraction : List Char}
    (hdigits : ∀ d ∈ whole ++ fraction, isDigit d = true) (hmore : Apart more) :
    numberBody (numeral whole fraction ++ more) = (numeral whole fraction, more) := by
  obtain ⟨hwhole, hfraction⟩ := List.forall_mem_append.mp hdigits
  cases fraction with
  | nil =>
      obtain ⟨htake, hdrop⟩ := takeWhile_of_head hwhole hmore.isDigit_eq_false
      simp only [numeral, if_true, List.append_nil, numberBody, htake, hdrop]
      split
      · exact absurd rfl (hmore '.' rfl).2.1
      · rfl
  | cons d fraction =>
      have hpoint : ∀ c, ('.' :: ((d :: fraction) ++ more)).head? = some c → isDigit c = false := by
        intro c hc
        cases hc
        decide
      obtain ⟨htake, hdrop⟩ := takeWhile_of_head hwhole hpoint
      obtain ⟨htake', hdrop'⟩ := takeWhile_of_head hfraction hmore.isDigit_eq_false
      have hd := hfraction d List.mem_cons_self
      rw [numeral, if_neg (List.cons_ne_nil d fraction), List.append_assoc, List.cons_append]
      simp only [List.cons_append] at htake hdrop htake' hdrop' ⊢
      simp only [numberBody, htake, hdrop, hd, if_true, htake', hdrop']

theorem comparison_of_apart (line : Nat) (alone together : TokenKind) (hmore : Apart more) :
    comparison line alone together more =
      ⟨{ kind := alone, text := alone.label, line := line }, more, line⟩ := by
  unfold comparison
  split
  · exact absurd rfl (hmore '=' rfl).2.2
  · rfl

/-- A symbol is read as its kind. -/
theorem beginning_symbol {kind : TokenKind} (h : kind ∈ symbols) :
    ∃ c cs, kind.label.toList = c :: cs ∧ ∀ (line : Nat) (more : List Char),
      (symbol? c = none → Apart more) →
        ∃ t : Token, t.unplaced = { kind := kind, text := kind.label, line := 0 } ∧
          beginning line c (cs ++ more) = .ok ⟨t, more, line⟩ := by
  cases kind with
  | less =>
      refine ⟨'<', [], rfl, fun line more hmore => ?_⟩
      have hcomparison := comparison_of_apart line .less .lessEqual (hmore rfl)
      exact ⟨_, rfl, congrArg Except.ok hcomparison⟩
  | greater =>
      refine ⟨'>', [], rfl, fun line more hmore => ?_⟩
      have hcomparison := comparison_of_apart line .greater .greaterEqual (hmore rfl)
      exact ⟨_, rfl, congrArg Except.ok hcomparison⟩
  | leftParen | rightParen | leftBracket | rightBracket | leftBrace | rightBrace | comma | dot | equal
  | notEqual | lessEqual | greaterEqual | plus | minus | star | slash =>
      exact ⟨_, _, rfl, fun line more _ => ⟨_, rfl, rfl⟩⟩
  | _ => exact absurd h (by decide)

theorem symbol?_of_isNameStart {c : Char} (h : isNameStart c = true) : symbol? c = none :=
  symbol?_of_notMem_marks (notMem_marks_of_isNameChar (isNameChar_of_isNameStart h))

theorem symbol?_of_isDigit {c : Char} (h : isDigit c = true) : symbol? c = none :=
  symbol?_of_notMem_marks (notMem_marks_of_isNameChar (isNameChar_of_isDigit h))

/-- What denotes a token is read as that token where something else follows. -/
theorem Denotes.beginning_eq {c : Char} {cs : List Char} {t : Token} (h : Denotes (c :: cs) t)
    (hkind : t.kind ≠ .lineBreak) (hmore : symbol? c = none → Apart more) (line : Nat) :
    ∃ t' : Token, t'.unplaced = t.unplaced ∧ beginning line c (cs ++ more) = .ok ⟨t', more, line⟩ := by
  -- Read by itself, a word is the token of the whole word.
  have hword : isNameStart c = true → (∀ d ∈ cs, isNameChar d = true) →
      ∃ t' : Token, t'.unplaced = t.unplaced ∧
        beginning line c (cs ++ more) = .ok ⟨t', more, line⟩ := by
    intro hstart hrest
    obtain ⟨next, hnext, htoken⟩ := h.exists_beginning line
    obtain ⟨htake, hdrop⟩ := takeWhile_of_head hrest
      (fun d hd => (hmore (symbol?_of_isNameStart hstart) d hd).1)
    have halone : cs.takeWhile isNameChar = cs := List.takeWhile_eq_self_iff.mpr hrest
    rw [beginning_of_isNameStart hstart, halone] at hnext
    cases hnext
    rw [beginning_of_isNameStart hstart, htake, hdrop]
    exact ⟨_, htoken, rfl⟩
  generalize hlexeme : c :: cs = lexeme at h
  cases h with
  | lineBreak => exact absurd rfl hkind
  | symbol line' hmem =>
      obtain ⟨c', cs', hlabel, hbeginning⟩ := beginning_symbol hmem
      obtain ⟨rfl, rfl⟩ := List.cons.inj (hlexeme.trans hlabel)
      exact hbeginning line more hmore
  | truth b =>
      have hchars := isNameStart_of_mem_toString b
      rw [← hlexeme] at hchars
      exact hword (hchars c List.mem_cons_self)
        (fun d hd => isNameChar_of_isNameStart (hchars d (.tail _ hd)))
  | reserved line' hmem =>
      have hchars := isNameStart_of_mem_reserved hmem
      dsimp only at hchars
      rw [← hlexeme] at hchars
      exact hword (hchars c List.mem_cons_self)
        (fun d hd => isNameChar_of_isNameStart (hchars d (.tail _ hd)))
  | name line' hstart hrest =>
      obtain ⟨rfl, rfl⟩ := List.cons.inj hlexeme
      exact hword hstart hrest
  | @number whole fraction x line' hwhole hdigits hvalue =>
      have hc : isDigit c = true := by
        obtain ⟨d, whole, rfl⟩ := List.exists_cons_of_ne_nil hwhole
        obtain ⟨rfl, -⟩ := List.cons.inj hlexeme
        exact hdigits _ List.mem_cons_self
      have hbody := numberBody_numeral hdigits (hmore (symbol?_of_isDigit hc))
      rw [← hlexeme, List.cons_append] at hbody
      rw [beginning_of_isDigit hc, hbody, hlexeme, read?_numeral hwhole hdigits, hvalue]
      exact ⟨_, by rfl, rfl⟩
  | string line' hquote hquoted =>
      rw [List.cons_append] at hlexeme
      obtain ⟨rfl, rfl⟩ := List.cons.inj hlexeme
      have hslash : c ≠ '\\' := by
        rcases hquote with rfl | rfl <;> decide
      rw [beginning_of_quote hquote, List.append_assoc, List.singleton_append,
        hquoted.stringBody_eq hslash more]
      exact ⟨_, by rfl, rfl⟩

end

/-- No token begins like a blank, but for the ends of lines. -/
theorem Denotes.head {c : Char} {cs : List Char} {t : Token} (h : Denotes (c :: cs) t)
    (hkind : t.kind ≠ .lineBreak) : isSpace c = false ∧ c ≠ '#' ∧ c ≠ '\n' := by
  obtain ⟨next, hnext, htoken⟩ := h.exists_beginning 0
  refine ⟨Bool.eq_false_iff.mpr fun hspace => ?_, ?_, ?_⟩
  · simp only [isSpace, Bool.or_eq_true, decide_eq_true_eq] at hspace
    rcases hspace with (rfl | rfl) | rfl <;> cases hnext
  · rintro rfl
    cases hnext
  · rintro rfl
    refine hkind ?_
    cases hnext
    exact (congrArg Token.kind htoken).symm

/-! ## Texts with tokens in them -/

/-- Characters that are read as these tokens, on every line, up to where the tokens stand. `ended` says
whether the last token was the end of a line. -/
def Lexes (ended : Bool) (cs : List Char) (tokens : List Token) : Prop :=
  ∀ fuel line, cs.length < fuel →
    ∃ found, scanFrom fuel line ended cs = .ok found ∧ found.map unplaced = tokens

/-- The token of the end of a line. -/
def lineEnd : Token := { kind := .lineBreak, text := "\n", line := 0 }

/-- Characters that only stand between tokens on a line. -/
def Gap (cs : List Char) : Prop := ∀ c ∈ cs, isSpace c = true

instance (cs : List Char) : Decidable (Gap cs) :=
  decidable_of_iff (cs.all isSpace = true) List.all_eq_true

theorem skipSpaces_gap {gap : List Char} (h : Gap gap) (cs : List Char) :
    skipSpaces (gap ++ cs) = skipSpaces cs := by
  induction gap with
  | nil => rfl
  | cons c gap ih =>
      obtain ⟨hc, hgap⟩ := List.forall_mem_cons.mp h
      rw [List.cons_append, skipSpaces, if_pos hc, ih hgap]

section

variable {ended : Bool} {cs more : List Char} {tokens : List Token}

/-- What is skipped before a token makes no difference. -/
theorem Lexes.of_skipSpaces {cs' : List Char} (h : Lexes ended cs tokens)
    (hskip : skipSpaces cs' = skipSpaces cs) : Lexes ended cs' tokens := by
  intro fuel line hfuel
  obtain ⟨found, hscan, htokens⟩ := h (cs.length + cs'.length + 1) line (by omega)
  refine ⟨found, ?_, htokens⟩
  rw [scanFrom_fuel hfuel (Nat.lt_succ_of_le (Nat.le_add_left cs'.length cs.length)), ← hscan,
    scanFrom, scanFrom, hskip]

theorem Lexes.gap (h : Lexes ended cs tokens) {gap : List Char} (hgap : Gap gap) :
    Lexes ended (gap ++ cs) tokens :=
  h.of_skipSpaces (skipSpaces_gap hgap cs)

/-- At the end of a text, nothing is left behind the end of a line. -/
theorem lexes_nil : Lexes true [] [] := by
  intro fuel line hfuel
  obtain ⟨fuel, rfl⟩ := Nat.exists_eq_succ_of_ne_zero (Nat.ne_of_gt hfuel)
  exact ⟨[], rfl, rfl⟩

/-- A line that breaks off is ended by the end of the text. -/
theorem lexes_unended : Lexes false [] [lineEnd] := by
  intro fuel line hfuel
  obtain ⟨fuel, rfl⟩ := Nat.exists_eq_succ_of_ne_zero (Nat.ne_of_gt hfuel)
  exact ⟨_, rfl, rfl⟩

/-- What denotes a token is read as the token, and what follows as what it is. -/
theorem Lexes.token (h : Lexes false more tokens) {lexeme : List Char} {t : Token}
    (ht : Denotes lexeme t) (hkind : t.kind ≠ .lineBreak)
    (hmore : ∀ c, lexeme.head? = some c → symbol? c = none → Apart more) :
    Lexes ended (lexeme ++ more) (t.unplaced :: tokens) := by
  intro fuel line hfuel
  obtain ⟨c, cs, rfl⟩ := List.exists_cons_of_ne_nil ht.ne_nil
  obtain ⟨hspace, hhash, -⟩ := ht.head hkind
  obtain ⟨t', htoken, hbeginning⟩ := ht.beginning_eq hkind (hmore c rfl) line
  rw [List.cons_append] at hfuel ⊢
  rw [List.length_cons, List.length_append] at hfuel
  obtain ⟨fuel, rfl⟩ := Nat.exists_eq_succ_of_ne_zero (Nat.ne_of_gt (Nat.zero_lt_of_lt hfuel))
  obtain ⟨found, hscan, hfound⟩ := h fuel line (by omega)
  have hkind' : t'.kind ≠ .lineBreak := by
    change t'.unplaced.kind ≠ .lineBreak
    rw [htoken]
    exact hkind
  refine ⟨t' :: found, ?_, by rw [List.map_cons, htoken, hfound]⟩
  rw [scanFrom, skipSpaces_of_head hspace hhash]
  dsimp only
  rw [hbeginning]
  dsimp only
  rw [decide_eq_false hkind', hscan]
  rfl

/-- Where no line ends, whole lines are skipped like spaces. -/
theorem skipLines_eq_skipSpaces (h : (skipSpaces cs).head? ≠ some '\n') (line : Nat) :
    skipLines false line cs = (line, skipSpaces cs) := by
  rw [← skipLines_skipSpaces]
  cases hskip : skipSpaces cs with
  | nil => rfl
  | cons c rest =>
      obtain ⟨hspace, hhash⟩ := head_skipSpaces hskip
      have hbreak : c ≠ '\n' := by
        rintro rfl
        exact h (by rw [hskip]; rfl)
      rw [skipLines, if_neg hbreak, if_neg Bool.false_ne_true, if_neg (by simp [hspace]), if_neg hhash]

theorem skipSpaces_skipSpaces (cs : List Char) : skipSpaces (skipSpaces cs) = skipSpaces cs := by
  cases hskip : skipSpaces cs with
  | nil => rfl
  | cons c rest =>
      obtain ⟨hspace, hhash⟩ := head_skipSpaces hskip
      exact skipSpaces_of_head hspace hhash rest

/-! ### Ends of lines -/

/-- How a line ends: perhaps with spaces and a comment, and with a line break. -/
structure LineEnd where
  gap : List Char := []
  comment? : Option (List Char) := none

namespace LineEnd

/-- The characters of the end of a line. -/
def text (e : LineEnd) : List Char := e.gap ++ (e.comment?.elim [] ('#' :: ·) ++ ['\n'])

/-- There are only spaces before the comment, and it does not go on over the line. -/
structure Valid (e : LineEnd) : Prop where
  gap : Gap e.gap
  comment : ∀ comment, e.comment? = some comment → '\n' ∉ comment

theorem Valid.skipSpaces_eq {e : LineEnd} (h : e.Valid) (more : List Char) :
    skipSpaces (e.text ++ more) = '\n' :: more := by
  obtain ⟨gap, comment?⟩ := e
  rw [text, List.append_assoc, skipSpaces_gap h.gap]
  cases comment? with
  | none => rfl
  | some comment =>
      have hbreak := forall_ne_of_notMem (h.comment comment rfl)
      simp only [Option.elim_some, List.cons_append, List.append_assoc, List.nil_append]
      rw [skipSpaces, if_neg (by decide), if_pos rfl, List.dropWhile_append_of_pos hbreak]
      rfl

/-- Ends of lines, with nothing else on the lines behind the first one. -/
def texts (ends : List LineEnd) : List Char := ends.flatMap text

theorem skipLines_texts {ends : List LineEnd} (h : ∀ e ∈ ends, e.Valid) (line : Nat)
    (more : List Char) :
    skipLines false line (texts ends ++ more) = skipLines false (line + ends.length) more := by
  induction ends generalizing line with
  | nil => rfl
  | cons e ends ih =>
      obtain ⟨he, hends⟩ := List.forall_mem_cons.mp h
      rw [texts, List.flatMap_cons, List.append_assoc, ← skipLines_skipSpaces, he.skipSpaces_eq,
        skipLines, if_pos rfl]
      refine (ih hends (line + 1)).trans ?_
      rw [List.length_cons, Nat.add_right_comm, Nat.add_assoc]

/-- The end of a line is one token with the blank lines behind it. -/
theorem lexes {ends : List LineEnd} (h : Lexes true more tokens) (hne : ends ≠ [])
    (hends : ∀ e ∈ ends, e.Valid) (hmore : (skipSpaces more).head? ≠ some '\n') :
    Lexes ended (texts ends ++ more) (lineEnd :: tokens) := by
  obtain ⟨e, ends, rfl⟩ := List.exists_cons_of_ne_nil hne
  obtain ⟨he, hends⟩ := List.forall_mem_cons.mp hends
  have hbreak : Lexes ended ('\n' :: (texts ends ++ more)) (lineEnd :: tokens) := by
    intro fuel line hfuel
    rw [List.length_cons, List.length_append] at hfuel
    obtain ⟨fuel, rfl⟩ := Nat.exists_eq_succ_of_ne_zero (Nat.ne_of_gt (Nat.zero_lt_of_lt hfuel))
    have hlength := length_skipSpaces_le more
    obtain ⟨found, hscan, hfound⟩ := h.of_skipSpaces (skipSpaces_skipSpaces more) fuel
      (line + 1 + ends.length) (by omega)
    refine ⟨{ kind := .lineBreak, text := "\n", line := line } :: found, ?_, ?_⟩
    · rw [scanFrom, skipSpaces_of_head (by decide) (by decide)]
      simp only [beginning, if_true, skipLines_texts hends, skipLines_eq_skipSpaces hmore,
        decide_true]
      rw [hscan]
      rfl
    · rw [List.map_cons, hfound]
      rfl
  refine hbreak.of_skipSpaces ?_
  rw [texts, List.flatMap_cons, List.append_assoc, he.skipSpaces_eq]
  rfl

end LineEnd

end

/-- A text without null characters is read as a whole. -/
theorem scan_ofList {cs : List Char} (hnull : '\x00' ∉ cs) :
    scan (String.ofList cs) = scanFrom (cs.length + 1) 1 false cs := by
  unfold scan
  rw [String.toList_ofList, List.takeWhile_eq_self_iff.mpr (forall_ne_of_notMem hnull)]

/-- A text without null characters is read from its first line to its end. -/
theorem scan_of_lexes {cs : List Char} {tokens : List Token} (h : Lexes false cs tokens)
    (hnull : '\x00' ∉ cs) :
    ∃ found, scan (String.ofList cs) = .ok found ∧ found.map unplaced = tokens := by
  rw [scan_ofList hnull]
  exact h _ 1 (Nat.lt_succ_self _)

end LineScript.Token
