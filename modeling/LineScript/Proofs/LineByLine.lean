/-
# Tokens line by line

The tokens of two texts that are joined with a line break are the tokens of the first one and then those
of the second one, as many lines further down as the first one has lines. A line break that the second
one begins with gets lost, because the first one ends with one anyway. If the second one is no sequence of
tokens, the whole is none for the same reason, on the line where it is found then.

The scanner carries its line along and never looks at it, so reading further down is reading. What is
left is the seam: the line break between the texts, with the blanks on either side of it, is one token.
-/

import LineScript.Proofs.DecodedTexts
import LineScript.Proofs.Lexemes

namespace LineScript.Token

/-! ## Further down -/

/-- The token, some lines further down. -/
def lowered (count : Nat) (t : Token) : Token := { t with line := t.line + count }

/-- What is read of a text that stands some lines further down. -/
def shifted (count : Nat) : Except CompileError (List Token) → Except CompileError (List Token)
  | .ok tokens => .ok (tokens.map (lowered count))
  | .error e => .error { e with line := e.line + count }

theorem shifted_map_cons (count : Nat) (r : Except CompileError (List Token)) (t : Token) :
    shifted count (r.map (t :: ·)) = (shifted count r).map (t.lowered count :: ·) := by
  cases r <;> rfl

theorem skipLines_add (count : Nat) (inComment : Bool) (line : Nat) (cs : List Char) :
    skipLines inComment (line + count) cs =
      ((skipLines inComment line cs).1 + count, (skipLines inComment line cs).2) := by
  induction cs generalizing inComment line with
  | nil => rfl
  | cons c rest ih =>
      rw [skipLines, skipLines]
      split
      · rw [Nat.add_right_comm, ih]
      · split
        · exact ih _ _
        · split
          · exact ih _ _
          · split
            · exact ih _ _
            · rfl

theorem word_add (text : String) (line count : Nat) :
    word text (line + count) = (word text line).lowered count := by
  unfold word
  split <;> rfl

theorem comparison_add (line count : Nat) (alone together : TokenKind) (rest : List Char) :
    comparison (line + count) alone together rest =
      ⟨(comparison line alone together rest).token.lowered count,
        (comparison line alone together rest).rest,
        (comparison line alone together rest).line + count⟩ := by
  unfold comparison
  split <;> rfl

/-- A token is read further down as it is read here. -/
theorem beginning_add (line count : Nat) (c : Char) (rest : List Char) :
    beginning (line + count) c rest =
      (beginning line c rest).map fun next =>
        ⟨next.token.lowered count, next.rest, next.line + count⟩ := by
  unfold beginning
  by_cases hbreak : c = '\n'
  · simp only [if_pos hbreak]
    rw [Nat.add_right_comm, skipLines_add]
    rfl
  simp only [if_neg hbreak]
  cases symbol? c with
  | some kind => rfl
  | none =>
      dsimp only
      by_cases hless : c = '<'
      · simp only [if_pos hless, comparison_add]
        rfl
      by_cases hgreater : c = '>'
      · simp only [if_neg hless, if_pos hgreater, comparison_add]
        rfl
      by_cases hbang : c = '!'
      · simp only [if_neg hless, if_neg hgreater, if_pos hbang]
        split <;> rfl
      by_cases hquote : (c = '\x22' || c = '\x27') = true
      · simp only [if_neg hless, if_neg hgreater, if_neg hbang, if_pos hquote]
        cases stringBody c rest <;> rfl
      simp only [if_neg hless, if_neg hgreater, if_neg hbang, if_neg hquote]
      by_cases hdigit : isDigit c = true
      · simp only [if_pos hdigit]
        cases Number.read? (String.ofList (numberBody (c :: rest)).1) <;> rfl
      simp only [if_neg hdigit]
      by_cases hname : isNameStart c = true
      · simp only [if_pos hname, word_add]
        rfl
      · simp only [if_neg hname]
        rfl

/-- A text is read further down as it is read here. -/
theorem scanFrom_add (fuel line count : Nat) (ended : Bool) (cs : List Char) :
    scanFrom fuel (line + count) ended cs = shifted count (scanFrom fuel line ended cs) := by
  induction fuel generalizing line ended cs with
  | zero => rfl
  | succ fuel ih =>
      rw [scanFrom, scanFrom]
      cases skipSpaces cs with
      | nil => cases ended <;> rfl
      | cons c rest =>
          dsimp only
          rw [beginning_add]
          cases beginning line c rest with
          | error cause => rfl
          | ok next =>
              rw [shifted_map_cons, ← ih]
              rfl

/-! ## How much fuel there is -/

/-- Fuel for one more than there are characters is enough. -/
theorem scanFrom_fuel {fuel fuel' line : Nat} {ended : Bool} {cs : List Char}
    (h : cs.length < fuel) (h' : cs.length < fuel') :
    scanFrom fuel line ended cs = scanFrom fuel' line ended cs := by
  induction fuel generalizing fuel' line ended cs with
  | zero => omega
  | succ fuel ih =>
      obtain ⟨fuel', rfl⟩ : ∃ n, fuel' = n + 1 := ⟨fuel' - 1, by omega⟩
      have hspaces := length_skipSpaces_le cs
      rw [scanFrom, scanFrom]
      cases hskip : skipSpaces cs with
      | nil => rfl
      | cons c rest =>
          rw [hskip, List.length_cons] at hspaces
          dsimp only
          cases hnext : beginning line c rest with
          | error cause => rfl
          | ok next =>
              have hlength := (beginning_eq_ok hnext).2
              have hsame := @ih fuel' next.line (next.token.kind = .lineBreak) next.rest (by omega) (by omega)
              dsimp only
              rw [hsame]

/-! ## The seam -/

/-- The tokens of a text from its first line that is not blank, behind a line break. -/
def resumed (line : Nat) (cs : List Char) : Except CompileError (List Token) :=
  scanFrom (cs.length + 1) (skipLines false line cs).1 true (skipLines false line cs).2

theorem resumed_add (line count : Nat) (cs : List Char) :
    resumed (line + count) cs = shifted count (resumed line cs) := by
  rw [resumed, skipLines_add, scanFrom_add]
  rfl

theorem scanFrom_resumed {fuel : Nat} {cs : List Char} (h : cs.length < fuel) (line : Nat) :
    scanFrom fuel (skipLines false line cs).1 true (skipLines false line cs).2 =
      resumed line cs := by
  have hlength := length_skipLines_le false line cs
  exact scanFrom_fuel (by omega) (by omega)

theorem count_skipSpaces (cs : List Char) : (skipSpaces cs).count '\n' = cs.count '\n' := by
  obtain ⟨gap, hgap, -, hbreak⟩ := exists_append_skipSpaces cs
  conv => rhs; rw [hgap, List.count_append, List.count_eq_zero.mpr hbreak, Nat.zero_add]

theorem map_append_cons (r : Except CompileError (List Token)) (t : Token) (tokens : List Token) :
    (r.map (tokens ++ ·)).map (t :: ·) = r.map (t :: tokens ++ ·) := by
  cases r <;> rfl

/-- The tokens of a text that another one follows on a new line are the tokens of the text and then,
past the blank lines, those of the other. -/
theorem scanFrom_joined {fuel line : Nat} {ended : Bool} {cs : List Char} {tokens : List Token}
    (h : scanFrom fuel line ended cs = .ok tokens) (hended : ended = true → skipSpaces cs ≠ [])
    {fuel' : Nat} {more : List Char} (hfuel : (cs ++ '\n' :: more).length < fuel') :
    scanFrom fuel' line ended (cs ++ '\n' :: more) =
      (resumed (line + cs.count '\n' + 1) more).map (tokens ++ ·) := by
  induction fuel generalizing fuel' line ended cs tokens with
  | zero => cases h
  | succ fuel ih =>
      obtain ⟨fuel', rfl⟩ : ∃ n, fuel' = n + 1 := ⟨fuel' - 1, by omega⟩
      have hspaces := length_skipSpaces_le cs
      rw [List.length_append, List.length_cons] at hfuel
      rw [scanFrom] at h ⊢
      rw [skipSpaces_append_break, ← count_skipSpaces cs]
      have hmore : more.length < fuel' := by omega
      cases hskip : skipSpaces cs with
      | nil =>
          rw [hskip] at h
          cases ended with
          | true => exact absurd hskip (hended rfl)
          | false =>
              cases h
              simp only [List.nil_append, List.count_nil, Nat.add_zero, beginning, if_true, decide_true]
              rw [scanFrom_resumed hmore]
              rfl
      | cons c rest =>
          rw [hskip] at h hspaces
          rw [List.length_cons] at hspaces
          dsimp only [List.cons_append] at h ⊢
          by_cases hc : c = '\n'
          · subst hc
            have hlength := length_skipLines_le false (line + 1) rest
            simp only [beginning, if_true, decide_true] at h ⊢
            obtain ⟨following, hfollowing, rfl⟩ := map_cons_eq_ok h
            rw [List.count_cons_self]
            by_cases hrest : (skipLines false (line + 1) rest).2 = []
            · -- The blank lines go on behind the seam.
              have hnone : following = [] := by
                rw [hrest] at hfollowing
                cases fuel with
                | zero => cases hfollowing
                | succ fuel => exact (Except.ok.inj hfollowing).symm
              rw [skipLines_append_blank more hrest, scanFrom_resumed hmore, hnone,
                Nat.add_right_comm line 1, Nat.add_assoc line]
              rfl
            · obtain ⟨text, blank, happend, -, hline, -, htext⟩ :=
                exists_append_skipLines false (line + 1) rest
              obtain rfl : text = [] := htext
              have hcount := congrArg (List.count '\n') happend
              rw [List.nil_append, List.count_append] at hcount
              have hnext : skipSpaces (skipLines false (line + 1) rest).2 ≠ [] := by
                rwa [skipSpaces_skipLines]
              have hlt : ((skipLines false (line + 1) rest).2 ++ '\n' :: more).length < fuel' := by
                rw [List.length_append, List.length_cons]
                omega
              have hplace : (skipLines false (line + 1) rest).1 +
                  (skipLines false (line + 1) rest).2.count '\n' + 1 =
                    line + (rest.count '\n' + 1) + 1 := by
                omega
              rw [skipLines_append_break more hrest]
              dsimp only
              rw [ih hfollowing (fun _ => hnext) hlt, hplace, map_append_cons]
          · cases hbeginning : beginning line c rest with
            | error cause =>
                rw [hbeginning] at h
                cases h
            | ok next =>
                rw [hbeginning] at h
                have happend := beginning_append_break line hc rest more
                rw [hbeginning] at happend
                obtain ⟨taken, hrest, hdenotes, -, hline⟩ := denotes_of_beginning hbeginning
                have hkind := kind_of_beginning hc hbeginning
                have hbreak := hdenotes.notMem_break hkind
                have hlength := (beginning_eq_ok hbeginning).2
                obtain ⟨following, hfollowing, rfl⟩ := map_cons_eq_ok h
                have hlt : (next.rest ++ '\n' :: more).length < fuel' := by
                  rw [List.length_append, List.length_cons]
                  omega
                have hended' : decide (next.token.kind = .lineBreak) = true → skipSpaces next.rest ≠ [] := by
                  rw [decide_eq_false hkind]
                  exact fun hfalse => absurd hfalse (by decide)
                have hplace : next.line + next.rest.count '\n' = line + (c :: rest).count '\n' := by
                  rw [hline, hrest, ← List.cons_append, List.count_append, Nat.add_assoc]
                dsimp only at happend ⊢
                rw [happend]
                dsimp only
                rw [ih hfollowing hended' hlt, hplace, map_append_cons]

/-! ## Texts -/

/-- Tokens without the line break that they may begin with. -/
def withoutFirstBreak : List Token → List Token
  | [] => []
  | t :: rest => if t.kind = .lineBreak then rest else t :: rest

/-- Behind a line break a text is read as it is by itself, but for the line break it may begin with. -/
theorem resumed_eq (line : Nat) (cs : List Char) :
    resumed line cs = (scanFrom (cs.length + 1) line false cs).map withoutFirstBreak := by
  have hspaces := length_skipSpaces_le cs
  have hlines := skipLines_skipSpaces line cs
  rw [scanFrom]
  cases hskip : skipSpaces cs with
  | nil =>
      rw [hskip] at hlines
      rw [resumed, ← hlines]
      rfl
  | cons c rest =>
      rw [hskip] at hlines hspaces
      rw [List.length_cons] at hspaces
      rw [resumed, ← hlines]
      by_cases hc : c = '\n'
      · subst hc
        have hfuel : rest.length < cs.length := by omega
        have hfuel' : rest.length < cs.length + 1 := by omega
        simp only [beginning, if_true, decide_true]
        rw [skipLines, if_pos rfl, scanFrom_resumed hfuel, scanFrom_resumed hfuel']
        cases resumed (line + 1) rest <;> rfl
      · obtain ⟨hspace, hhash⟩ := head_skipSpaces hskip
        rw [skipLines, if_neg hc, if_neg Bool.false_ne_true, if_neg (by simp [hspace]), if_neg hhash,
          scanFrom, skipSpaces_of_head hspace hhash]
        dsimp only
        cases hnext : beginning line c rest with
        | error cause => rfl
        | ok next =>
            have hkind := kind_of_beginning hc hnext
            dsimp only
            cases scanFrom cs.length next.line (next.token.kind = .lineBreak) next.rest with
            | error e => rfl
            | ok tokens => exact congrArg Except.ok (if_neg hkind).symm

/-- What is read of two texts, the second one on the lines behind the first one. -/
theorem scan_append_break_eq {text more : String} {tokens : List Token}
    (htext : '\x00' ∉ text.toList) (h : scan text = .ok tokens) :
    scan (text ++ "\n" ++ more) =
      (shifted (text.toList.count '\n' + 1) ((scan more).map withoutFirstBreak)).map (tokens ++ ·) := by
  have hall : ∀ c ∈ text.toList, decide (c ≠ '\x00') = true := by
    intro c hc
    refine decide_eq_true ?_
    rintro rfl
    exact htext hc
  have hread : (text ++ "\n" ++ more).toList.takeWhile (· ≠ '\x00') =
      text.toList ++ '\n' :: more.toList.takeWhile (· ≠ '\x00') := by
    have hbreak : ("\n" : String).toList = ['\n'] := rfl
    rw [String.toList_append, String.toList_append, hbreak, List.append_assoc,
      List.takeWhile_append_of_pos hall]
    rfl
  have hwhole : (text.toList ++ []).takeWhile (· ≠ '\x00') = text.toList ++ [] :=
    List.takeWhile_append_of_pos hall
  rw [List.append_nil] at hwhole
  unfold scan at h ⊢
  rw [hwhole] at h
  rw [hread, scanFrom_joined h nofun (Nat.lt_succ_self _), Nat.add_assoc, resumed_add, resumed_eq]

/-- The tokens of two texts joined with a line break are those of the one and, further down, those of the
other; what is no sequence of tokens behind a line break is none by itself. -/
theorem scan_line_by_line (a b : Text.Bytes) :
    (∀ tokens, scan (Text.decode a) = .ok tokens → 0 ∉ a →
      scan (Text.decode (a ++ Text.lineBreak :: b)) =
        match scan (Text.decode b) with
        | .ok more =>
          .ok (tokens ++ (withoutFirstBreak more).map (lowered (a.count Text.lineBreak + 1)))
        | .error e => .error { e with line := e.line + (a.count Text.lineBreak + 1 : Nat) }) ∧
    ∀ e, scan (Text.decode a) = .error e →
      ∃ e', scan (Text.decode (a ++ Text.lineBreak :: b)) = .error e' := by
  rw [Text.decode_append_break]
  constructor
  · intro tokens h hnull
    have htext : '\x00' ∉ (Text.decode a).toList :=
      Text.notMem_decode_of_notMem (b := 0) (by decide) hnull
    rw [scan_append_break_eq htext h, Text.count_decode_lineBreak]
    cases scan (Text.decode b) <;> rfl
  · intro e h
    have hcontinued := continued_scan (Text.decode a) (Text.decode b)
    rwa [h] at hcontinued

/-- Two lines, the second of which ends within a comment and within a character. -/
def brokenOff : Text.Bytes := [0x61, 0x0a, 0x62, 0x23, 0xe2, 0x82]

theorem scan_line_by_line_brokenOff :
    (∃ tokens more, scan (Text.decode brokenOff) = .ok tokens ∧
      scan (Text.decode [0x0a, 0x63]) = .ok more ∧
      scan (Text.decode (brokenOff ++ Text.lineBreak :: [0x0a, 0x63])) =
        .ok (tokens ++ (withoutFirstBreak more).map (lowered 2))) ∧
    (scan (Text.decode (brokenOff ++ Text.lineBreak :: [0x21])) =
      .error { cause := .lexical (.unexpectedCharacter '!'), line := 3 }) ∧
    ∃ e', scan (Text.decode ([0x22] ++ Text.lineBreak :: [0x22])) = .error e' := by
  refine ⟨⟨_, _, rfl, rfl, ?_⟩, ?_, ?_⟩
  · exact (scan_line_by_line brokenOff _).1 _ rfl (by decide)
  · exact (scan_line_by_line brokenOff _).1 _ rfl (by decide)
  · exact (scan_line_by_line [0x22] _).2 _ rfl

end LineScript.Token
