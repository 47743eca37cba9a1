/-
# The tokens of a text and of its beginnings

Two facts about scanning. Every sequence of tokens ends with a line break, holds no
end of input, and has no name that is empty or spelled like the reserved name of the
top level. And scanning is local to lines: no token reaches over a line break, so the tokens of a
text are the first tokens of whatever the text is continued to on a new line, and a
text that is no sequence of tokens stays none.
-/

import Mathlib
import LineScript.Token.Lexer

namespace LineScript.Token

open LineScript.Code

/-! ## What one token takes -/

theorem length_skipSpaces_le (cs : List Char) : (skipSpaces cs).length ≤ cs.length := by
  induction cs with
  | nil => exact Nat.le_refl _
  | cons c rest ih =>
      unfold skipSpaces
      split
      · exact Nat.le_succ_of_le ih
      · split
        · exact Nat.le_succ_of_le (List.dropWhile_suffix _).length_le
        · exact Nat.le_refl _

theorem length_skipLines_le (inComment : Bool) (line : Nat) (cs : List Char) :
    (skipLines inComment line cs).2.length ≤ cs.length := by
  induction cs generalizing inComment line with
  | nil => exact Nat.le_refl _
  | cons c rest ih =>
      unfold skipLines
      split
      · exact Nat.le_succ_of_le (ih _ _)
      · split
        · exact Nat.le_succ_of_le (ih _ _)
        · split
          · exact Nat.le_succ_of_le (ih _ _)
          · split
            · exact Nat.le_succ_of_le (ih _ _)
            · exact Nat.le_refl _

theorem length_stringBody_le {quote : Char} {cs content rest : List Char}
    (h : stringBody quote cs = .ok (content, rest)) : rest.length ≤ cs.length := by
  fun_induction stringBody quote cs generalizing content rest with
  | case1 => cases h
  | case2 => cases h
  | case3 c cs e he ih =>
      cases hbody : stringBody quote cs with
      | error cause =>
          rw [hbody] at h
          cases h
      | ok r =>
          rw [hbody] at h
          cases h
          have := ih hbody
          simp only [List.length_cons]
          omega
  | case4 => cases h
  | case5 cs =>
      cases h
      exact Nat.le_succ _
  | case6 => cases h
  | case7 c cs _ _ _ _ ih =>
      cases hbody : stringBody quote cs with
      | error cause =>
          rw [hbody] at h
          cases h
      | ok r =>
          rw [hbody] at h
          cases h
          exact Nat.le_succ_of_le (ih hbody)

theorem length_numberBody_le (c : Char) (rest : List Char) (h : isDigit c = true) :
    (numberBody (c :: rest)).2.length ≤ rest.length := by
  have hdrop : (List.dropWhile isDigit (c :: rest)).length ≤ rest.length := by
    rw [List.dropWhile_cons_of_pos h]
    exact (List.dropWhile_suffix _).length_le
  unfold numberBody
  dsimp only
  split
  · rename_i d more heq
    rw [heq] at hdrop
    split
    · have hmore := (List.dropWhile_suffix isDigit (l := d :: more)).length_le
      simp only [List.length_cons] at hdrop hmore ⊢
      omega
    · exact hdrop
  · exact hdrop

theorem length_comparison_le (line : Nat) (alone together : TokenKind) (rest : List Char) :
    (comparison line alone together rest).rest.length ≤ rest.length := by
  unfold comparison
  split
  · exact Nat.le_succ _
  · exact Nat.le_refl _

/-! ## Which tokens there are -/

/-- A token of a script: no end of input, and no name that is empty or spelled like the
top level. -/
def Proper (t : Token) : Prop :=
  t.kind ≠ .endOfInput ∧ (t.kind = .identifier → t.text ≠ "" ∧ t.text ≠ topLevel)

theorem proper_of_kind {t : Token} (hend : t.kind ≠ .endOfInput) (hname : t.kind ≠ .identifier) :
    t.Proper :=
  ⟨hend, fun h => absurd h hname⟩

theorem proper_symbol {c : Char} {kind : TokenKind} (h : symbol? c = some kind) (text : String)
    (line : Int) : Token.Proper { kind := kind, text := text, line := line } := by
  unfold symbol? at h
  split at h <;> cases h <;> exact proper_of_kind (by simp) (by simp)

theorem proper_comparison {line : Nat} {alone together : TokenKind} (rest : List Char)
    (halone : alone ≠ .endOfInput ∧ alone ≠ .identifier)
    (htogether : together ≠ .endOfInput ∧ together ≠ .identifier) :
    (comparison line alone together rest).token.Proper := by
  unfold comparison
  split
  · exact proper_of_kind htogether.1 htogether.2
  · exact proper_of_kind halone.1 halone.2

theorem reserved_kinds : ∀ e ∈ reserved, e.2 ≠ .endOfInput ∧ e.2 ≠ .identifier := by
  decide

theorem proper_word {text : String} (line : Nat) (h : text ≠ "" ∧ text ≠ topLevel) :
    (word text line).Proper := by
  unfold word
  split
  · exact proper_of_kind (by simp) (by simp)
  · rename_i kind _ hlookup
    obtain ⟨before, after, heq, -⟩ := List.lookup_eq_some_iff.mp hlookup
    have hkind := reserved_kinds (text, kind) (by rw [heq]; simp)
    exact proper_of_kind hkind.1 hkind.2
  · exact ⟨by simp, fun _ => h⟩

/-- Names do not begin with a point, which is a token of its own. -/
theorem ofList_ne_topLevel {c : Char} (cs : List Char) (h : symbol? c = none) :
    String.ofList (c :: cs) ≠ "" ∧ String.ofList (c :: cs) ≠ topLevel := by
  refine ⟨by simp, fun heq => ?_⟩
  have hlist := congrArg String.toList heq
  rw [String.toList_ofList] at hlist
  have hdot : c = '.' := by
    have : topLevel.toList = ['.'] := by decide
    rw [this] at hlist
    exact (List.cons.inj hlist).1
  rw [hdot] at h
  cases h

/-- A token is proper, and it takes its first character at least. -/
theorem beginning_eq_ok {line : Nat} {c : Char} {rest : List Char} {next : Scanned}
    (h : beginning line c rest = .ok next) :
    next.token.Proper ∧ next.rest.length ≤ rest.length := by
  unfold beginning at h
  split at h
  · cases h
    exact ⟨proper_of_kind (by simp) (by simp), length_skipLines_le _ _ _⟩
  · split at h
    · rename_i kind hsymbol
      cases h
      exact ⟨proper_symbol hsymbol _ _, Nat.le_refl _⟩
    · rename_i hsymbol
      split at h
      · cases h
        exact ⟨proper_comparison rest (by decide) (by decide), length_comparison_le _ _ _ _⟩
      · split at h
        · cases h
          exact ⟨proper_comparison rest (by decide) (by decide), length_comparison_le _ _ _ _⟩
        · split at h
          · split at h
            · cases h
              exact ⟨proper_of_kind (by simp) (by simp), Nat.le_succ _⟩
            · cases h
          · split at h
            · cases hbody : stringBody c rest with
              | error cause =>
                  rw [hbody] at h
                  cases h
              | ok r =>
                  rw [hbody] at h
                  cases h
                  exact ⟨proper_of_kind (by simp) (by simp), length_stringBody_le hbody⟩
            · split at h
              · rename_i hdigit
                dsimp only at h
                split at h
                · cases h
                  exact ⟨proper_of_kind (by simp) (by simp), length_numberBody_le c rest hdigit⟩
                · cases h
              · split at h
                · cases h
                  exact ⟨proper_word line (ofList_ne_topLevel _ hsymbol),
                    (List.dropWhile_suffix _).length_le⟩
                · cases h

/-- The tokens of a text are proper, and the last one is a line break. -/
theorem proper_of_scanFrom {fuel line : Nat} {ended : Bool} {cs : List Char} {tokens : List Token}
    (h : scanFrom fuel line ended cs = .ok tokens) :
    (∀ t ∈ tokens, t.Proper) ∧ (tokens = [] → ended = true) ∧
      ∀ t, tokens.getLast? = some t → t.kind = .lineBreak := by
  induction fuel generalizing line ended cs tokens with
  | zero => cases h
  | succ fuel ih =>
      unfold scanFrom at h
      split at h
      · cases h
        cases ended with
        | true => simp
        | false => simp [Proper]
      · split at h
        · cases h
        · rename_i next hnext
          cases hrest : scanFrom fuel next.line (next.token.kind = .lineBreak) next.rest with
          | error e =>
              rw [hrest] at h
              cases h
          | ok rest =>
              rw [hrest] at h
              cases h
              obtain ⟨hproper, hempty, hlast⟩ := ih hrest
              refine ⟨?_, nofun, ?_⟩
              · rintro t (_ | ⟨_, ht⟩)
                · exact (beginning_eq_ok hnext).1
                · exact hproper t ht
              · intro t ht
                cases rest with
                | nil =>
                    cases ht
                    simpa using hempty rfl
                | cons u rest =>
                    rw [List.getLast?_cons_cons] at ht
                    exact hlast t ht

theorem proper_of_scan {source : String} {tokens : List Token} (h : scan source = .ok tokens) :
    (∀ t ∈ tokens, t.Proper) ∧ tokens ≠ [] ∧
      ∀ t, tokens.getLast? = some t → t.kind = .lineBreak := by
  obtain ⟨hproper, hempty, hlast⟩ := proper_of_scanFrom h
  refine ⟨hproper, ?_, hlast⟩
  intro hnil
  cases hempty hnil

/-- The fuel of the scanner is never used up, so what it reports is a mistake in the
text. -/
theorem kind_of_scanFrom {fuel line : Nat} {ended : Bool} {cs : List Char} {e : CompileError}
    (hfuel : cs.length < fuel) (h : scanFrom fuel line ended cs = .error e) :
    e.kind ≠ .internalError := by
  induction fuel generalizing line ended cs with
  | zero => omega
  | succ fuel ih =>
      have hspaces := length_skipSpaces_le cs
      unfold scanFrom at h
      split at h
      · cases h
      · rename_i c rest hskip
        rw [hskip, List.length_cons] at hspaces
        split at h
        · cases h
          nofun
        · rename_i next hnext
          have hlength := (beginning_eq_ok hnext).2
          cases hrest : scanFrom fuel next.line (next.token.kind = .lineBreak) next.rest with
          | error e' =>
              rw [hrest] at h
              cases h
              exact ih (by omega) hrest
          | ok tokens =>
              rw [hrest] at h
              cases h

theorem kind_of_scan {source : String} {e : CompileError} (h : scan source = .error e) :
    e.kind ≠ .internalError :=
  kind_of_scanFrom (Nat.lt_succ_self _) h

/-! ## A line more -/

theorem map_cons_eq_ok {r : Except CompileError (List Token)} {t : Token} {tokens : List Token}
    (h : r.map (t :: ·) = .ok tokens) : ∃ rest, r = .ok rest ∧ tokens = t :: rest := by
  cases r with
  | error e => cases h
  | ok rest => exact ⟨rest, rfl, (Except.ok.inj h).symm⟩

theorem takeWhile_append_break {p : Char → Bool} (h : p '\n' = false) (cs more : List Char) :
    (cs ++ '\n' :: more).takeWhile p = cs.takeWhile p := by
  induction cs with
  | nil => exact List.takeWhile_cons_of_neg (by simp [h])
  | cons c rest ih =>
      simp only [List.cons_append, List.takeWhile_cons]
      rw [ih]

theorem dropWhile_append_break {p : Char → Bool} (h : p '\n' = false) (cs more : List Char) :
    (cs ++ '\n' :: more).dropWhile p = cs.dropWhile p ++ '\n' :: more := by
  induction cs with
  | nil => exact List.dropWhile_cons_of_neg (by simp [h])
  | cons c rest ih =>
      simp only [List.cons_append, List.dropWhile_cons]
      split
      · exact ih
      · rfl

theorem skipSpaces_append_break (cs more : List Char) :
    skipSpaces (cs ++ '\n' :: more) = skipSpaces cs ++ '\n' :: more := by
  induction cs with
  | nil => rfl
  | cons c rest ih =>
      rw [List.cons_append, skipSpaces, skipSpaces, ih]
      split
      · rfl
      · split
        · exact dropWhile_append_break (by decide) rest more
        · rfl

/-- As long as a token follows the blank lines of the text itself, a further line does
not change where they end. -/
theorem skipLines_append_break {inComment : Bool} {line : Nat} {cs : List Char} (more : List Char)
    (h : (skipLines inComment line cs).2 ≠ []) :
    skipLines inComment line (cs ++ '\n' :: more) =
      ((skipLines inComment line cs).1, (skipLines inComment line cs).2 ++ '\n' :: more) := by
  induction cs generalizing inComment line with
  | nil => exact absurd rfl h
  | cons c rest ih =>
      rw [skipLines] at h
      rw [List.cons_append, skipLines, skipLines]
      split
      · rename_i hc
        rw [if_pos hc] at h
        exact ih h
      · rename_i hc
        rw [if_neg hc] at h
        split
        · rename_i hin
          rw [if_pos hin] at h
          exact ih h
        · rename_i hin
          rw [if_neg hin] at h
          split
          · rename_i hspace
            rw [if_pos hspace] at h
            exact ih h
          · rename_i hspace
            rw [if_neg hspace] at h
            split
            · rename_i hash
              rw [if_pos hash] at h
              exact ih h
            · rfl

theorem stringBody_of_ne {quote c : Char} (hc : c ≠ '\\') (rest : List Char) :
    stringBody quote (c :: rest) =
      if c = quote then .ok ([], rest)
      else if c = '\n' then .error .unterminatedString
      else (stringBody quote rest).map fun (content, rest) => (c :: content, rest) := by
  rw [stringBody]
  · exact fun h => absurd h hc
  · exact fun _ _ h => absurd h hc

/-- A string literal lies on one line. -/
theorem stringBody_append_break {quote : Char} (hquote : quote ≠ '\n') (cs more : List Char) :
    match stringBody quote cs with
    | .ok (content, rest) =>
      stringBody quote (cs ++ '\n' :: more) = .ok (content, rest ++ '\n' :: more)
    | .error _ => ∃ cause, stringBody quote (cs ++ '\n' :: more) = .error cause := by
  fun_induction stringBody quote cs with
  | case1 =>
      refine ⟨.unterminatedString, ?_⟩
      rw [List.nil_append, stringBody, if_neg (fun h => hquote h.symm), if_pos rfl]
      all_goals simp
  | case2 => exact ⟨.invalidEscape '\n', rfl⟩
  | case3 c cs e he ih =>
      simp only [List.cons_append, stringBody, he]
      cases hbody : stringBody quote cs with
      | error cause =>
          rw [hbody] at ih
          obtain ⟨cause', hcause⟩ := ih
          exact ⟨cause', by rw [hcause]; rfl⟩
      | ok r =>
          rw [hbody] at ih
          simp only [ih, Except.map]
  | case4 c cs he =>
      refine ⟨.invalidEscape c, ?_⟩
      simp only [List.cons_append, stringBody, he]
  | case5 cs hlone hescape =>
      have hne : quote ≠ '\\' := fun h => by cases cs <;> simp_all
      dsimp only
      rw [List.cons_append, stringBody_of_ne hne, if_pos rfl]
  | case6 cs hlone hescape hne =>
      refine ⟨.unterminatedString, ?_⟩
      rw [List.cons_append, stringBody_of_ne (by decide), if_neg hne, if_pos rfl]
  | case7 c cs hlone hescape hne hbreak ih =>
      have hc : c ≠ '\\' := fun h => by cases cs <;> simp_all
      rw [List.cons_append, stringBody_of_ne hc, if_neg hne, if_neg hbreak]
      cases hbody : stringBody quote cs with
      | error cause =>
          rw [hbody] at ih
          obtain ⟨cause', hcause⟩ := ih
          exact ⟨cause', by rw [hcause]; rfl⟩
      | ok r =>
          rw [hbody] at ih
          simp only [ih, Except.map]

theorem numberBody_append_break (cs more : List Char) :
    numberBody (cs ++ '\n' :: more) = ((numberBody cs).1, (numberBody cs).2 ++ '\n' :: more) := by
  have hbreak : isDigit '\n' = false := by decide
  unfold numberBody
  dsimp only
  rw [takeWhile_append_break hbreak, dropWhile_append_break hbreak]
  cases cs.dropWhile isDigit with
  | nil => rfl
  | cons point rest =>
      by_cases hpoint : point = '.'
      · subst hpoint
        cases rest with
        | nil => simp [hbreak]
        | cons d rest =>
            simp only [List.cons_append]
            split
            · rw [← List.cons_append, takeWhile_append_break hbreak, dropWhile_append_break hbreak]
            · rfl
      · simp [hpoint]

theorem comparison_append_break (line : Nat) (alone together : TokenKind) (rest more : List Char) :
    comparison line alone together (rest ++ '\n' :: more) =
      { comparison line alone together rest with
        rest := (comparison line alone together rest).rest ++ '\n' :: more } := by
  cases rest with
  | nil => rfl
  | cons c rest =>
      by_cases hc : c = '='
      · subst hc
        rfl
      · simp [comparison, hc]

/-- A token that is no line break does not see the next line. -/
theorem beginning_append_break (line : Nat) {c : Char} (hc : c ≠ '\n') (rest more : List Char) :
    match beginning line c rest with
    | .ok next =>
      beginning line c (rest ++ '\n' :: more) = .ok { next with rest := next.rest ++ '\n' :: more }
    | .error _ => ∃ cause, beginning line c (rest ++ '\n' :: more) = .error cause := by
  unfold beginning
  simp only [if_neg hc]
  cases symbol? c with
  | some kind => rfl
  | none =>
      dsimp only
      by_cases hless : c = '<'
      · simp only [if_pos hless, comparison_append_break]
      by_cases hgreater : c = '>'
      · simp only [if_neg hless, if_pos hgreater, comparison_append_break]
      by_cases hbang : c = '!'
      · simp only [if_neg hless, if_neg hgreater, if_pos hbang]
        cases rest with
        | nil => exact ⟨_, rfl⟩
        | cons d rest =>
            by_cases hd : d = '='
            · subst hd
              rfl
            · simp [hd]
      by_cases hquote : (c = '\x22' || c = '\x27') = true
      · simp only [if_neg hless, if_neg hgreater, if_neg hbang, if_pos hquote]
        have hbody := stringBody_append_break hc rest more
        cases hresult : stringBody c rest with
        | error cause =>
            rw [hresult] at hbody
            obtain ⟨cause', hcause⟩ := hbody
            exact ⟨cause', by rw [hcause]; rfl⟩
        | ok r =>
            rw [hresult] at hbody
            simp only [hbody, Except.map]
      simp only [if_neg hless, if_neg hgreater, if_neg hbang, if_neg hquote]
      by_cases hdigit : isDigit c = true
      · simp only [if_pos hdigit]
        rw [← List.cons_append, numberBody_append_break]
        dsimp only
        cases Number.read? (String.ofList (numberBody (c :: rest)).1) with
        | some x => rfl
        | none => exact ⟨_, rfl⟩
      simp only [if_neg hdigit]
      have hletter : isNameChar '\n' = false := by decide
      by_cases hname : isNameStart c = true
      · simp only [if_pos hname, takeWhile_append_break hletter, dropWhile_append_break hletter]
      · simp only [if_neg hname]
        exact ⟨_, rfl⟩

/-- What a further line may do to the tokens of a text: a failure stays one, and tokens
stay the first ones unless the further line is itself no sequence of tokens. -/
def Continued : Except CompileError (List Token) → Except CompileError (List Token) → Prop
  | .error _, r => ∃ e, r = .error e
  | .ok tokens, r => (∃ e, r = .error e) ∨ ∃ more, r = .ok (tokens ++ more)

theorem continued_nil (r : Except CompileError (List Token)) : Continued (.ok []) r := by
  cases r with
  | error e => exact .inl ⟨e, rfl⟩
  | ok tokens => exact .inr ⟨tokens, rfl⟩

theorem Continued.cons {r r' : Except CompileError (List Token)} (h : Continued r r') (t : Token) :
    Continued (r.map (t :: ·)) (r'.map (t :: ·)) := by
  cases r with
  | error e =>
      obtain ⟨e', rfl⟩ := h
      exact ⟨e', rfl⟩
  | ok tokens =>
      obtain ⟨e', rfl⟩ | ⟨more, rfl⟩ := h
      · exact .inl ⟨e', rfl⟩
      · exact .inr ⟨more, rfl⟩

theorem continued_scanFrom {fuel fuel' line : Nat} {ended : Bool} {cs : List Char}
    (more : List Char) (hfuel : cs.length < fuel) :
    Continued (scanFrom fuel line ended cs) (scanFrom fuel' line ended (cs ++ '\n' :: more)) := by
  induction fuel generalizing fuel' line ended cs with
  | zero => omega
  | succ fuel ih =>
      cases fuel' with
      | zero =>
          rw [scanFrom.eq_1 line ended (cs ++ '\n' :: more)]
          cases scanFrom (fuel + 1) line ended cs with
          | error e => exact ⟨_, rfl⟩
          | ok tokens => exact .inl ⟨_, rfl⟩
      | succ fuel' =>
          have hspaces := length_skipSpaces_le cs
          rw [scanFrom, scanFrom, skipSpaces_append_break]
          cases hskip : skipSpaces cs with
          | nil =>
              cases ended with
              | true => exact continued_nil _
              | false => exact (continued_nil _).cons _
          | cons c rest =>
              rw [hskip, List.length_cons] at hspaces
              simp only [List.cons_append]
              by_cases hc : c = '\n'
              · -- The blank lines behind a line break may go on into the further line.
                subst hc
                have hlength := length_skipLines_le false (line + 1) rest
                simp only [beginning, if_pos]
                by_cases hrest : (skipLines false (line + 1) rest).2 = []
                · obtain ⟨fuel, rfl⟩ : ∃ n, fuel = n + 1 := ⟨fuel - 1, by omega⟩
                  rw [hrest]
                  exact (continued_nil _).cons _
                · rw [skipLines_append_break more hrest]
                  exact (ih (by omega)).cons _
              · have hbeginning := beginning_append_break line hc rest more
                cases hresult : beginning line c rest with
                | error cause =>
                    rw [hresult] at hbeginning
                    obtain ⟨cause', hcause⟩ := hbeginning
                    exact ⟨_, by rw [hcause]⟩
                | ok next =>
                    rw [hresult] at hbeginning
                    have hlength := (beginning_eq_ok hresult).2
                    simp only [hbeginning]
                    exact (ih (by omega)).cons _

/-- The tokens of a text on whose end a line follows. -/
theorem continued_scan (text more : String) :
    Continued (scan text) (scan (text ++ "\n" ++ more)) := by
  have hlist : (text ++ "\n" ++ more).toList = text.toList ++ '\n' :: more.toList := by
    simp
  unfold scan
  rw [hlist, List.takeWhile_append]
  split
  · rename_i hlength
    have htext := (List.takeWhile_prefix (p := (· ≠ '\x00')) (l := text.toList)).eq_of_length hlength
    rw [htext, List.takeWhile_cons_of_pos (by decide)]
    exact continued_scanFrom _ (Nat.lt_succ_self _)
  · -- What stands behind a null character is never read.
    cases scanFrom _ 1 false (text.toList.takeWhile (· ≠ '\x00')) with
    | error e => exact ⟨e, rfl⟩
    | ok tokens => exact .inr ⟨[], by simp⟩

end LineScript.Token
