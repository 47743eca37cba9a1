/-
# The lines that headers stand on

When no header of a script goes over the end of a line, each header is found on a line of its own. A
script that is cut into its lines is a sequence of lines that are read by themselves; on some of them
stand headers, one at most on each and at the front, and the others do not have `func` at all.

A header on a line is seen in its characters, too. Between its tokens stand spaces only, so that what
stands between its parentheses is a row of names with commas between them.
-/

import LineScript.Proofs.FunctionHeaders
import LineScript.Proofs.LineByLine
import LineScript.Proofs.PrintedTokens
import LineScript.Proofs.WordsAtCursor

namespace LineScript.Compile

/-! ## Headers that end where their line ends -/

/-- No line ends between `func` and the next closing parenthesis. -/
def HeadersInLine (kinds : List TokenKind) : Prop :=
  ∀ before inner after, kinds = before ++ .func :: (inner ++ .rightParen :: after) →
    .rightParen ∉ inner → .lineBreak ∉ inner

theorem headersInLine_cons_iff {kind : TokenKind} {kinds : List TokenKind} :
    HeadersInLine (kind :: kinds) ↔ HeadersInLine kinds ∧
      (kind = .func → .rightParen ∈ kinds → .lineBreak ∉ kinds.takeWhile (· ≠ .rightParen)) := by
  constructor
  · refine fun h => ⟨fun before inner after heq => h (kind :: before) inner after (by rw [heq]; rfl), ?_⟩
    rintro rfl hmem
    obtain ⟨inner, after, rfl, hinner⟩ := List.eq_append_cons_of_mem hmem
    rw [(Token.takeWhile_ne_cons hinner after).1]
    exact h [] inner after rfl hinner
  · rintro ⟨hrest, hfirst⟩ before inner after heq hinner
    cases before with
    | nil =>
        cases heq
        rw [(Token.takeWhile_ne_cons hinner after).1] at hfirst
        exact hfirst rfl (by simp)
    | cons first before => exact hrest before inner after (List.cons.inj heq).2 hinner

instance HeadersInLine.decidable : ∀ kinds, Decidable (HeadersInLine kinds)
  | [] => .isTrue fun before inner after heq => by simp at heq
  | _ :: kinds =>
      have := HeadersInLine.decidable kinds
      decidable_of_iff _ headersInLine_cons_iff.symm

theorem HeadersInLine.of_append {kinds kinds' : List TokenKind} (h : HeadersInLine (kinds ++ kinds')) :
    HeadersInLine kinds' := by
  intro before inner after heq
  exact h (kinds ++ before) inner after (by rw [heq, List.append_assoc])

theorem HeadersInLine.lineBreak {kinds : List TokenKind} (h : HeadersInLine kinds) :
    HeadersInLine (.lineBreak :: kinds) :=
  headersInLine_cons_iff.mpr ⟨h, nofun⟩

theorem Listed.kinds {listed : List (TokenKind × String)} {names : List String} {opened : Bool}
    (h : Listed listed names opened) :
    ∀ kind ∈ listed.map Prod.fst, kind = .identifier ∨ kind = .comma ∨ kind = .lineBreak := by
  induction h with
  | nil => exact List.forall_mem_nil _
  | last => simp
  | more _ _ hbreaks _ ih =>
      rw [List.map_cons, List.map_cons, List.map_append]
      refine List.forall_mem_cons.mpr ⟨.inl rfl, List.forall_mem_cons.mpr ⟨.inr (.inl rfl), ?_⟩⟩
      intro kind hkind
      obtain hkind | hkind := List.mem_append.mp hkind
      · obtain ⟨f, hf, rfl⟩ := List.mem_map.mp hkind
        exact .inr (.inr (hbreaks f hf))
      · exact ih kind hkind

/-- A header that is written on one line has no line break. -/
theorem IsHeader.ne_lineBreak {faces rest : List (TokenKind × String)} {h : Header}
    (hheader : IsHeader faces h) (hinline : HeadersInLine ((faces ++ rest).map Prod.fst)) :
    ∀ f ∈ faces, f.1 ≠ .lineBreak := by
  cases hheader with
  | @intro listed params opened keyword name left right hlisted hnodup =>
      have hkinds := hlisted.kinds
      have hbreak := hinline [] (.identifier :: .leftParen :: listed.map Prod.fst) (rest.map Prod.fst)
        (by simp) (by
          simp only [List.mem_cons, reduceCtorEq, false_or]
          exact fun hmem => by simpa using hkinds _ hmem)
      intro f hf hkind
      simp only [List.mem_cons, List.mem_append, List.not_mem_nil, or_false] at hf
      obtain rfl | rfl | rfl | hf | rfl := hf
      · cases hkind
      · cases hkind
      · cases hkind
      · refine hbreak (List.mem_cons_of_mem _ (List.mem_cons_of_mem _ ?_))
        rw [← hkind]
        exact List.mem_map_of_mem hf
      · cases hkind

/-! ## The first line -/

/-- The header that tokens on a line begin with, when there is one. -/
def Heading (words : List (TokenKind × String)) : Option Header → Prop
  | none => ∀ f ∈ words, f.1 ≠ .func
  | some h => ∃ faces rest, words = faces ++ rest ∧ IsHeader faces h

section

variable {words rest : List (TokenKind × String)} {headers : List Header} {stop : Bool}

theorem Headed.eq_nil {start : Bool} (h : Headed start [] headers stop) : headers = [] := by
  generalize hnone : ([] : List (TokenKind × String)) = none at h
  cases h with
  | nil => rfl
  | other => cases hnone
  | header hheader =>
      cases hheader
      cases hnone

/-- In the middle of a line no header begins. -/
theorem Headed.of_midLine {text : String}
    (h : Headed false (words ++ (.lineBreak, text) :: rest) headers stop)
    (hwords : ∀ f ∈ words, f.1 ≠ .lineBreak) :
    (∀ f ∈ words, f.1 ≠ .func) ∧ Headed true rest headers stop := by
  induction words with
  | nil =>
      cases h with
      | other _ h => exact ⟨List.forall_mem_nil _, by simpa using h⟩
  | cons f words ih =>
      obtain ⟨hf, hwords⟩ := List.forall_mem_cons.mp hwords
      cases h with
      | other hkind h =>
          rw [decide_eq_false hf] at h
          obtain ⟨hfunc, hrest⟩ := ih h hwords
          exact ⟨List.forall_mem_cons.mpr ⟨hkind, hfunc⟩, hrest⟩

/-- The first line has the first header, or `func` does not stand on it. -/
theorem Headed.first_line {text : String}
    (h : Headed true (words ++ (.lineBreak, text) :: rest) headers stop)
    (hwords : ∀ f ∈ words, f.1 ≠ .lineBreak)
    (hinline : HeadersInLine ((words ++ (.lineBreak, text) :: rest).map Prod.fst)) :
    ∃ header? headers', headers = header?.toList ++ headers' ∧ Heading words header? ∧
      Headed true rest headers' stop := by
  generalize hall : words ++ (.lineBreak, text) :: rest = all at h hinline
  cases h with
  | nil => simp at hall
  | @other _ _ f others _ hkind h =>
      refine ⟨none, headers, rfl, ?_⟩
      cases words with
      | nil =>
          cases hall
          exact ⟨List.forall_mem_nil _, by simpa using h⟩
      | cons f words =>
          cases hall
          obtain ⟨hf, hwords⟩ := List.forall_mem_cons.mp hwords
          rw [decide_eq_false hf] at h
          obtain ⟨hfunc, hrest⟩ := h.of_midLine hwords
          exact ⟨List.forall_mem_cons.mpr ⟨hkind, hfunc⟩, hrest⟩
  | @header _ faces others header headers' hheader h =>
      have hbreak := hheader.ne_lineBreak hinline
      refine ⟨some header, headers', rfl, ?_⟩
      obtain ⟨more, hfaces, hmore⟩ | ⟨more, rfl, hmore⟩ := List.append_eq_append_iff.mp hall
      · -- A header that went on behind the words would have the line break.
        cases more with
        | nil =>
            rw [List.append_nil] at hfaces
            rw [List.nil_append] at hmore
            subst hmore
            have hline : Headed false ([] ++ (.lineBreak, text) :: rest) headers' stop := h
            obtain ⟨-, hrest⟩ := hline.of_midLine (List.forall_mem_nil _)
            exact ⟨⟨faces, [], by rw [hfaces, List.append_nil], hheader⟩, hrest⟩
        | cons f more =>
            cases hmore
            refine absurd rfl (hbreak (.lineBreak, text) ?_)
            rw [hfaces]
            exact List.mem_append_right _ List.mem_cons_self
      · subst hmore
        obtain ⟨-, hrest⟩ := h.of_midLine fun f hf => hwords f (List.mem_append_right _ hf)
        exact ⟨⟨faces, more, rfl, hheader⟩, hrest⟩

end

end LineScript.Compile

namespace LineScript.Token

open LineScript.Compile

/-! ## Characters of a line -/

/-- Characters on one line that spell tokens, with spaces in front of each. Behind the last token, at the
end of the line, a comment may stand. -/
inductive SpellsLine : List Char → List (TokenKind × String) → Prop where
  | nil (cs : List Char) : SpellsLine cs []
  | cons {gap lexeme rest : List Char} {t : Token} {f : TokenKind × String}
      {faces : List (TokenKind × String)} : (∀ c ∈ gap, isSpace c = true) → Denotes lexeme t →
      t.face = f → f.1 ≠ .lineBreak → SpellsLine rest faces → SpellsLine (gap ++ (lexeme ++ rest)) (f :: faces)

/-- On one line, there are only spaces before a token. -/
theorem exists_gap {cs rest : List Char} {c : Char} (hbreak : '\n' ∉ cs)
    (h : skipSpaces cs = c :: rest) : ∃ gap, cs = gap ++ c :: rest ∧ ∀ d ∈ gap, isSpace d = true := by
  induction cs with
  | nil => cases h
  | cons d cs ih =>
      simp only [List.mem_cons, not_or] at hbreak
      rw [skipSpaces] at h
      split at h
      · rename_i hspace
        obtain ⟨gap, rfl, hgap⟩ := ih hbreak.2 h
        exact ⟨d :: gap, rfl, List.forall_mem_cons.mpr ⟨hspace, hgap⟩⟩
      · split at h
        · rw [List.dropWhile_eq_nil_iff.mpr (forall_ne_of_notMem hbreak.2)] at h
          cases h
        · cases h
          exact ⟨[], rfl, List.forall_mem_nil _⟩

/-- The tokens of a line are spelled on it, but for the line break that ends them. -/
theorem spells_of_scanFrom {fuel line : Nat} {cs : List Char} {tokens : List Token}
    (h : scanFrom fuel line false cs = .ok tokens) (hbreak : '\n' ∉ cs) :
    ∃ words last, tokens = words ++ [last] ∧ last.kind = .lineBreak ∧ SpellsLine cs (words.map face) := by
  induction fuel generalizing line cs tokens with
  | zero => cases h
  | succ fuel ih =>
      rw [scanFrom] at h
      cases hskip : skipSpaces cs with
      | nil =>
          rw [hskip] at h
          cases h
          exact ⟨[], _, rfl, rfl, .nil cs⟩
      | cons c rest =>
          obtain ⟨gap, rfl, hgap⟩ := exists_gap hbreak hskip
          rw [hskip] at h
          dsimp only at h
          have hc : c ≠ '\n' := by
            rintro rfl
            simp at hbreak
          cases hnext : beginning line c rest with
          | error cause =>
              rw [hnext] at h
              cases h
          | ok next =>
              rw [hnext] at h
              have hkind := kind_of_beginning hc hnext
              obtain ⟨more, hrest, hdenotes, -, -⟩ := denotes_of_beginning hnext
              obtain ⟨following, hfollowing, rfl⟩ := map_cons_eq_ok h
              rw [decide_eq_false hkind] at hfollowing
              have hnextBreak : '\n' ∉ next.rest := by
                intro hmem
                refine hbreak (List.mem_append_right _ (List.mem_cons_of_mem _ ?_))
                rw [hrest]
                exact List.mem_append_right _ hmem
              obtain ⟨words, last, rfl, hlast, hspells⟩ := ih hfollowing hnextBreak
              refine ⟨next.token :: words, last, rfl, hlast, ?_⟩
              rw [hrest, ← List.cons_append]
              exact .cons hgap hdenotes rfl hkind hspells

theorem SpellsLine.ne_lineBreak {cs : List Char} {faces : List (TokenKind × String)} (h : SpellsLine cs faces) :
    ∀ f ∈ faces, f.1 ≠ .lineBreak := by
  induction h with
  | nil => exact List.forall_mem_nil _
  | cons _ _ _ hkind _ ih => exact List.forall_mem_cons.mpr ⟨hkind, ih⟩

/-! ## All lines -/

/-- A line is read by itself, and the header is the one that it begins with. -/
structure HeadsLine (line : List Char) (header? : Option Header) : Prop where
  lineBreak_notMem : '\n' ∉ line
  null_notMem : '\x00' ∉ line
  reads : ∃ words last, scan (String.ofList line) = .ok (words ++ [last]) ∧ last.kind = .lineBreak ∧
    SpellsLine line (words.map face) ∧ Heading (words.map face) header?

/-- The tokens of a line that are read are its words and a line break. -/
theorem exists_words_of_scan {line : List Char} (hbreak : '\n' ∉ line) (hnull : '\x00' ∉ line)
    {tokens : List Token} (h : scan (String.ofList line) = .ok tokens) :
    ∃ words last, tokens = words ++ [last] ∧ last.kind = .lineBreak ∧
      SpellsLine line (words.map face) := by
  rw [scan_ofList hnull] at h
  exact spells_of_scanFrom h hbreak

theorem map_kind_eq (tokens : List Token) : tokens.map (·.kind) = (tokens.map face).map Prod.fst := by
  rw [List.map_map]
  rfl

theorem map_face_lowered (count : Nat) (tokens : List Token) :
    (tokens.map (lowered count)).map face = tokens.map face := by
  rw [List.map_map]
  rfl

theorem headed_of_withoutFirstBreak {tokens : List Token} {headers : List Header} {stop : Bool}
    (h : Headed true ((withoutFirstBreak tokens).map face) headers stop) :
    Headed true (tokens.map face) headers stop := by
  cases tokens with
  | nil => exact h
  | cons t rest =>
      by_cases hkind : t.kind = .lineBreak
      · rw [withoutFirstBreak, if_pos hkind] at h
        refine .other (by simp [face, hkind]) ?_
        rwa [face, hkind, decide_eq_true rfl]
      · rwa [withoutFirstBreak, if_neg hkind] at h

theorem headersInLine_of_withoutFirstBreak {tokens : List Token}
    (h : HeadersInLine ((withoutFirstBreak tokens).map (·.kind))) :
    HeadersInLine (tokens.map (·.kind)) := by
  cases tokens with
  | nil => exact h
  | cons t rest =>
      by_cases hkind : t.kind = .lineBreak
      · rw [withoutFirstBreak, if_pos hkind] at h
        rw [List.map_cons, hkind]
        exact h.lineBreak
      · rwa [withoutFirstBreak, if_neg hkind] at h

/-- The first line of a script, and what is read on the others. -/
theorem headsLine_of_first {line : List Char} (hbreak : '\n' ∉ line) (hnull : '\x00' ∉ line)
    {tokens : List Token} (h : scan (String.ofList line) = .ok tokens) (more : List Token)
    {headers : List Header} {stop : Bool}
    (hheaded : Headed true ((tokens ++ more).map face) headers stop)
    (hinline : HeadersInLine ((tokens ++ more).map (·.kind))) :
    ∃ header? headers', headers = header?.toList ++ headers' ∧ HeadsLine line header? ∧
      Headed true (more.map face) headers' stop := by
  obtain ⟨words, last, rfl, hlast, hspells⟩ := exists_words_of_scan hbreak hnull h
  have hface : last.face = (.lineBreak, last.text) := by rw [face, hlast]
  have hfaces : (words ++ [last] ++ more).map face =
      words.map face ++ (.lineBreak, last.text) :: more.map face := by
    rw [List.append_assoc, List.map_append, List.singleton_append, List.map_cons, hface]
  rw [map_kind_eq, hfaces] at hinline
  rw [hfaces] at hheaded
  obtain ⟨header?, headers', hheaders, hheading, hmore⟩ := hheaded.first_line hspells.ne_lineBreak hinline
  exact ⟨header?, headers', hheaders, ⟨hbreak, hnull, words, last, h, hlast, hspells, hheading⟩, hmore⟩

/-- What is read of a first line and of the lines behind it. -/
theorem exists_scan_of_scan_append {line more : List Char} (hnull : '\x00' ∉ line) {tokens : List Token}
    (h : scan (String.ofList (line ++ '\n' :: more)) = .ok tokens) :
    ∃ words others count, scan (String.ofList line) = .ok words ∧
      scan (String.ofList more) = .ok others ∧
      tokens = words ++ (withoutFirstBreak others).map (lowered count) := by
  have htext : String.ofList (line ++ '\n' :: more) = String.ofList line ++ "\n" ++ String.ofList more := by
    rw [← String.toList_inj]
    simp
  rw [htext] at h
  have hcontinued := continued_scan (String.ofList line) (String.ofList more)
  cases hwords : scan (String.ofList line) with
  | error e =>
      rw [hwords, h] at hcontinued
      obtain ⟨e', he⟩ := hcontinued
      cases he
  | ok words =>
      rw [scan_append_break_eq (by rwa [String.toList_ofList]) hwords] at h
      cases hothers : scan (String.ofList more) with
      | error e =>
          rw [hothers] at h
          cases h
      | ok others =>
          rw [hothers] at h
          cases h
          exact ⟨words, others, _, rfl, rfl, rfl⟩

/-- The headers of a script are those of its lines. -/
theorem exists_headsLines {cs : List Char} (hnull : '\x00' ∉ cs) {tokens : List Token}
    (h : scan (String.ofList cs) = .ok tokens) {headers : List Header} {stop : Bool}
    (hheaded : Headed true (tokens.map face) headers stop)
    (hinline : HeadersInLine (tokens.map (·.kind))) :
    ∃ rows, List.Forall₂ HeadsLine (Text.splitOnChar '\n' cs) rows ∧ rows.reduceOption = headers := by
  induction hlength : cs.length using Nat.strong_induction_on generalizing cs tokens headers with
  | _ n ih =>
      by_cases hmem : '\n' ∈ cs
      · obtain ⟨line, more, rfl, hbreak⟩ := List.eq_append_cons_of_mem hmem
        simp only [List.mem_append, List.mem_cons, not_or] at hnull
        obtain ⟨hnullLine, -, hnullMore⟩ := hnull
        obtain ⟨words, others, count, hwords, hothers, rfl⟩ := exists_scan_of_scan_append hnullLine h
        obtain ⟨header?, headers', rfl, hheads, hrest⟩ :=
          headsLine_of_first hbreak hnullLine hwords _ hheaded hinline
        rw [map_face_lowered] at hrest
        rw [List.map_append] at hinline
        have hinlineRest := hinline.of_append
        rw [map_kind_eq, map_face_lowered, ← map_kind_eq] at hinlineRest
        obtain ⟨rows, hrows, rfl⟩ := ih more.length (by simp [← hlength]; omega) hnullMore hothers
          (headed_of_withoutFirstBreak hrest) (headersInLine_of_withoutFirstBreak hinlineRest) rfl
        rw [Text.splitOnChar_append hbreak]
        refine ⟨header? :: rows, .cons hheads hrows, ?_⟩
        cases header? <;> rfl
      · obtain ⟨header?, headers', hheaders, hheads, hrest⟩ :=
          headsLine_of_first hmem hnull h [] (by rwa [List.append_nil])
            (by rwa [List.append_nil])
        obtain rfl := hrest.eq_nil
        rw [Text.splitOnChar_of_not_mem hmem]
        refine ⟨[header?], .cons hheads .nil, ?_⟩
        rw [hheaders, List.append_nil]
        cases header? <;> rfl

/-! ## Headers in characters -/

/-- What has a spelling of its own is spelled so. -/
theorem Denotes.eq_label {lexeme : List Char} {t : Token} (h : Denotes lexeme t)
    (hkind : t.kind ∈ TokenKind.func :: symbols) : lexeme = t.kind.label.toList := by
  cases h with
  | symbol => rfl
  | reserved line hmem =>
      have hall : ∀ e ∈ Token.reserved, e.2 ∈ TokenKind.func :: symbols → e.1 = e.2.label := by decide
      exact congrArg String.toList (hall _ hmem hkind)
  | lineBreak | truth | name | number | string => simp [symbols] at hkind

theorem Denotes.isName {lexeme : List Char} {t : Token} (h : Denotes lexeme t)
    (hkind : t.kind = .identifier) : IsName t.text := by
  obtain ⟨c, rest, rfl, htext, hstart, -, hreserved⟩ := h.exists_name hkind
  obtain ⟨hlexeme, hchars⟩ := h.text_of_identifier hkind
  refine ⟨?_, ?_, hreserved⟩
  · rw [htext]
    exact hstart
  · rw [hlexeme]
    exact List.all_eq_true.mpr hchars

theorem IsName.exists_cons {name : String} (h : IsName name) :
    ∃ c rest, name.toList = c :: rest ∧ isNameStart c = true := by
  have hstart := h.1
  cases hname : name.toList with
  | nil =>
      rw [hname] at hstart
      cases hstart
  | cons c rest =>
      rw [hname] at hstart
      exact ⟨c, rest, rfl, hstart⟩

theorem IsName.ne_nil {name : String} (h : IsName name) : name.toList ≠ [] := by
  obtain ⟨c, rest, hname, -⟩ := h.exists_cons
  rw [hname]
  exact List.cons_ne_nil c rest

namespace SpellsLine

variable {cs : List Char} {text : String} {faces : List (TokenKind × String)}

theorem fixed {kind : TokenKind} (h : SpellsLine cs ((kind, text) :: faces))
    (hkind : kind ∈ TokenKind.func :: symbols) :
    ∃ gap rest, cs = gap ++ (kind.label.toList ++ rest) ∧ (∀ c ∈ gap, isSpace c = true) ∧
      SpellsLine rest faces := by
  cases h with
  | @cons gap lexeme rest t _ _ hgap hdenotes hface _ hrest =>
      obtain rfl : t.kind = kind := congrArg Prod.fst hface
      obtain rfl := hdenotes.eq_label hkind
      exact ⟨gap, rest, rfl, hgap, hrest⟩

theorem name (h : SpellsLine cs ((.identifier, text) :: faces)) :
    ∃ gap rest, cs = gap ++ (text.toList ++ rest) ∧ (∀ c ∈ gap, isSpace c = true) ∧ IsName text ∧
      SpellsLine rest faces := by
  cases h with
  | @cons gap lexeme rest t _ _ hgap hdenotes hface _ hrest =>
      have hkind : t.kind = .identifier := congrArg Prod.fst hface
      obtain rfl : t.text = text := congrArg Prod.snd hface
      obtain ⟨htext, -⟩ := hdenotes.text_of_identifier hkind
      exact ⟨gap, rest, by rw [htext], hgap, hdenotes.isName hkind, hrest⟩

end SpellsLine

/-- Names with commas between them, up to the last name or to a comma behind it. -/
inductive Row : List Char → List String → Bool → Prop where
  | nil : Row [] [] true
  | last {name : String} : IsName name → Row name.toList [name] false
  | more {name : String} {gap gap' body : List Char} {names : List String} {opened : Bool} :
      IsName name → (∀ c ∈ gap, isSpace c = true) → (∀ c ∈ gap', isSpace c = true) →
      (body = [] → gap' = []) → Row body names opened →
      Row (name.toList ++ (gap ++ ',' :: (gap' ++ body))) (name :: names) opened

/-- What is listed as parameters is written as a row. -/
theorem SpellsLine.row {cs : List Char} {listed faces : List (TokenKind × String)} {right : String}
    {names : List String} {opened : Bool} (hlisted : Listed listed names opened)
    (h : SpellsLine cs (listed ++ (.rightParen, right) :: faces)) :
    ∃ gap body gap' rest, cs = gap ++ (body ++ (gap' ++ ')' :: rest)) ∧
      (∀ c ∈ gap, isSpace c = true) ∧ (∀ c ∈ gap', isSpace c = true) ∧ (body = [] → gap = []) ∧
      Row body names opened := by
  induction hlisted generalizing cs with
  | nil =>
      obtain ⟨gap, rest, rfl, hgap, -⟩ := h.fixed (by decide)
      exact ⟨[], [], gap, rest, rfl, List.forall_mem_nil _, hgap, fun _ => rfl, .nil⟩
  | last name =>
      obtain ⟨gap, rest, rfl, hgap, hname, h⟩ := h.name
      obtain ⟨gap', rest, rfl, hgap', -⟩ := h.fixed (by decide)
      exact ⟨gap, name.toList, gap', rest, rfl, hgap, hgap', fun hnil => absurd hnil hname.ne_nil,
        .last hname⟩
  | @more breaks listed names opened name comma hbreaks _ ih =>
      -- There are no line breaks between names on one line.
      obtain rfl : breaks = [] := by
        refine List.eq_nil_iff_forall_not_mem.mpr fun f hf => h.ne_lineBreak f ?_ (hbreaks f hf)
        simp [hf]
      obtain ⟨gap, rest, rfl, hgap, hname, h⟩ := h.name
      obtain ⟨gap', rest, rfl, hgap', h⟩ := h.fixed (by decide)
      obtain ⟨first, body, last, rest, rfl, hfirst, hlast, hnil, hrow⟩ := ih h
      have hne : ∀ more, name.toList ++ more ≠ [] := fun more hall =>
        hname.ne_nil (List.append_eq_nil_iff.mp hall).1
      refine ⟨gap, name.toList ++ (gap' ++ ',' :: (first ++ body)), last, rest, ?_, hgap, hlast,
        fun hall => absurd hall (hne _), .more hname hgap' hfirst hnil hrow⟩
      have hcomma : TokenKind.comma.label.toList = [','] := rfl
      simp [hcomma]

/-- What stands on a line around the name and the parameters of a header: the spaces in front of `func`,
behind it and behind the name, the row of the parameters with the spaces around it, and the rest of the
line. -/
structure HeaderLayout where
  indent : List Char
  gap : List Char
  gap' : List Char
  first : List Char
  body : List Char
  last : List Char
  tail : List Char
  opened : Bool

namespace HeaderLayout

/-- What stands between the parentheses. -/
def inner (l : HeaderLayout) : List Char := l.first ++ (l.body ++ l.last)

/-- The characters of the line. -/
def line (l : HeaderLayout) (name : String) : List Char :=
  l.indent ++ ("func".toList ++ (l.gap ++ (name.toList ++ (l.gap' ++ '(' :: (l.inner ++ ')' :: l.tail)))))

/-- A layout of the given header. -/
structure Fits (l : HeaderLayout) (h : Header) : Prop where
  indent : ∀ c ∈ l.indent, isSpace c = true
  gap : ∀ c ∈ l.gap, isSpace c = true
  gap' : ∀ c ∈ l.gap', isSpace c = true
  first : ∀ c ∈ l.first, isSpace c = true
  last : ∀ c ∈ l.last, isSpace c = true
  first_eq_nil : l.body = [] → l.first = []
  name : IsName h.name
  nodup : h.params.Nodup
  row : Row l.body h.params l.opened

end HeaderLayout

/-- The characters of the header that a line begins with. -/
theorem HeadsLine.exists_layout {line : List Char} {h : Header} (hheads : HeadsLine line (some h)) :
    ∃ l : HeaderLayout, line = l.line h.name ∧ l.Fits h := by
  obtain ⟨words, last, -, -, hspells, faces, rest, hwords, hheader⟩ := hheads.reads
  rw [hwords] at hspells
  cases hheader with
  | @intro _ _ opened keyword name left right hlisted hnodup =>
      simp only [List.cons_append, List.append_assoc] at hspells
      obtain ⟨indent, _, rfl, hindent, hspells⟩ := hspells.fixed (by decide)
      obtain ⟨gap, _, rfl, hgap, hname, hspells⟩ := hspells.name
      obtain ⟨gap', _, rfl, hgap', hspells⟩ := hspells.fixed (by decide)
      obtain ⟨first, body, last, tail, rfl, hfirst, hlast, hnil, hrow⟩ := SpellsLine.row hlisted hspells
      refine ⟨⟨indent, gap, gap', first, body, last, tail, opened⟩, ?_,
        ⟨hindent, hgap, hgap', hfirst, hlast, hnil, hname, hnodup, hrow⟩⟩
      have hleft : TokenKind.leftParen.label.toList = ['('] := rfl
      have hfunc : TokenKind.func.label = "func" := rfl
      simp [HeaderLayout.line, HeaderLayout.inner, hleft, hfunc]

end LineScript.Token
