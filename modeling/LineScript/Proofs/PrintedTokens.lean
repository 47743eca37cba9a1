/-
# Printed tokens are read back

Tokens can be laid out as a text in many ways: with spaces of any number between them, with string
literals in either kind of quotes and with more or fewer characters escaped, with blank lines and
comments where a line ends. Whatever the layout, reading the text gives the tokens again.

Two things can go wrong when texts are put side by side. Tokens could run together, so spaces stand
between any two on a line; and a quote within a string literal could end it, or a line break cut it off,
so these are escaped. A layout that sees to both is as good as any other.
-/

import LineScript.Proofs.TokenSequences

namespace LineScript.Token

/-! ## Tokens that can be printed -/

/-- A text that is a name by itself: it begins and goes on as names do, and it is no reserved word. -/
def IsName (text : String) : Prop :=
  text.toList.head?.any isNameStart = true ∧ text.toList.all isNameChar = true ∧
    text ∉ reservedWords

instance (text : String) : Decidable (IsName text) :=
  inferInstanceAs (Decidable (text.toList.head?.any isNameStart = true ∧
    text.toList.all isNameChar = true ∧ text ∉ reservedWords))

theorem IsName.isNameChar {text : String} (h : IsName text) : ∀ c ∈ text.toList, isNameChar c = true :=
  List.all_eq_true.mp h.2.1

/-- The tokens that have a text: ends of lines, symbols, reserved words, names, decimal numbers with a
finite value, and strings without null characters. -/
inductive Writable : Token → Prop where
  | lineBreak (line : Int) : Writable { kind := .lineBreak, text := "\n", line := line }
  | symbol {kind : TokenKind} (line : Int) : kind ∈ symbols →
      Writable { kind := kind, text := kind.label, line := line }
  | truth (b : Bool) (line : Int) :
      Writable { kind := .boolean, value := .ofBool b, text := toString b, line := line }
  | reserved {text : String} {kind : TokenKind} (line : Int) : (text, kind) ∈ reserved →
      kind ≠ .boolean → Writable { kind := kind, text := text, line := line }
  | name {text : String} (line : Int) : IsName text →
      Writable { kind := .identifier, text := text, line := line }
  | number {whole fraction : List Char} {x : Float} (line : Int) : whole ≠ [] →
      (∀ d ∈ whole ++ fraction, isDigit d = true) →
      Number.Dyadic.nearest? false (decimal (whole ++ fraction)) (10 ^ fraction.length) = some x →
      Writable { kind := .number, value := .ofNumber x,
                 text := String.ofList (numeral whole fraction), line := line }
  | string {s : String} (line : Int) : '\x00' ∉ s.toList →
      Writable { kind := .string, value := .ofString s, text := s, line := line }

/-! ## Layouts -/

/-- The letter that stands for a character behind a backslash, if there is one. -/
def escape? (c : Char) : Option Char := (escapes.find? fun e => e.2 = c).map (·.1)

/-- How a token is written, with the spaces behind it. -/
structure Layout where
  /-- The quotes of string literals. -/
  quote : Char := '\x22'
  /-- The characters that are escaped although they need not be. -/
  escaping : Char → Bool := fun _ => true
  /-- The ends of lines that an end of a line is made of. -/
  ends : List LineEnd := [{}]
  gap : List Char := [' ']

namespace Layout

/-- A character within a string literal. -/
def character (l : Layout) (c : Char) : List Char :=
  match escape? c with
  | some e => if c = '\\' ∨ c = l.quote ∨ c = '\n' ∨ l.escaping c = true then ['\\', e] else [c]
  | none => [c]

/-- The characters that a token is written with. -/
def spelled (l : Layout) (t : Token) : List Char :=
  if t.kind = .string then l.quote :: t.text.toList.flatMap l.character ++ [l.quote]
  else if t.kind = .lineBreak then LineEnd.texts l.ends
  else t.text.toList

/-- The quotes are quotes, a line ends with a line break at least and with comments that stay on their
lines, and the spaces are spaces. -/
structure Valid (l : Layout) : Prop where
  quote : l.quote = '\x22' ∨ l.quote = '\x27'
  ends_ne : l.ends ≠ []
  ends : ∀ e ∈ l.ends, e.Valid
  comments : ∀ e ∈ l.ends, ∀ comment, e.comment? = some comment → '\x00' ∉ comment
  gap : Gap l.gap

end Layout

/-- Tokens, each with its layout, as one text. -/
def printed (tokens : List (Token × Layout)) : List Char :=
  tokens.flatMap fun e => e.2.spelled e.1 ++ e.2.gap

/-- What may stand one behind the other: not two ends of lines, and no tokens of one line without spaces
between them. -/
structure Neighbours (e e' : Token × Layout) : Prop where
  ends : e.1.kind = .lineBreak → e'.1.kind ≠ .lineBreak
  gap : e.1.kind ≠ .lineBreak → e'.1.kind ≠ .lineBreak → e.2.gap ≠ []

/-! ## Spelled tokens denote themselves -/

theorem mem_escapes_of_escape? {c e : Char} (h : escape? c = some e) : (e, c) ∈ escapes := by
  obtain ⟨found, hfind, rfl⟩ := Option.map_eq_some_iff.mp h
  have hsame : found.2 = c := by simpa using List.find?_some hfind
  rw [← hsame]
  exact List.mem_of_find?_eq_some hfind

theorem ne_of_escape?_eq_none {c : Char} (h : escape? c = none) :
    c ≠ '\\' ∧ c ≠ '\n' ∧ c ≠ '\x22' ∧ c ≠ '\x27' := by
  refine ⟨?_, ?_, ?_, ?_⟩ <;> rintro rfl <;> cases h

namespace Layout

variable {l : Layout}

/-- Escaped as it may be, a content stays what it is. -/
theorem Valid.quoted (h : l.Valid) (content : List Char) :
    Quoted l.quote (content.flatMap l.character) content := by
  induction content with
  | nil => exact .nil
  | cons c content ih =>
      rw [List.flatMap_cons, character]
      split
      · rename_i e hescape
        split
        · exact .escape (mem_escapes_of_escape? hescape) ih
        · rename_i hneeded
          simp only [not_or] at hneeded
          exact .plain hneeded.2.1 hneeded.1 hneeded.2.2.1 ih
      · rename_i hescape
        obtain ⟨hslash, hbreak, hdouble, hsingle⟩ := ne_of_escape?_eq_none hescape
        refine .plain ?_ hslash hbreak ih
        rcases h.quote with hquote | hquote <;> rw [hquote]
        · exact hdouble
        · exact hsingle

theorem spelled_of_ne {t : Token} (hstring : t.kind ≠ .string) (hbreak : t.kind ≠ .lineBreak) :
    l.spelled t = t.text.toList := by
  rw [spelled, if_neg hstring, if_neg hbreak]

theorem kind_of_reserved {text : String} {kind : TokenKind} (h : (text, kind) ∈ reserved) :
    kind ≠ .string ∧ kind ≠ .lineBreak := by
  have hall : ∀ e ∈ reserved, e.2 ≠ .string ∧ e.2 ≠ .lineBreak := by decide
  exact hall _ h

theorem kind_of_symbol {kind : TokenKind} (h : kind ∈ symbols) :
    kind ≠ .string ∧ kind ≠ .lineBreak := by
  have hall : ∀ kind ∈ symbols, kind ≠ .string ∧ kind ≠ .lineBreak := by decide
  exact hall _ h

/-- The characters of a token denote it. -/
theorem Valid.denotes (h : l.Valid) {t : Token} (ht : Writable t) (hbreak : t.kind ≠ .lineBreak) :
    Denotes (l.spelled t) t := by
  cases ht with
  | lineBreak => exact absurd rfl hbreak
  | symbol line hmem =>
      rw [spelled_of_ne (kind_of_symbol hmem).1 hbreak]
      exact .symbol line hmem
  | truth b line => exact .truth b line
  | reserved line hmem hkind =>
      rw [spelled_of_ne (kind_of_reserved hmem).1 hbreak]
      exact .reserved line hmem hkind
  | @name text line hname =>
      have hchars := hname.isNameChar
      obtain ⟨hstart, -, hword⟩ := hname
      have hspelled : l.spelled { kind := .identifier, text := text, line := line } = text.toList :=
        spelled_of_ne (by simp) hbreak
      rw [hspelled]
      cases hlist : text.toList with
      | nil =>
          rw [hlist] at hstart
          cases hstart
      | cons c rest =>
          have htext : text = String.ofList (c :: rest) := by rw [← hlist, String.ofList_toList]
          rw [hlist] at hstart hchars
          rw [htext] at hword ⊢
          exact .name line hstart (fun d hd => hchars d (.tail _ hd)) hword
  | @number whole fraction x line hwhole hdigits hvalue =>
      rw [spelled_of_ne (by simp) hbreak, String.toList_ofList]
      exact .number line hwhole hdigits hvalue
  | @string s line hnull =>
      have hdenotes := Denotes.string line h.quote (h.quoted s.toList)
      rw [String.ofList_toList] at hdenotes
      exact hdenotes

/-! ## No null characters -/

theorem null_notMem_character (l : Layout) {c : Char} (h : c ≠ '\x00') : '\x00' ∉ l.character c := by
  have hall : ∀ e ∈ escapes, '\x00' ∉ ['\\', e.1] := by decide
  have hself : '\x00' ∉ [c] := by simpa using h.symm
  unfold character
  split
  · rename_i e hescape
    split
    · exact hall _ (mem_escapes_of_escape? hescape)
    · exact hself
  · exact hself

theorem null_notMem_text {e : LineEnd} (h : e.Valid)
    (hcomment : ∀ comment, e.comment? = some comment → '\x00' ∉ comment) : '\x00' ∉ e.text := by
  have hgap : '\x00' ∉ e.gap := fun hmem => absurd (h.gap _ hmem) (by decide)
  unfold LineEnd.text
  cases hcomment? : e.comment? with
  | none => simpa using hgap
  | some comment => simpa using ⟨hgap, hcomment comment hcomment?⟩

theorem Valid.null_notMem (h : l.Valid) {t : Token} (ht : Writable t) : '\x00' ∉ l.spelled t := by
  cases ht with
  | lineBreak =>
      intro hmem
      obtain ⟨e, he, hmem⟩ := List.mem_flatMap.mp hmem
      exact null_notMem_text (h.ends e he) (h.comments e he) hmem
  | symbol line hmem =>
      have hall : ∀ kind ∈ symbols, '\x00' ∉ kind.label.toList := by decide
      obtain ⟨hstring, hbreak⟩ := kind_of_symbol hmem
      rw [spelled_of_ne hstring hbreak]
      exact hall _ hmem
  | truth b =>
      have hall : ∀ b : Bool, '\x00' ∉ (toString b).toList := by decide
      rw [spelled_of_ne (by simp) (by simp)]
      exact hall b
  | reserved line hmem =>
      have hall : ∀ e ∈ Token.reserved, '\x00' ∉ e.1.toList := by decide
      obtain ⟨hstring, hbreak⟩ := kind_of_reserved hmem
      rw [spelled_of_ne hstring hbreak]
      exact hall _ hmem
  | name line hname =>
      rw [spelled_of_ne (by simp) (by simp)]
      exact fun hmem => absurd (hname.isNameChar _ hmem) (by decide)
  | number line hwhole hdigits =>
      rw [spelled_of_ne (by simp) (by simp), String.toList_ofList]
      intro hmem
      rcases mem_numeral hdigits hmem with hpoint | hdigit
      · cases hpoint
      · cases hdigit
  | @string s line hnull =>
      have hquote : '\x00' ≠ l.quote := by
        rcases h.quote with hquote | hquote <;> rw [hquote] <;> decide
      have hbody : '\x00' ∉ s.toList.flatMap l.character := by
        intro hmem
        obtain ⟨c, hc, hmem⟩ := List.mem_flatMap.mp hmem
        exact null_notMem_character l (ne_of_mem_of_not_mem hc hnull) hmem
      rw [spelled, if_pos rfl, List.mem_append, List.mem_cons, List.mem_singleton]
      simp only [hquote, hbody, or_self, not_false_eq_true]

end Layout

/-! ## Printed tokens -/

section

variable {tokens : List (Token × Layout)}

theorem printed_cons (e : Token × Layout) (tokens : List (Token × Layout)) :
    printed (e :: tokens) = e.2.spelled e.1 ++ (e.2.gap ++ printed tokens) := by
  rw [printed, List.flatMap_cons, List.append_assoc]
  rfl

/-- Every token and layout is one that can be printed. -/
def Printable (tokens : List (Token × Layout)) : Prop := ∀ e ∈ tokens, Writable e.1 ∧ e.2.Valid

/-- Behind the end of a line no other one follows. -/
theorem head?_skipSpaces_printed (h : Printable tokens)
    (hfirst : ∀ e, tokens.head? = some e → e.1.kind ≠ .lineBreak) :
    (skipSpaces (printed tokens)).head? ≠ some '\n' := by
  cases tokens with
  | nil => simp [printed, skipSpaces]
  | cons e rest =>
      obtain ⟨hwritable, hvalid⟩ := h e List.mem_cons_self
      have hbreak := hfirst e rfl
      have hdenotes := hvalid.denotes hwritable hbreak
      obtain ⟨c, cs, hspelled⟩ := List.exists_cons_of_ne_nil hdenotes.ne_nil
      rw [hspelled] at hdenotes
      obtain ⟨hspace, hhash, hc⟩ := hdenotes.head hbreak
      rw [printed_cons, hspelled, List.cons_append, skipSpaces_of_head hspace hhash]
      simpa using hc

/-- The end of a line does not belong to the token before it. -/
theorem apart_texts {ends : List LineEnd} (hne : ends ≠ []) (hends : ∀ e ∈ ends, e.Valid)
    (more : List Char) : Apart (LineEnd.texts ends ++ more) := by
  obtain ⟨e, ends, rfl⟩ := List.exists_cons_of_ne_nil hne
  have hgap := (hends e List.mem_cons_self).gap
  rw [LineEnd.texts, List.flatMap_cons, LineEnd.text]
  obtain ⟨gap, comment?⟩ := e
  cases gap with
  | cons c gap => exact apart_of_isSpace (hgap c List.mem_cons_self) _
  | nil =>
      cases comment? with
      | none => exact apart_cons (by decide) _
      | some comment => exact apart_cons (by decide) _

/-- What follows a token on its line does not belong to it. -/
theorem apart_printed {e : Token × Layout} (hgap : Gap e.2.gap) (h : Printable tokens)
    (hbreak : e.1.kind ≠ .lineBreak) (hnext : ∀ e', tokens.head? = some e' → Neighbours e e') :
    Apart (e.2.gap ++ printed tokens) := by
  cases hempty : e.2.gap with
  | cons c gap =>
      rw [hempty] at hgap
      exact apart_of_isSpace (hgap c List.mem_cons_self) _
  | nil =>
      cases tokens with
      | nil => exact apart_nil
      | cons e' rest =>
          obtain ⟨-, hvalid⟩ := h e' List.mem_cons_self
          have hbreak' : e'.1.kind = .lineBreak := by
            by_contra hbreak'
            exact (hnext e' rfl).gap hbreak hbreak' hempty
          have hspelled : e'.2.spelled e'.1 = LineEnd.texts e'.2.ends := by
            rw [Layout.spelled, if_neg (by rw [hbreak']; decide), if_pos hbreak']
          rw [printed_cons, hspelled]
          exact apart_texts hvalid.ends_ne hvalid.ends _

/-- Printed tokens are read from the front to the end of the last line. -/
theorem lexes_printed {ended : Bool} (h : Printable tokens) (hchain : tokens.IsChain Neighbours)
    (hlast : ∀ e, tokens.getLast? = some e → e.1.kind = .lineBreak)
    (hended : tokens = [] → ended = true) :
    Lexes ended (printed tokens) (tokens.map fun e => e.1.unplaced) := by
  induction tokens generalizing ended with
  | nil =>
      rw [hended rfl]
      exact lexes_nil
  | cons e rest ih =>
      obtain ⟨⟨hwritable, hvalid⟩, hrest⟩ := List.forall_mem_cons.mp h
      obtain ⟨hnext, hchain⟩ := List.isChain_cons.mp hchain
      have hlast' : ∀ e', rest.getLast? = some e' → e'.1.kind = .lineBreak := by
        intro e' he'
        refine hlast e' ?_
        rw [List.getLast?_cons, he']
        rfl
      rw [printed_cons, List.map_cons]
      by_cases hbreak : e.1.kind = .lineBreak
      · have hfirst : ∀ e', rest.head? = some e' → e'.1.kind ≠ .lineBreak :=
          fun e' he' => (hnext e' he').ends hbreak
        have hbehind : Lexes true (e.2.gap ++ printed rest) (rest.map fun e => e.1.unplaced) :=
          (ih hrest hchain hlast' fun _ => rfl).gap hvalid.gap
        have hspelled : e.2.spelled e.1 = LineEnd.texts e.2.ends := by
          rw [Layout.spelled, if_neg (by rw [hbreak]; decide), if_pos hbreak]
        have htoken : e.1.unplaced = lineEnd := by
          obtain ⟨t, l⟩ := e
          cases hwritable with
          | lineBreak => rfl
          | symbol line hmem => exact absurd hbreak (Layout.kind_of_symbol hmem).2
          | reserved line hmem => exact absurd hbreak (Layout.kind_of_reserved hmem).2
          | truth | name | number | string => cases hbreak
        rw [hspelled, htoken]
        refine LineEnd.lexes hbehind hvalid.ends_ne hvalid.ends ?_
        rw [skipSpaces_gap hvalid.gap]
        exact head?_skipSpaces_printed hrest hfirst
      · have hne : rest ≠ [] := by
          rintro rfl
          exact hbreak (hlast e rfl)
        have hbehind : Lexes false (e.2.gap ++ printed rest) (rest.map fun e => e.1.unplaced) :=
          (ih hrest hchain hlast' fun hnil => absurd hnil hne).gap hvalid.gap
        exact hbehind.token (hvalid.denotes hwritable hbreak) hbreak
          fun _ _ _ => apart_printed hvalid.gap hrest hbreak hnext

end

/-- Reading undoes printing. Take any list of tokens that ends with the end of a line and has no two of
these one behind the other, and any layout: spaces before the first token and between any two on a line,
ends of lines with blank lines and comments in them, and string literals in either kind of quotes, with
the backslash, the quotes around them and line breaks escaped and with the other quotes, tabs and carriage
returns escaped or not. The text is read as these tokens, with the same kinds, texts and values. -/
theorem scan_printed {indent : List Char} {tokens : List (Token × Layout)} (hindent : Gap indent)
    (hprintable : ∀ e ∈ tokens, Writable e.1 ∧ e.2.Valid) (hneighbours : tokens.IsChain Neighbours)
    (hlast : ∃ e, tokens.getLast? = some e ∧ e.1.kind = .lineBreak) :
    ∃ found, scan (String.ofList (indent ++ printed tokens)) = .ok found ∧
      found.map (fun t => (t.kind, t.text, t.value)) =
        tokens.map fun e => (e.1.kind, e.1.text, e.1.value) := by
  obtain ⟨last, hlast, hbreak⟩ := hlast
  have hlexes : Lexes false (printed tokens) (tokens.map fun e => e.1.unplaced) := by
    refine lexes_printed hprintable hneighbours (fun e he => ?_) ?_
    · cases hlast.symm.trans he
      exact hbreak
    · rintro rfl
      cases hlast
  have hnull : '\x00' ∉ indent ++ printed tokens := by
    intro hmem
    rcases List.mem_append.mp hmem with hmem | hmem
    · exact absurd (hindent _ hmem) (by decide)
    obtain ⟨e, he, hmem⟩ := List.mem_flatMap.mp hmem
    obtain ⟨hwritable, hvalid⟩ := hprintable e he
    rcases List.mem_append.mp hmem with hmem | hmem
    · exact hvalid.null_notMem hwritable hmem
    · exact absurd (hvalid.gap _ hmem) (by decide)
  obtain ⟨found, hscan, hfound⟩ := scan_of_lexes (hlexes.gap hindent) hnull
  refine ⟨found, hscan, ?_⟩
  have hsame := congrArg (List.map fun t : Token => (t.kind, t.text, t.value)) hfound
  simpa [Function.comp_def, unplaced] using hsame

/-- A name that begins like a reserved word, a string literal in single quotes with quotes of both kinds in
it, an end of line with a comment and a blank line, and a reserved word. -/
def iffy : List (Token × Layout) :=
  [({ kind := .identifier, text := "iffy", line := 1 }, {}),
    ({ kind := .equal, text := "=", line := 1 }, { gap := ['\t', ' '] }),
    ({ kind := .string, value := .ofString "#\"'\n", text := "#\"'\n", line := 1 },
      { quote := '\x27', escaping := fun _ => false, gap := [] }),
    ({ kind := .lineBreak, text := "\n", line := 1 },
      { ends := [{ gap := [' '], comment? := some "it's".toList }, {}] }),
    ({ kind := .null, text := "null", line := 3 }, {}),
    ({ kind := .lineBreak, text := "\n", line := 3 }, { gap := [] })]

theorem printable_iffy : Printable iffy := by
  have hplain : ({} : LineEnd).Valid := ⟨by decide, fun _ h => by cases h⟩
  have hremark : ({ gap := [' '], comment? := some "it's".toList } : LineEnd).Valid := by
    refine ⟨by decide, fun comment h => ?_⟩
    cases h
    decide
  have hlayout : ∀ l : Layout, l.quote ∈ ['\x22', '\x27'] → Gap l.gap → l.ends = [{}] → l.Valid := by
    rintro l hquote hgap hends
    refine ⟨by simpa using hquote, by simp [hends], ?_, ?_, hgap⟩ <;>
      simp only [hends, List.forall_mem_singleton]
    · exact hplain
    · exact fun _ h => by cases h
  have hends : Layout.Valid { ends := [{ gap := [' '], comment? := some "it's".toList }, {}] } := by
    refine ⟨.inl rfl, by simp, ?_, ?_, by decide⟩
    · simpa using ⟨hremark, hplain⟩
    · simp
  unfold Printable iffy
  simp only [List.forall_mem_cons, List.not_mem_nil, false_implies, implies_true, and_true]
  exact ⟨⟨.name 1 (by decide), hlayout _ (by decide) (by decide) rfl⟩,
    ⟨.symbol 1 (by decide), hlayout _ (by decide) (by decide) rfl⟩,
    ⟨.string 1 (by decide), hlayout _ (by decide) (by decide) rfl⟩,
    ⟨.lineBreak 1, hends⟩,
    ⟨.reserved 3 (by decide) (by decide), hlayout _ (by decide) (by decide) rfl⟩,
    ⟨.lineBreak 3, hlayout _ (by decide) (by decide) rfl⟩⟩

theorem scan_printed_iffy :
    printed iffy = "iffy =\t '#\"\\'\\n' #it's\n\n null \n".toList ∧
      ∃ found, scan (String.ofList (printed iffy)) = .ok found ∧
        found.map (fun t => (t.kind, t.text, t.value)) =
          iffy.map fun e => (e.1.kind, e.1.text, e.1.value) := by
  have hneighbours : iffy.IsChain Neighbours := by
    unfold iffy
    simp only [List.isChain_cons_cons, List.isChain_singleton, and_true]
    refine ⟨?_, ?_, ?_, ?_, ?_⟩ <;> exact ⟨by simp, by simp⟩
  have hlast : ∃ e, iffy.getLast? = some e ∧ e.1.kind = .lineBreak := ⟨_, rfl, rfl⟩
  have hscan := @scan_printed [] iffy (by decide) printable_iffy hneighbours hlast
  rw [List.nil_append] at hscan
  exact ⟨by decide, hscan⟩

end LineScript.Token
