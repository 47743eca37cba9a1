/-
# Where the tokens of a text stand

Reading a text cuts it into spans. Each token but a line break that is added at the end has a span of
its own, the longest one from there on that denotes a token, and what lies between the spans is spaces
and comments. A stretch of line breaks, blanks and comments that begins with a line break is one span,
so the line of a token, which counts all line breaks before it, counts none twice and leaves none out.

The scanner is followed by the place in the text that it has reached. What is known about the places
and the spans from there on is an inductive of its own, and everything else is read off it.
-/

import LineScript.Proofs.DecodedTexts
import LineScript.Proofs.Lexemes

namespace LineScript.Token

/-! ## Spans -/

/-- A part of a sequence, from the place `start` up to the place `stop`. -/
structure Span where
  start : Nat
  stop : Nat
  deriving DecidableEq, Repr

/-- What stands in a span. -/
def Span.of {α : Type} (s : Span) (xs : List α) : List α :=
  (xs.drop s.start).take (s.stop - s.start)

/-- The span of the bytes that the characters of a span are read from. -/
def Span.inBytes (s : Span) (bytes : Text.Bytes) : Span :=
  ⟨Text.offset s.start bytes, Text.offset s.stop bytes⟩

/-- What spans leave of the places from `start` to `stop`: what lies before the first one, between
neighbours, and behind the last one. -/
def gaps (stop : Nat) : Nat → List Span → List Span
  | start, [] => [⟨start, stop⟩]
  | start, s :: rest => ⟨start, s.start⟩ :: gaps stop s.stop rest

/-- A token where it stands. -/
structure Occurrence where
  span : Span
  token : Token

/-- A span of spaces and comments within a line. -/
def Separates (text : List Char) (s : Span) : Prop :=
  '\n' ∉ s.of text ∧ Blank (text.drop s.stop) (s.of text)

/-- A span of line breaks, spaces and comments that begins with a line break. -/
def Breaks (text : List Char) (s : Span) : Prop :=
  s.stop ≤ text.length ∧ ∃ blank, s.of text = '\n' :: blank ∧ Blank (text.drop s.stop) blank

/-- Such a span that is not part of another one. -/
def BreaksWhole (text : List Char) (s : Span) : Prop :=
  Breaks text s ∧ ∀ s', s'.start ≤ s.start → s.stop ≤ s'.stop → Breaks text s' → s' = s

/-- A token that stands where it is said to: what is there denotes it, no longer stretch from there on
denotes a token, and its line is that of its first character. -/
structure Stands (text : List Char) (o : Occurrence) : Prop where
  start_lt : o.span.start < o.span.stop
  stop_le : o.span.stop ≤ text.length
  denotes : Denotes (o.span.of text) o.token
  longest : ∀ lexeme t, lexeme <+: text.drop o.span.start → Denotes lexeme t →
    lexeme.length ≤ o.span.stop - o.span.start
  line_eq : o.token.line = 1 + ((text.take o.span.start).count '\n' : Nat)

/-- A text cut into tokens. -/
structure Cut (text : List Char) (cuts : List Occurrence) : Prop where
  /-- The spans follow one another. -/
  ordered : cuts.Pairwise fun o p => o.span.stop ≤ p.span.start
  stands : ∀ o ∈ cuts, Stands text o
  /-- Between the spans lie spaces and comments. -/
  separates : ∀ s ∈ gaps text.length 0 (cuts.map (·.span)), Separates text s
  /-- The line breaks are the stretches of line breaks. -/
  breaks : ∀ s, (∃ o ∈ cuts, o.span = s ∧ o.token.kind = .lineBreak) ↔ BreaksWhole text s

/-- A text that is read from bytes is cut where its bytes are. -/
structure CutInBytes (bytes : Text.Bytes) (cuts : List Occurrence) : Prop where
  ordered : cuts.Pairwise fun o p => (o.span.inBytes bytes).stop ≤ (p.span.inBytes bytes).start
  inside : ∀ o ∈ cuts, (o.span.inBytes bytes).start < (o.span.inBytes bytes).stop ∧
    (o.span.inBytes bytes).stop ≤ bytes.length
  reads : ∀ o ∈ cuts, (Text.decode ((o.span.inBytes bytes).of bytes)).toList =
    o.span.of (Text.decode bytes).toList

/-- A sequence of tokens whose lines are ended. -/
structure Sequence (tokens : List Token) : Prop where
  ends : ∃ before t, tokens = before ++ [t] ∧ t.kind = .lineBreak
  /-- No two line breaks stand next to each other. -/
  apart : tokens.IsChain fun t u => ¬(t.kind = .lineBreak ∧ u.kind = .lineBreak)
  kinds : ∀ t ∈ tokens, t.kind ≠ .endOfInput ∧ t.kind ≠ .invalid
  names : ∀ t ∈ tokens, t.kind = .identifier →
    ∃ c rest, t.text.toList = c :: rest ∧ (Text.isLetter c = true ∨ c = '_') ∧ t.text ∉ reservedWords

/-- What is read of a text: all up to its first null character. -/
def readable (source : String) : List Char :=
  source.toList.takeWhile (· ≠ '\x00')

/-! ## Following the scanner -/

/-- The spans from a place on, in the order in which the scanner comes to them. -/
inductive Cuts (text : List Char) : Nat → List Occurrence → Prop where
  | nil {k : Nat} : k ≤ text.length → Separates text ⟨k, text.length⟩ → Cuts text k []
  | cons {k : Nat} {o : Occurrence} {rest : List Occurrence} : k ≤ o.span.start →
      Separates text ⟨k, o.span.start⟩ → Stands text o →
      (o.token.kind = .lineBreak → Breaks text o.span) → Cuts text o.span.stop rest →
      Cuts text k (o :: rest)

section

variable {text xs ys : List Char} {k : Nat}

theorem of_of_drop (h : text.drop k = xs ++ ys) : Span.of ⟨k, k + xs.length⟩ text = xs := by
  rw [Span.of, h, Nat.add_sub_cancel_left, List.take_left]

theorem drop_of_drop (h : text.drop k = xs ++ ys) : text.drop (k + xs.length) = ys := by
  rw [← List.drop_drop, h, List.drop_left]

theorem le_of_drop (hk : k ≤ text.length) (h : text.drop k = xs ++ ys) :
    k + xs.length ≤ text.length := by
  have hlength := congrArg List.length h
  rw [List.length_drop, List.length_append] at hlength
  omega

theorem count_of_drop (h : text.drop k = xs ++ ys) :
    (text.take (k + xs.length)).count '\n' = (text.take k).count '\n' + xs.count '\n' := by
  rw [List.take_add, h, List.take_left, List.count_append]

end

/-- The tokens that are read from a place on stand from there on. -/
theorem cuts_of_scanFrom {fuel line : Nat} {ended : Bool} {cs : List Char} {tokens : List Token}
    (h : scanFrom fuel line ended cs = .ok tokens) {text : List Char} {k : Nat}
    (hk : k ≤ text.length) (hcs : text.drop k = cs) (hline : line = 1 + (text.take k).count '\n') :
    ∃ cuts, Cuts text k cuts ∧
      (tokens = cuts.map (·.token) ∨
        tokens = cuts.map (·.token) ++
          [{ kind := .lineBreak, text := "\n", line := 1 + (text.count '\n' : Nat) }]) := by
  induction fuel generalizing line ended cs tokens k with
  | zero => cases h
  | succ fuel ih =>
      obtain ⟨gap, hgap, hblank, hbreak⟩ := exists_append_skipSpaces cs
      rw [hgap] at hcs
      have hseparates : Separates text ⟨k, k + gap.length⟩ := by
        rw [Separates, of_of_drop hcs, drop_of_drop hcs]
        exact ⟨hbreak, hblank⟩
      have hcount := count_of_drop hcs
      rw [List.count_eq_zero.mpr hbreak, Nat.add_zero] at hcount
      rw [scanFrom] at h
      cases hskip : skipSpaces cs with
      | nil =>
          rw [hskip, List.append_nil] at hcs
          have hend : k + gap.length = text.length := by
            rw [← hcs, List.length_drop]
            omega
          rw [hend] at hseparates hcount
          rw [List.take_length] at hcount
          rw [hskip] at h
          refine ⟨[], .nil hk hseparates, ?_⟩
          cases ended with
          | true => exact .inl (Except.ok.inj h).symm
          | false =>
              right
              rw [hcount, ← Int.natCast_one, ← Int.natCast_add, ← hline]
              exact (Except.ok.inj h).symm
      | cons c rest =>
          rw [hskip] at h hcs
          dsimp only at h
          cases hnext : beginning line c rest with
          | error cause =>
              rw [hnext] at h
              cases h
          | ok next =>
              rw [hnext] at h
              obtain ⟨following, hfollowing, rfl⟩ := map_cons_eq_ok h
              obtain ⟨more, hrest, hdenotes, htoken, hnextLine⟩ := denotes_of_beginning hnext
              have hplace := le_of_drop hk hcs
              have hdrop := drop_of_drop hcs
              have hdrop' : text.drop (k + gap.length) = (c :: more) ++ next.rest := by
                rw [hdrop, hrest, List.cons_append]
              have hcount' := count_of_drop hdrop'
              obtain ⟨cuts, hcuts, htokens⟩ := ih hfollowing (le_of_drop hplace hdrop')
                (drop_of_drop hdrop') (by rw [hnextLine, hcount', hcount, hline]; omega)
              let o : Occurrence :=
                ⟨⟨k + gap.length, k + gap.length + (c :: more).length⟩, next.token⟩
              have hstands : Stands text o := by
                refine ⟨?_, le_of_drop hplace hdrop', ?_, ?_, ?_⟩
                · exact Nat.lt_add_of_pos_right (Nat.succ_pos _)
                · rw [of_of_drop hdrop']
                  exact hdenotes
                · intro lexeme t hprefix hlexeme
                  rw [hdrop] at hprefix
                  rw [Nat.add_sub_cancel_left]
                  exact hlexeme.length_le_of_prefix hnext hrest hprefix
                · rw [htoken, hcount, hline, Int.natCast_add, Int.natCast_one]
              have hbreaks : o.token.kind = .lineBreak → Breaks text o.span := by
                intro hkind
                obtain rfl : c = '\n' := by
                  by_contra hc
                  exact kind_of_beginning hc hnext hkind
                obtain ⟨blank, hrest', hblank'⟩ := exists_blank hnext
                obtain rfl : more = blank := List.append_cancel_right (hrest.symm.trans hrest')
                refine ⟨hstands.stop_le, more, of_of_drop hdrop', ?_⟩
                rw [drop_of_drop hdrop']
                exact hblank'
              refine ⟨o :: cuts, .cons (Nat.le_add_right _ _) hseparates hstands hbreaks hcuts, ?_⟩
              rcases htokens with rfl | rfl
              · exact .inl rfl
              · exact .inr rfl

/-! ## What is known about the spans -/

section

variable {text : List Char} {k : Nat} {cuts : List Occurrence}

theorem Cuts.stands (h : Cuts text k cuts) : ∀ o ∈ cuts, Stands text o := by
  induction h with
  | nil => simp
  | cons _ _ hstands _ _ ih => exact List.forall_mem_cons.mpr ⟨hstands, ih⟩

theorem Cuts.breaks (h : Cuts text k cuts) :
    ∀ o ∈ cuts, o.token.kind = .lineBreak → Breaks text o.span := by
  induction h with
  | nil => simp
  | cons _ _ _ hbreaks _ ih => exact List.forall_mem_cons.mpr ⟨hbreaks, ih⟩

theorem Cuts.le_start (h : Cuts text k cuts) : ∀ o ∈ cuts, k ≤ o.span.start := by
  induction h with
  | nil => simp
  | cons hk _ hstands _ _ ih =>
      refine List.forall_mem_cons.mpr ⟨hk, fun p hp => ?_⟩
      have hlt := hstands.start_lt
      have hstop := ih p hp
      omega

theorem Cuts.ordered (h : Cuts text k cuts) :
    cuts.Pairwise fun o p => o.span.stop ≤ p.span.start := by
  induction h with
  | nil => exact .nil
  | cons _ _ _ _ hrest ih => exact .cons hrest.le_start ih

theorem Cuts.separates (h : Cuts text k cuts) :
    ∀ s ∈ gaps text.length k (cuts.map (·.span)), Separates text s := by
  induction h with
  | nil _ hseparates => simpa [gaps] using hseparates
  | cons _ hseparates _ _ _ ih => exact List.forall_mem_cons.mpr ⟨hseparates, ih⟩

/-- What stands at a place of a span. -/
theorem mem_of_getElem? {s : Span} {i : Nat} {c : Char} (hstart : s.start ≤ i) (hstop : i < s.stop)
    (h : text[i]? = some c) : c ∈ s.of text := by
  refine List.mem_of_getElem? (i := i - s.start) ?_
  rw [Span.of, List.getElem?_take_of_lt (by omega), List.getElem?_drop, Nat.add_sub_cancel' hstart, h]

/-- Every line break is taken by a token. -/
theorem Cuts.exists_of_break (h : Cuts text k cuts) {i : Nat} (hk : k ≤ i)
    (hi : text[i]? = some '\n') : ∃ o ∈ cuts, o.span.start ≤ i ∧ i < o.span.stop := by
  induction h with
  | nil _ hseparates =>
      obtain ⟨hlt, -⟩ := List.getElem?_eq_some_iff.mp hi
      exact absurd (mem_of_getElem? hk hlt hi) hseparates.1
  | @cons k o rest _ hseparates _ _ _ ih =>
      by_cases hbefore : i < o.span.start
      · exact absurd (mem_of_getElem? hk hbefore hi) hseparates.1
      · by_cases hwithin : i < o.span.stop
        · exact ⟨o, List.mem_cons_self, Nat.le_of_not_lt hbefore, hwithin⟩
        · obtain ⟨p, hp, hplace⟩ := ih (Nat.le_of_not_lt hwithin)
          exact ⟨p, .tail _ hp, hplace⟩

/-- A line break stands in the span of one. -/
theorem Cuts.exists_lineBreak (h : Cuts text k cuts) {i : Nat} (hk : k ≤ i)
    (hi : text[i]? = some '\n') :
    ∃ o ∈ cuts, o.token.kind = .lineBreak ∧ o.span.start ≤ i ∧ i < o.span.stop := by
  obtain ⟨o, ho, hstart, hstop⟩ := h.exists_of_break hk hi
  refine ⟨o, ho, ?_, hstart, hstop⟩
  by_contra hkind
  exact (h.stands o ho).denotes.notMem_break hkind (mem_of_getElem? hstart hstop hi)

/-- Only blanks behind a line break denote one. -/
theorem Denotes.of_lineBreak {lexeme : List Char} {t : Token} (h : Denotes lexeme t)
    (ht : t.kind = .lineBreak) : ∃ blank, lexeme = '\n' :: blank ∧ Blank [] blank := by
  cases h with
  | lineBreak line hblank => exact ⟨_, rfl, hblank⟩
  | symbol line hmem =>
      have hall : ∀ kind ∈ symbols, kind ≠ .lineBreak := by decide
      exact absurd ht (hall _ hmem)
  | reserved line hmem =>
      have hall : ∀ e ∈ Token.reserved, e.2 ≠ .lineBreak := by decide
      exact absurd ht (hall _ hmem)
  | truth | name | number | string => cases ht

theorem Span.of_append_drop {s : Span} (h : s.start ≤ s.stop) :
    s.of text ++ text.drop s.stop = text.drop s.start := by
  have hsplit := List.take_append_drop (s.stop - s.start) (text.drop s.start)
  rwa [List.drop_drop, Nat.add_sub_cancel' h] at hsplit

theorem Span.length_of {s : Span} (h : s.stop ≤ text.length) :
    (s.of text).length = s.stop - s.start := by
  rw [Span.of, List.length_take, List.length_drop]
  omega

theorem Breaks.start_lt {s : Span} (h : Breaks text s) : s.start < s.stop := by
  obtain ⟨hstop, blank, hof, -⟩ := h
  have hlength := Span.length_of hstop
  rw [hof, List.length_cons] at hlength
  omega

theorem Breaks.getElem? {s : Span} (h : Breaks text s) : text[s.start]? = some '\n' := by
  have hdrop : s.of text ++ text.drop s.stop = text.drop s.start := Span.of_append_drop h.start_lt.le
  obtain ⟨-, blank, hof, -⟩ := h
  rw [hof] at hdrop
  rw [← Nat.add_zero s.start, ← List.getElem?_drop, ← hdrop]
  rfl

/-- No stretch of blanks that begins within the span of a line break goes on behind it. -/
theorem Stands.stop_le_of_breaks {o : Occurrence} (h : Stands text o)
    (hkind : o.token.kind = .lineBreak) {s : Span} (hstart : o.span.start ≤ s.start)
    (hstop : s.start < o.span.stop) (hbreaks : Breaks text s) : s.stop ≤ o.span.stop := by
  obtain ⟨blank, hlexeme, hblank⟩ := h.denotes.of_lineBreak hkind
  have hlt := hbreaks.start_lt
  obtain ⟨hend, further, hof, hfurther⟩ := hbreaks
  -- The span of the line break is cut at the place where the stretch begins.
  let before : Span := ⟨o.span.start, s.start⟩
  have hlength : (before.of text).length = s.start - o.span.start :=
    Span.length_of (by simp only [before]; omega)
  have hbefore : before.of text ++ text.drop s.start = text.drop o.span.start :=
    Span.of_append_drop hstart
  have hwhole : o.span.of text ++ text.drop o.span.stop = text.drop o.span.start :=
    Span.of_append_drop h.start_lt.le
  have hbehind : s.of text ++ text.drop s.stop = text.drop s.start := Span.of_append_drop hlt.le
  obtain ⟨within, hcut⟩ : ∃ within, o.span.of text = before.of text ++ '\n' :: within := by
    have hlonger := Span.length_of h.stop_le
    rcases List.append_eq_append_iff.mp (hbefore.trans hwhole.symm) with ⟨zs, hzs, hrest⟩ | ⟨zs, hzs, -⟩
    · cases zs with
      | nil =>
          rw [hzs, List.append_nil] at hlonger
          omega
      | cons c within =>
          rw [← hbehind, hof] at hrest
          obtain ⟨rfl, -⟩ := List.cons.inj hrest
          exact ⟨within, hzs⟩
    · rw [hzs, List.length_append] at hlength
      omega
  -- Together with what stands before it the stretch denotes a line break, too.
  have hdenotes : Denotes (before.of text ++ '\n' :: further)
      { kind := .lineBreak, text := "\n", line := 0 } := by
    rw [hlexeme] at hcut
    cases hbefore' : before.of text with
    | nil => exact .lineBreak 0 hfurther.alone
    | cons c cs =>
        rw [hbefore', List.cons_append] at hcut
        obtain ⟨rfl, hcs⟩ := List.cons.inj hcut
        rw [hcs] at hblank
        refine .lineBreak 0 (Blank.append ?_ (.lineBreak hfurther.alone))
        exact hblank.before_break _
  have hlongest := h.longest _ _ ⟨text.drop s.stop, ?_⟩ hdenotes
  · rw [List.length_append, hlength, ← hof, Span.length_of hend] at hlongest
    omega
  · rw [List.append_assoc, ← hof, hbehind, hbefore]

theorem Cuts.eq_of_meet {o p : Occurrence} (h : Cuts text k cuts) (ho : o ∈ cuts) (hp : p ∈ cuts)
    (hstart : o.span.start < p.span.stop) (hstop : p.span.start < o.span.stop) : o = p := by
  induction h with
  | nil => cases ho
  | cons _ _ _ _ hrest ih =>
      rcases List.mem_cons.mp ho with heq | ho
      · rcases List.mem_cons.mp hp with heq' | hp
        · exact heq.trans heq'.symm
        · exact absurd (heq ▸ hstop) (Nat.not_lt.mpr (hrest.le_start p hp))
      · rcases List.mem_cons.mp hp with heq' | hp
        · exact absurd (heq' ▸ hstart) (Nat.not_lt.mpr (hrest.le_start o ho))
        · exact ih ho hp

end

/-- The line breaks among the tokens are the whole stretches of line breaks. -/
theorem Cuts.breaksWhole_iff {text : List Char} {cuts : List Occurrence} (h : Cuts text 0 cuts)
    (s : Span) : (∃ o ∈ cuts, o.span = s ∧ o.token.kind = .lineBreak) ↔ BreaksWhole text s := by
  constructor
  · rintro ⟨o, ho, rfl, hkind⟩
    refine ⟨h.breaks o ho hkind, ?_⟩
    intro s' hstart hstop hbreaks
    obtain ⟨p, hp, hpkind, hpstart, hpstop⟩ := h.exists_lineBreak (Nat.zero_le _) hbreaks.getElem?
    have hend := (h.stands p hp).stop_le_of_breaks hpkind hpstart hpstop hbreaks
    have hlt := (h.stands o ho).start_lt
    obtain rfl := h.eq_of_meet hp ho (by omega) (by omega)
    have hsame : s'.start = p.span.start ∧ s'.stop = p.span.stop := by omega
    cases s'
    exact Span.mk.injEq .. ▸ hsame
  · rintro ⟨hbreaks, hwhole⟩
    obtain ⟨o, ho, hkind, hstart, hstop⟩ := h.exists_lineBreak (Nat.zero_le _) hbreaks.getElem?
    have hend := (h.stands o ho).stop_le_of_breaks hkind hstart hstop hbreaks
    exact ⟨o, ho, hwhole o.span hstart hend (h.breaks o ho hkind), hkind⟩

/-! ## What is known about the tokens -/

theorem Denotes.kind_ne {lexeme : List Char} {t : Token} (h : Denotes lexeme t) :
    t.kind ≠ .endOfInput ∧ t.kind ≠ .invalid := by
  cases h with
  | symbol line hmem =>
      have hall : ∀ kind ∈ symbols, kind ≠ .endOfInput ∧ kind ≠ .invalid := by decide
      exact hall _ hmem
  | reserved line hmem =>
      have hall : ∀ e ∈ Token.reserved, e.2 ≠ .endOfInput ∧ e.2 ≠ .invalid := by decide
      exact hall _ hmem
  | lineBreak | truth | name | number | string => exact ⟨nofun, nofun⟩

/-- Only names denote identifiers, and they are their texts. -/
theorem Denotes.exists_name {lexeme : List Char} {t : Token} (h : Denotes lexeme t)
    (ht : t.kind = .identifier) :
    ∃ c rest, lexeme = c :: rest ∧ t.text.toList = c :: rest ∧ isNameStart c = true ∧
      (∀ d ∈ rest, isNameChar d = true) ∧ t.text ∉ reservedWords := by
  cases h with
  | @name c rest line hstart hrest hword =>
      exact ⟨c, rest, rfl, String.toList_ofList, hstart, hrest, hword⟩
  | symbol line hmem =>
      have hall : ∀ kind ∈ symbols, kind ≠ .identifier := by decide
      exact absurd ht (hall _ hmem)
  | reserved line hmem => exact absurd ht (reserved_kinds _ hmem).2
  | lineBreak | truth | number | string => cases ht

theorem Denotes.of_identifier {lexeme : List Char} {t : Token} (h : Denotes lexeme t)
    (ht : t.kind = .identifier) :
    ∃ c rest, t.text.toList = c :: rest ∧ (Text.isLetter c = true ∨ c = '_') ∧
      t.text ∉ reservedWords := by
  obtain ⟨c, rest, -, htext, hstart, -, hword⟩ := h.exists_name ht
  exact ⟨c, rest, htext, by simpa [isNameStart] using hstart, hword⟩

/-- After a line break no other one is read. -/
theorem isChain_of_scanFrom {fuel line : Nat} {ended : Bool} {cs : List Char} {tokens : List Token}
    (h : scanFrom fuel line ended cs = .ok tokens)
    (hended : ended = true → ∀ rest, skipSpaces cs ≠ '\n' :: rest) :
    tokens.IsChain (fun t u => ¬(t.kind = .lineBreak ∧ u.kind = .lineBreak)) ∧
      (ended = true → ∀ t ∈ tokens.head?, t.kind ≠ .lineBreak) := by
  induction fuel generalizing line ended cs tokens with
  | zero => cases h
  | succ fuel ih =>
      rw [scanFrom] at h
      cases hskip : skipSpaces cs with
      | nil =>
          rw [hskip] at h
          cases ended <;> cases h <;> simp
      | cons c rest =>
          rw [hskip] at h hended
          dsimp only at h
          cases hnext : beginning line c rest with
          | error cause =>
              rw [hnext] at h
              cases h
          | ok next =>
              rw [hnext] at h
              obtain ⟨following, hfollowing, rfl⟩ := map_cons_eq_ok h
              have hbehind : decide (next.token.kind = .lineBreak) = true →
                  ∀ more, skipSpaces next.rest ≠ '\n' :: more := by
                intro hkind more hmore
                obtain rfl : c = '\n' := by
                  by_contra hc
                  exact kind_of_beginning hc hnext (of_decide_eq_true hkind)
                simp only [beginning, if_true] at hnext
                cases hnext
                dsimp only at hmore
                rw [skipSpaces_skipLines] at hmore
                exact (head_skipLines hmore).2.2 rfl
              obtain ⟨hchain, hhead⟩ := ih hfollowing hbehind
              constructor
              · refine List.isChain_cons.mpr ⟨?_, hchain⟩
                rintro u hu ⟨ht, hu'⟩
                exact hhead (decide_eq_true ht) u hu hu'
              · intro htrue t ht
                obtain rfl : next.token = t := Option.some.inj ht
                exact kind_of_beginning (fun hc => hended htrue rest (hc ▸ rfl)) hnext

/-- The spans of characters are spans of bytes. -/
theorem Cuts.inBytes {bytes : Text.Bytes} {text : List Char} {cuts : List Occurrence}
    (h : Cuts text 0 cuts) (htext : text <+: (Text.decode bytes).toList) : CutInBytes bytes cuts := by
  have hstop : ∀ o ∈ cuts, o.span.stop ≤ (Text.decode bytes).toList.length :=
    fun o ho => Nat.le_trans (h.stands o ho).stop_le htext.length_le
  refine ⟨?_, ?_, ?_⟩
  · exact h.ordered.imp fun hle => Text.offset_le_offset hle bytes
  · intro o ho
    exact ⟨Text.offset_lt_offset (h.stands o ho).start_lt (hstop o ho), Text.offset_le _ _⟩
  · intro o ho
    exact Text.decode_between (h.stands o ho).start_lt.le bytes

/-- A text is cut into tokens that stand in it one after another, each on the longest stretch that
denotes a token, with spaces and comments between them. -/
theorem scan_faithful {bytes : Text.Bytes} {tokens : List Token}
    (h : scan (Text.decode bytes) = .ok tokens) :
    Sequence tokens ∧
    ∃ cuts, Cut (readable (Text.decode bytes)) cuts ∧ CutInBytes bytes cuts ∧
      (tokens = cuts.map (·.token) ∨
        tokens = cuts.map (·.token) ++
          [{ kind := .lineBreak, text := "\n",
             line := 1 + ((readable (Text.decode bytes)).count '\n' : Nat) }]) := by
  obtain ⟨-, hne, hlast⟩ := proper_of_scan h
  obtain ⟨cuts, hcuts, htokens⟩ := cuts_of_scanFrom h (Nat.zero_le _) rfl rfl
  have hmem : ∀ t ∈ tokens, t.kind = .lineBreak ∨ ∃ lexeme, Denotes lexeme t := by
    have hcut : ∀ t ∈ cuts.map (·.token), ∃ lexeme, Denotes lexeme t :=
      List.forall_mem_map.mpr fun o ho => ⟨_, (hcuts.stands o ho).denotes⟩
    intro t ht
    rcases htokens with rfl | rfl
    · exact .inr (hcut t ht)
    · rcases List.mem_append.mp ht with ht | ht
      · exact .inr (hcut t ht)
      · exact .inl (List.mem_singleton.mp ht ▸ rfl)
  refine ⟨⟨?_, (isChain_of_scanFrom h nofun).1, ?_, ?_⟩, cuts,
    ⟨hcuts.ordered, hcuts.stands, hcuts.separates, hcuts.breaksWhole_iff⟩,
    hcuts.inBytes (List.takeWhile_prefix _), htokens⟩
  · refine ⟨tokens.dropLast, tokens.getLast hne, (List.dropLast_append_getLast hne).symm, ?_⟩
    exact hlast _ (List.getLast?_eq_some_getLast hne)
  · intro t ht
    rcases hmem t ht with hkind | ⟨lexeme, hdenotes⟩
    · exact hkind ▸ ⟨nofun, nofun⟩
    · exact hdenotes.kind_ne
  · intro t ht hkind
    rcases hmem t ht with hbreak | ⟨lexeme, hdenotes⟩
    · rw [hbreak] at hkind
      cases hkind
    · exact hdenotes.of_identifier hkind

/-- A comment with a byte that begins no character, a blank line behind it, and a last line without
end. -/
def brokenByte : Text.Bytes :=
  [0x61, 0x3c, 0x3d, 0x62, 0x20, 0x23, 0xff, 0x0a, 0x0d, 0x0a, 0x63]

theorem scan_faithful_brokenByte :
    ∃ tokens, scan (Text.decode brokenByte) = .ok tokens ∧ Sequence tokens ∧
      ∃ cuts, Cut (readable (Text.decode brokenByte)) cuts ∧ CutInBytes brokenByte cuts ∧
        (tokens = cuts.map (·.token) ∨
          tokens = cuts.map (·.token) ++
            [{ kind := .lineBreak, text := "\n",
               line := 1 + ((readable (Text.decode brokenByte)).count '\n' : Nat) }]) := by
  refine ⟨_, rfl, ?_⟩
  exact scan_faithful rfl

end LineScript.Token
