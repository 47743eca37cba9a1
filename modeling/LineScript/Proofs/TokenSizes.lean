/-
# The sizes of tokens

Every token takes the characters it is made of from the text: a name or the content of a string
literal is no longer than the text, and lines are counted by the line breaks that were passed.
So with `n` bytes to read from a line on, no text of a token has more than `n` bytes and no
token lies more than `n` lines further down. A number never begins with a sign, which is why no
token stands for the negative zero.
-/

import LineScript.Proofs.Doubles
import LineScript.Token.Lexer

namespace LineScript.Number

/-! ## Numbers without a sign -/

theorem zero_ne : (0 : Float) ≠ -0 := by decide

theorem tenTo_ne_zero (n : Nat) : tenTo n ≠ 0 := by
  simp [tenTo]

theorem Mantissa.ne_of_round? {base : Base} {m : Mantissa} {exponent : Int} {x : Float}
    (h : m.round? base false exponent = Option.some x) : x ≠ -0 := by
  unfold round? at h
  cases base with
  | ten =>
      dsimp only at h
      split at h
      · exact Dyadic.nearest?_false_ne Nat.one_ne_zero h
      · exact Dyadic.nearest?_false_ne (tenTo_ne_zero _) h
  | sixteen =>
      dsimp only at h
      split at h
      · exact Dyadic.nearest?_false_ne Nat.one_ne_zero h
      · exact Dyadic.nearest?_false_ne (by rw [twoTo_eq]; exact (Nat.two_pow_pos _).ne') h

theorem ne_of_unsigned? {cs : List Char} {x : Float} (h : unsigned? false cs = some x) : x ≠ -0 := by
  unfold unsigned? at h
  split at h
  rename_i base body _
  split at h
  rename_i m rest _
  split at h
  · cases h
  split at h
  · cases h
  split at h
  · split at h
    · exact Mantissa.ne_of_round? h
    · cases h
  · split at h
    · split at h
      · exact Mantissa.ne_of_round? h
      · cases h
    · cases h

theorem ne_of_named? {signed : Bool} {cs : List Char} {x : Float}
    (h : named? signed false cs = some x) : x ≠ -0 := by
  unfold named? at h
  dsimp only at h
  split at h
  · cases h
    decide
  split at h
  · cases h
    decide
  · cases h

/-- A text without a minus in front does not stand for the negative zero. -/
theorem ne_of_read? {s : String} {x : Float} (hsign : ∀ rest, s.toList ≠ '-' :: rest)
    (h : read? s = some x) : x ≠ -0 := by
  have hplain : ∀ (signed : Bool) (cs : List Char),
      named? signed false cs = some x ∨ unsigned? false cs = some x → x ≠ -0 := by
    rintro signed cs (hnamed | hunsigned)
    · exact ne_of_named? hnamed
    · exact ne_of_unsigned? hunsigned
  unfold read? at h
  split at h
  rename_i signed negative cs heq
  have hread : named? signed negative cs = some x ∨ unsigned? negative cs = some x := by
    split at h
    · rename_i hnamed
      exact .inl (hnamed.trans h)
    · exact .inr h
  split at heq
  · cases heq
    exact hplain _ _ hread
  · rename_i rest hlist
    exact absurd hlist (hsign rest)
  · cases heq
    exact hplain _ _ hread

end LineScript.Number

namespace LineScript.Token

open String (utf8Len)

/-! ## What one token takes -/

theorem utf8Len_skipSpaces_le (cs : List Char) : utf8Len (skipSpaces cs) ≤ utf8Len cs := by
  induction cs with
  | nil => exact Nat.le_refl _
  | cons c rest ih =>
      unfold skipSpaces
      rw [String.utf8Len_cons]
      split
      · exact Nat.le_add_right_of_le ih
      split
      · exact Nat.le_add_right_of_le (String.utf8Len_le_of_suffix (List.dropWhile_suffix _))
      · exact Nat.le_refl _

/-- Every line that is counted is a line break that was passed. -/
theorem skipLines_le (inComment : Bool) (line : Nat) (cs : List Char) :
    (skipLines inComment line cs).1 + utf8Len (skipLines inComment line cs).2 ≤
      line + utf8Len cs := by
  induction cs generalizing inComment line with
  | nil => exact Nat.le_refl _
  | cons c rest ih =>
      have hpos := c.utf8Size_pos
      unfold skipLines
      rw [String.utf8Len_cons]
      split
      · have := ih false (line + 1)
        omega
      split
      · have := ih true line
        omega
      split
      · have := ih false line
        omega
      split
      · have := ih true line
        omega
      · exact Nat.le_refl _

/-- An escape is no longer than the two characters it is written with. -/
theorem utf8Size_escaped {c e : Char} (h : escaped? c = some e) :
    e.utf8Size ≤ '\\'.utf8Size + c.utf8Size := by
  have hpos := c.utf8Size_pos
  unfold escaped? at h
  split at h
  · cases h
    exact Nat.le_add_right_of_le (by decide)
  split at h
  · cases h
    exact Nat.le_add_right_of_le (by decide)
  split at h
  · cases h
    exact Nat.le_add_right_of_le (by decide)
  split at h
  · cases h
    exact Nat.le_add_left _ _
  · cases h

theorem utf8Len_stringBody_le {quote : Char} {cs content rest : List Char}
    (h : stringBody quote cs = .ok (content, rest)) :
    utf8Len content + utf8Len rest ≤ utf8Len cs := by
  fun_induction stringBody quote cs generalizing content rest with
  | case1 => cases h
  | case2 => cases h
  | case3 c cs e he ih =>
      cases hbody : stringBody quote cs with
      | error cause =>
          rw [hbody] at h
          cases h
      | ok r =>
          rw [hbody] at h
          cases h
          have hrest := ih hbody
          have hescape := utf8Size_escaped he
          simp only [String.utf8Len_cons]
          omega
  | case4 => cases h
  | case5 cs =>
      cases h
      simp only [String.utf8Len_cons, String.utf8Len_nil]
      omega
  | case6 => cases h
  | case7 c cs _ _ _ _ ih =>
      cases hbody : stringBody quote cs with
      | error cause =>
          rw [hbody] at h
          cases h
      | ok r =>
          rw [hbody] at h
          cases h
          have hrest := ih hbody
          simp only [String.utf8Len_cons]
          omega

theorem numberBody_suffix (cs : List Char) : (numberBody cs).2 <:+ cs := by
  have hdrop : List.dropWhile isDigit cs <:+ cs := List.dropWhile_suffix _
  unfold numberBody
  dsimp only
  split
  · rename_i d more heq
    rw [heq] at hdrop
    split
    · exact (List.dropWhile_suffix _).trans ((List.suffix_cons _ _).trans hdrop)
    · exact hdrop
  · exact hdrop

/-- A number begins with its first digit. -/
theorem numberBody_eq_cons {c : Char} (rest : List Char) (h : isDigit c = true) :
    ∃ more, (numberBody (c :: rest)).1 = c :: more := by
  unfold numberBody
  dsimp only
  rw [List.takeWhile_cons_of_pos h]
  split
  · split
    · exact ⟨_, rfl⟩
    · exact ⟨_, rfl⟩
  · exact ⟨_, rfl⟩

theorem comparison_le {bound line : Nat} {alone together : TokenKind} (rest : List Char)
    (h : line + utf8Len rest ≤ bound) :
    (comparison line alone together rest).line +
      utf8Len (comparison line alone together rest).rest ≤ bound := by
  unfold comparison
  split
  · exact Nat.le_trans (Nat.add_le_add_left (Nat.le_add_right _ _) _) h
  · exact h

/-! ## The bounds of tokens -/

/-- A token within the given bound: its line, its name and its string; and no negative zero. -/
structure Bounded (bound : Nat) (t : Token) : Prop where
  line_nonneg : 0 ≤ t.line
  line_le : t.line ≤ bound
  name : t.kind = .identifier → t.text.utf8ByteSize ≤ bound
  string : t.value.string.utf8ByteSize ≤ bound
  number : t.value.number ≠ -0

/-- A token that stands for no constant and is no name. -/
theorem bounded_of_symbol {bound line : Nat} {kind : TokenKind} (text : String)
    (hkind : kind ≠ .identifier) (hline : line ≤ bound) :
    Bounded bound { kind := kind, text := text, line := line } :=
  ⟨Int.natCast_nonneg _, Int.ofNat_le.mpr hline, fun h => absurd h hkind, Nat.zero_le _,
    Number.zero_ne⟩

theorem symbol?_ne_identifier {c : Char} {kind : TokenKind} (h : symbol? c = some kind) :
    kind ≠ .identifier := by
  unfold symbol? at h
  split at h <;> cases h <;> nofun

theorem bounded_comparison {bound line : Nat} {alone together : TokenKind} (rest : List Char)
    (halone : alone ≠ .identifier) (htogether : together ≠ .identifier) (hline : line ≤ bound) :
    (comparison line alone together rest).token.Bounded bound := by
  unfold comparison
  split
  · exact bounded_of_symbol _ htogether hline
  · exact bounded_of_symbol _ halone hline

theorem bounded_word {bound line : Nat} {text : String} (hline : line ≤ bound)
    (htext : text.utf8ByteSize ≤ bound) : (word text line).Bounded bound := by
  unfold word
  split
  · exact ⟨Int.natCast_nonneg _, Int.ofNat_le.mpr hline, nofun, Nat.zero_le _, Number.zero_ne⟩
  · exact ⟨Int.natCast_nonneg _, Int.ofNat_le.mpr hline, fun _ => htext, Nat.zero_le _, Number.zero_ne⟩
  · exact ⟨Int.natCast_nonneg _, Int.ofNat_le.mpr hline, fun _ => htext, Nat.zero_le _, Number.zero_ne⟩

/-- A token lies within what was to be read, and no more is to be read behind it. -/
theorem bounded_beginning {bound line : Nat} {c : Char} {rest : List Char} {next : Scanned}
    (h : beginning line c rest = .ok next) (hbound : line + utf8Len (c :: rest) ≤ bound) :
    next.token.Bounded bound ∧ next.line + utf8Len next.rest ≤ bound := by
  have hpos := c.utf8Size_pos
  rw [String.utf8Len_cons] at hbound
  have hline : line ≤ bound := by omega
  have hrest : line + utf8Len rest ≤ bound := by omega
  unfold beginning at h
  split at h
  · cases h
    have hlines := skipLines_le false (line + 1) rest
    exact ⟨bounded_of_symbol _ (by nofun) hline, by dsimp only; omega⟩
  split at h
  · rename_i kind hsymbol
    cases h
    exact ⟨bounded_of_symbol _ (symbol?_ne_identifier hsymbol) hline, hrest⟩
  split at h
  · cases h
    exact ⟨bounded_comparison rest (by nofun) (by nofun) hline, comparison_le rest hrest⟩
  split at h
  · cases h
    exact ⟨bounded_comparison rest (by nofun) (by nofun) hline, comparison_le rest hrest⟩
  split at h
  · split at h
    · cases h
      exact ⟨bounded_of_symbol _ (by nofun) hline,
        Nat.le_trans (Nat.add_le_add_left (Nat.le_add_right _ _) _) hrest⟩
    · cases h
  split at h
  · cases hbody : stringBody c rest with
    | error cause =>
        rw [hbody] at h
        cases h
    | ok r =>
        rw [hbody] at h
        cases h
        have hlength := utf8Len_stringBody_le hbody
        refine ⟨⟨Int.natCast_nonneg _, Int.ofNat_le.mpr hline, nofun, ?_, Number.zero_ne⟩, ?_⟩
        · change (String.ofList r.1).utf8ByteSize ≤ bound
          rw [String.utf8ByteSize_ofList]
          omega
        · change line + utf8Len r.2 ≤ bound
          omega
  split at h
  · rename_i hdigit
    dsimp only at h
    split at h
    · rename_i x hread
      cases h
      obtain ⟨more, hmore⟩ := numberBody_eq_cons rest hdigit
      refine ⟨⟨Int.natCast_nonneg _, Int.ofNat_le.mpr hline, nofun, Nat.zero_le _, ?_⟩, ?_⟩
      · refine Number.ne_of_read? ?_ hread
        intro tail htail
        rw [String.toList_ofList, hmore] at htail
        cases htail
        revert hdigit
        decide
      · have := String.utf8Len_le_of_suffix (numberBody_suffix (c :: rest))
        rw [String.utf8Len_cons] at this
        dsimp only
        omega
    · cases h
  split at h
  · cases h
    have hname := String.utf8Len_le_of_prefix (List.takeWhile_prefix isNameChar (l := rest))
    have hbehind := String.utf8Len_le_of_suffix (List.dropWhile_suffix isNameChar (l := rest))
    refine ⟨bounded_word hline ?_, ?_⟩
    · rw [String.utf8ByteSize_ofList, String.utf8Len_cons]
      omega
    · dsimp only
      omega
  · cases h

theorem bounded_of_scanFrom {bound fuel line : Nat} {ended : Bool} {cs : List Char}
    {tokens : List Token} (h : scanFrom fuel line ended cs = .ok tokens)
    (hbound : line + utf8Len cs ≤ bound) : ∀ t ∈ tokens, t.Bounded bound := by
  induction fuel generalizing line ended cs tokens with
  | zero => cases h
  | succ fuel ih =>
      have hskip := utf8Len_skipSpaces_le cs
      unfold scanFrom at h
      split at h
      · cases h
        split
        · exact List.forall_mem_nil _
        · exact List.forall_mem_singleton.mpr (bounded_of_symbol _ (by nofun) (by omega))
      · rename_i c rest hcons
        rw [hcons] at hskip
        split at h
        · cases h
        · rename_i next hnext
          obtain ⟨htoken, hrest⟩ := bounded_beginning hnext (by omega : _ ≤ bound)
          cases hscan : scanFrom fuel next.line (next.token.kind = .lineBreak) next.rest with
          | error e =>
              rw [hscan] at h
              cases h
          | ok more =>
              rw [hscan] at h
              cases h
              exact List.forall_mem_cons.mpr ⟨htoken, ih hscan hrest⟩

/-- The tokens of a text are bounded by its size in bytes. -/
theorem bounded_of_scan {source : String} {tokens : List Token} (h : scan source = .ok tokens) :
    ∀ t ∈ tokens, t.Bounded (source.utf8ByteSize + 1) := by
  refine bounded_of_scanFrom h ?_
  have hprefix := String.utf8Len_le_of_prefix
    (List.takeWhile_prefix (fun c => decide (c ≠ '\x00')) (l := source.toList))
  rw [← String.utf8ByteSize_ofList source.toList, String.ofList_toList] at hprefix
  omega

end LineScript.Token
