/-
# The word at the cursor

The editor cuts the word at a place out of the bytes of a line, and knows nothing of tokens. What it finds is
compared with the tokens here, place by place.

Around an identifier stand only characters of a single byte that belong to no word, since a token is the
longest one from its beginning and a comment is followed by a line break. So what is found at a place of an
identifier depends on the bytes of the identifier alone. All of it is found, and the part before the place is
the part before it, when every byte, taken for the character of that number, belongs to a word. That is so in
ASCII; of any other letter only some bytes are of this kind.

Outside of strings and comments nothing is found at a place that touches no identifier, no reserved word and
no number.
-/

import LineScript.Editor.Word
import LineScript.Proofs.EncodedTexts
import LineScript.Proofs.Signatures
import LineScript.Proofs.TokenSpans

namespace LineScript.Text

/-! ## Bytes of characters -/

/-- The bytes of characters in a row. -/
def encodeChars (cs : List Char) : Bytes := cs.flatMap String.utf8EncodeChar

theorem encodeChars_append (cs ds : List Char) :
    encodeChars (cs ++ ds) = encodeChars cs ++ encodeChars ds := List.flatMap_append

/-- A character of a single byte is the byte of the same number. -/
theorem encodeChars_ascii {c : Char} (h : c.toNat < 0x80) : encodeChars [c] = [UInt8.ofNat c.toNat] := by
  have hsmall : c.val.toNat ≤ 0x7f := Nat.le_of_lt_succ h
  rw [encodeChars, List.flatMap_singleton, String.utf8EncodeChar]
  rw [if_pos hsmall]
  rfl

/-- In an encoded text a character begins behind the bytes of those before it. -/
theorem offset_encodeChars (i : Nat) (cs : List Char) :
    offset i (encodeChars cs) = (encodeChars (cs.take i)).length := by
  induction i generalizing cs with
  | zero => rfl
  | succ i ih =>
      cases cs with
      | nil => exact Nat.le_zero.mp (offset_le _ _)
      | cons c cs =>
          obtain ⟨b, further, hbytes, hleading⟩ := leading?_utf8EncodeChar c (encodeChars cs)
          have hcons : ∀ ds, encodeChars (c :: ds) = b :: (further ++ encodeChars ds) := fun ds => by
            rw [encodeChars, List.flatMap_cons, hbytes]
            rfl
          rw [List.take_succ_cons, hcons, hcons, offset, width_of_leading? hleading,
            List.drop_succ_cons, List.drop_left, ih, List.length_cons, List.length_append]
          omega

theorem length_encodeChars_pos (c : Char) (cs : List Char) : 0 < (encodeChars (c :: cs)).length := by
  obtain ⟨b, further, hbytes, -⟩ := leading?_utf8EncodeChar c []
  rw [encodeChars, List.flatMap_cons, hbytes]
  exact Nat.succ_pos _

/-- A byte is one of the bytes of a character. -/
theorem exists_char_at {cs : List Char} {n : Nat} (h : n < (encodeChars cs).length) :
    ∃ i c, cs[i]? = some c ∧ (encodeChars (cs.take i)).length ≤ n ∧
      n < (encodeChars (cs.take i)).length + (encodeChars [c]).length := by
  induction cs generalizing n with
  | nil => cases h
  | cons c cs ih =>
      rw [← List.singleton_append, encodeChars_append, List.length_append] at h
      by_cases hfirst : n < (encodeChars [c]).length
      · exact ⟨0, c, rfl, Nat.zero_le _, by rwa [List.take_zero, encodeChars, List.flatMap_nil,
          List.length_nil, Nat.zero_add]⟩
      · obtain ⟨m, rfl⟩ := Nat.exists_eq_add_of_le (Nat.le_of_not_lt hfirst)
        obtain ⟨i, d, hd, hle, hlt⟩ := ih (Nat.lt_of_add_lt_add_left h)
        have hlength : (encodeChars ((c :: cs).take (i + 1))).length =
            (encodeChars [c]).length + (encodeChars (cs.take i)).length := by
          rw [List.take_succ_cons, ← List.singleton_append, encodeChars_append, List.length_append]
        refine ⟨i + 1, d, hd, ?_, ?_⟩ <;> rw [hlength] <;> omega

/-- Further characters have further bytes. -/
theorem length_encodeChars_take_lt {cs : List Char} {i j : Nat} (hij : i < j) (hj : j ≤ cs.length) :
    (encodeChars (cs.take i)).length < (encodeChars (cs.take j)).length := by
  obtain ⟨n, rfl⟩ := Nat.exists_eq_add_of_lt hij
  have hdrop : (cs.drop i).take (n + 1) = cs[i] :: (cs.drop (i + 1)).take n := by
    rw [List.drop_eq_getElem_cons (by omega), List.take_succ_cons]
  have hpos := length_encodeChars_pos cs[i] ((cs.drop (i + 1)).take n)
  rw [Nat.add_assoc, List.take_add, encodeChars_append, List.length_append, hdrop]
  omega

/-! ## Lines -/

/-- A text either has no separator, or what stands before the first one is its first piece. -/
theorem splitOnChar_cases (separator : Char) (cs : List Char) :
    splitOnChar separator cs = [cs] ∨
      ∃ piece rest, cs = piece ++ separator :: rest ∧
        splitOnChar separator cs = piece :: splitOnChar separator rest := by
  by_cases hmem : separator ∈ cs
  · obtain ⟨piece, rest, rfl, hpiece⟩ := List.eq_append_cons_of_mem hmem
    exact .inr ⟨piece, rest, rfl, splitOnChar_append hpiece rest⟩
  · exact .inl (splitOnChar_of_not_mem hmem)

/-- A piece with what stands before and behind it. -/
theorem exists_around_piece {separator : Char} {cs piece : List Char} {i : Nat}
    (h : (splitOnChar separator cs)[i]? = some piece) :
    ∃ before after, cs = before ++ (piece ++ after) ∧
      before = ((splitOnChar separator cs).take i).flatMap (· ++ [separator]) ∧
      (after = [] ∨ ∃ rest, after = separator :: rest) := by
  induction i generalizing cs with
  | zero =>
      rcases splitOnChar_cases separator cs with hall | ⟨first, rest, rfl, hfirst⟩
      · rw [hall] at h
        cases h
        exact ⟨[], [], (List.append_nil _).symm, rfl, .inl rfl⟩
      · rw [hfirst] at h
        cases h
        exact ⟨[], _, rfl, rfl, .inr ⟨rest, rfl⟩⟩
  | succ i ih =>
      rcases splitOnChar_cases separator cs with hall | ⟨first, rest, rfl, hfirst⟩
      · rw [hall] at h
        cases h
      · rw [hfirst, List.getElem?_cons_succ] at h
        obtain ⟨before, after, hrest, hbefore, hafter⟩ := ih h
        refine ⟨first ++ separator :: before, after, ?_, ?_, hafter⟩
        · rw [hrest, List.append_assoc, List.cons_append]
        · rw [hfirst, List.take_succ_cons, List.flatMap_cons, ← hbefore, List.append_assoc]
          rfl

end LineScript.Text

namespace LineScript.Editor

open LineScript.Text (Bytes encodeChars)

/-! ## Words in bytes -/

/-- A character of a single byte that belongs to no word. -/
def Silent (c : Char) : Prop := c.toNat < 0x80 ∧ isWordChar c = false

instance (c : Char) : Decidable (Silent c) :=
  inferInstanceAs (Decidable (c.toNat < 0x80 ∧ isWordChar c = false))

theorem Silent.isWordByte {c : Char} (h : Silent c) : isWordByte (UInt8.ofNat c.toNat) = false := by
  rw [Editor.isWordByte, Text.toNat_byte (by have := h.1; omega), Char.ofNat_toNat]
  exact h.2

/-- Nothing behind a byte that belongs to no word counts. -/
theorem takeWhile_append_of_head {α : Type} {p : α → Bool} {ys : List α}
    (h : ∀ y ∈ ys.head?, p y = false) (xs : List α) :
    (xs ++ ys).takeWhile p = xs.takeWhile p := by
  induction xs with
  | nil =>
      cases ys with
      | nil => rfl
      | cons y ys => exact List.takeWhile_cons_of_neg (by simp [h y rfl])
  | cons x xs ih =>
      rw [List.cons_append, List.takeWhile_cons, List.takeWhile_cons, ih]

/-- Nothing before a byte that belongs to no word counts. -/
theorem trailingWord_append_of_last {xs : Bytes} (h : ∀ x ∈ xs.getLast?, isWordByte x = false)
    (ys : Bytes) : trailingWord (xs ++ ys) = trailingWord ys := by
  unfold trailingWord
  rw [List.reverse_append, takeWhile_append_of_head]
  rwa [List.head?_reverse]

/-- The bytes behind a silent character. -/
theorem trailingWord_behind {before : List Char} (h : ∀ c ∈ before.getLast?, Silent c) (ys : Bytes) :
    trailingWord (encodeChars before ++ ys) = trailingWord ys := by
  refine trailingWord_append_of_last ?_ ys
  rcases List.eq_nil_or_concat before with rfl | ⟨cs, c, rfl⟩
  · nofun
  · have hc : Silent c := h c (by simp)
    rw [List.concat_eq_append, Text.encodeChars_append, Text.encodeChars_ascii hc.1]
    simpa using hc.isWordByte

/-- The bytes before a silent character. -/
theorem takeWhile_before {after : List Char} (h : ∀ c ∈ after.head?, Silent c) (xs : Bytes) :
    (xs ++ encodeChars after).takeWhile isWordByte = xs.takeWhile isWordByte := by
  refine takeWhile_append_of_head ?_ xs
  cases after with
  | nil => nofun
  | cons c cs =>
      have hc : Silent c := h c rfl
      rw [← List.singleton_append, Text.encodeChars_append, Text.encodeChars_ascii hc.1]
      simpa using hc.isWordByte

theorem trailingWord_eq_self_iff (xs : Bytes) :
    trailingWord xs = xs ↔ ∀ x ∈ xs, isWordByte x = true := by
  unfold trailingWord
  rw [List.reverse_eq_iff, List.takeWhile_eq_self_iff]
  simp

theorem trailingWord_suffix (xs : Bytes) : trailingWord xs <:+ xs := by
  unfold trailingWord
  rw [← List.reverse_prefix, List.reverse_reverse]
  exact List.takeWhile_prefix _

/-- Two parts of bytes are the whole if they are all of them. -/
theorem trailingWord_append_takeWhile_iff (xs ys : Bytes) :
    trailingWord xs ++ ys.takeWhile isWordByte = xs ++ ys ↔ ∀ b ∈ xs ++ ys, isWordByte b = true := by
  constructor
  · intro heq
    have hlength := congrArg List.length heq
    rw [List.length_append, List.length_append] at hlength
    have hxs := (trailingWord_suffix xs).length_le
    have hys := (List.takeWhile_prefix isWordByte (l := ys)).length_le
    have hleft := (trailingWord_suffix xs).eq_of_length (by omega)
    have hright := (List.takeWhile_prefix isWordByte (l := ys)).eq_of_length (by omega)
    intro b hb
    rcases List.mem_append.mp hb with hb | hb
    · exact (trailingWord_eq_self_iff xs).mp hleft b hb
    · exact List.takeWhile_eq_self_iff.mp hright b hb
  · intro hall
    rw [(trailingWord_eq_self_iff xs).mpr fun b hb => hall b (List.mem_append_left _ hb),
      List.takeWhile_eq_self_iff.mpr fun b hb => hall b (List.mem_append_right _ hb)]

/-! ## Places -/

theorem length_encodeChars_lines (pieces : List (List Char)) :
    (encodeChars (pieces.flatMap (· ++ ['\n']))).length =
      (pieces.map fun piece => (encodeChars piece).length + 1).sum := by
  induction pieces with
  | nil => rfl
  | cons piece pieces ih =>
      rw [List.flatMap_cons, Text.encodeChars_append, Text.encodeChars_append, List.length_append,
        List.length_append, ih, List.map_cons, List.sum_cons]
      rfl

theorem getLast?_lines (pieces : List (List Char)) :
    ∀ c ∈ (pieces.flatMap (· ++ ['\n'])).getLast?, c = '\n' := by
  rcases List.eq_nil_or_concat pieces with rfl | ⟨before, piece, rfl⟩
  · nofun
  · intro c hc
    rw [List.concat_eq_append, List.flatMap_append, List.flatMap_singleton, ← List.append_assoc,
      List.getLast?_concat] at hc
    exact (Option.some.inj hc).symm

/-- The number of bytes before a position. A column past the end of a line is its end. -/
def placeOf? (text : String) (pos : Position) : Option Nat :=
  (Text.lines text)[pos.line]?.map fun line =>
    (((Text.lines text).take pos.line).map fun l => (Text.encode l).length + 1).sum +
      min pos.column (Text.encode line).length

theorem silent_lineBreak : Silent '\n' := by decide

/-- What is found within some characters between silent ones. -/
theorem words_between {before mid after : List Char} (hlast : ∀ c ∈ before.getLast?, Silent c)
    (hhead : ∀ c ∈ after.head?, Silent c) {i : Nat} (hi : i ≤ (encodeChars mid).length) :
    trailingWord ((encodeChars (before ++ (mid ++ after))).take ((encodeChars before).length + i)) =
        trailingWord ((encodeChars mid).take i) ∧
      ((encodeChars (before ++ (mid ++ after))).drop ((encodeChars before).length + i)).takeWhile
        isWordByte = ((encodeChars mid).drop i).takeWhile isWordByte := by
  rw [Text.encodeChars_append, Text.encodeChars_append, List.take_length_add_append,
    List.drop_length_add_append, List.take_append_of_le_length hi, List.drop_append_of_le_length hi]
  exact ⟨trailingWord_behind hlast _, takeWhile_before hhead _⟩

/-- What is found at a position of a line is what the whole text has around that place: no line break is
part of a word. -/
theorem words_at_place {text : String} {pos : Position} {n : Nat} (h : placeOf? text pos = some n) :
    n ≤ (Text.encode text).length ∧
      wordBefore text pos = trailingWord ((Text.encode text).take n) ∧
      wordAround text pos = trailingWord ((Text.encode text).take n) ++
        ((Text.encode text).drop n).takeWhile isWordByte := by
  unfold placeOf? Text.lines at h
  rw [List.getElem?_map, Option.map_map] at h
  obtain ⟨piece, hpiece, rfl⟩ := Option.map_eq_some_iff.mp h
  obtain ⟨before, after, htext, hbefore, hafter⟩ := Text.exists_around_piece hpiece
  have haround : around? text pos =
      some ((encodeChars piece).take pos.column, (encodeChars piece).drop pos.column) := by
    unfold around? Text.lines
    rw [List.getElem?_map, hpiece]
    dsimp only [Option.map_some]
    rw [Text.encode, String.toList_ofList]
    rfl
  have hlength : ((((Text.splitOnChar '\n' text.toList).map String.ofList).take pos.line).map
      fun l => (Text.encode l).length + 1).sum = (encodeChars before).length := by
    rw [hbefore, length_encodeChars_lines, ← List.map_take, List.map_map]
    congr 2
    funext piece
    rw [Function.comp_apply, Text.encode, String.toList_ofList]
    rfl
  have hlast : ∀ c ∈ before.getLast?, Silent c := by
    intro c hc
    rw [hbefore] at hc
    exact getLast?_lines _ c hc ▸ silent_lineBreak
  have hhead : ∀ c ∈ after.head?, Silent c := by
    intro c hc
    rcases hafter with rfl | ⟨rest, rfl⟩
    · cases hc
    · cases hc
      exact silent_lineBreak
  have hencode : Text.encode text = encodeChars (before ++ (piece ++ after)) := by
    rw [← htext]
    rfl
  have hpieceLength : (Text.encode (String.ofList piece)).length = (encodeChars piece).length := by
    rw [Text.encode, String.toList_ofList]
    rfl
  have hcolumn : min pos.column (encodeChars piece).length ≤ (encodeChars piece).length :=
    Nat.min_le_right _ _
  obtain ⟨hbehind, hfurther⟩ := words_between hlast hhead hcolumn
  dsimp only [Function.comp_apply]
  rw [hlength, hpieceLength, hencode, wordBefore, wordAround, haround, hbehind, hfurther,
    ← List.take_eq_take_min, ← List.drop_eq_drop_min]
  refine ⟨?_, rfl, rfl⟩
  rw [Text.encodeChars_append, Text.encodeChars_append, List.length_append, List.length_append]
  omega

end LineScript.Editor

namespace LineScript.Token

open LineScript.Editor (Silent)

/-! ## Comments -/

/-- A stretch from a number sign up to the end of its line. -/
structure Remark (text : List Char) (s : Span) : Prop where
  hash : text[s.start]? = some '#'
  inLine : '\n' ∉ s.of text
  stop_le : s.stop ≤ text.length
  ends : ∀ c ∈ text[s.stop]?, c = '\n'

/-- A comment: such a stretch apart from all tokens but line breaks. -/
structure Comment (text : List Char) (cuts : List Occurrence) (s : Span) : Prop extends
    Remark text s where
  apart : ∀ o ∈ cuts, o.token.kind ≠ .lineBreak → o.span.stop ≤ s.start ∨ s.stop ≤ o.span.start

/-- The same stretch behind further characters. -/
theorem Remark.behind {text : List Char} {s : Span} (h : Remark text s) (before : List Char) :
    Remark (before ++ text) ⟨before.length + s.start, before.length + s.stop⟩ := by
  refine ⟨?_, ?_, ?_, ?_⟩
  · rw [List.getElem?_append_right (Nat.le_add_right _ _), Nat.add_sub_cancel_left, h.hash]
  · have hof : Span.of ⟨before.length + s.start, before.length + s.stop⟩ (before ++ text) =
        s.of text := by
      dsimp only [Span.of]
      rw [List.drop_length_add_append, Nat.add_sub_add_left]
    rw [hof]
    exact h.inLine
  · rw [List.length_append]
    exact Nat.add_le_add_left h.stop_le _
  · rw [List.getElem?_append_right (Nat.le_add_right _ _), Nat.add_sub_cancel_left]
    exact h.ends

/-- A character of blanks is silent or behind the number sign of a comment. -/
theorem Blank.silent_or_remark {rest cs : List Char} (h : Blank rest cs) {j : Nat} {c : Char}
    (hj : cs[j]? = some c) :
    Silent c ∨ ∃ s, Remark (cs ++ rest) s ∧ s.stop ≤ cs.length ∧ s.start < j ∧ j < s.stop := by
  have hspaces : ∀ c, isSpace c = true → Silent c := by
    intro c hc
    simp only [isSpace, Bool.or_eq_true, decide_eq_true_eq] at hc
    rcases hc with (rfl | rfl) | rfl <;> decide
  -- What is found in the rest of the blanks is moved behind the characters before them.
  have hmove : ∀ (before cs : List Char) (j : Nat),
      (Silent c ∨ ∃ s, Remark (cs ++ rest) s ∧ s.stop ≤ cs.length ∧ s.start < j ∧ j < s.stop) →
      (Silent c ∨ ∃ s, Remark ((before ++ cs) ++ rest) s ∧ s.stop ≤ (before ++ cs).length ∧
        s.start < before.length + j ∧ before.length + j < s.stop) := by
    rintro before cs j (hsilent | ⟨s, hremark, hstop, hbefore, hbehind⟩)
    · exact .inl hsilent
    · refine .inr ⟨_, List.append_assoc before cs rest ▸ hremark.behind before, ?_, ?_, ?_⟩
      · rw [List.length_append]
        exact Nat.add_le_add_left hstop _
      · exact Nat.add_lt_add_left hbefore _
      · exact Nat.add_lt_add_left hbehind _
  induction h generalizing j with
  | nil => cases hj
  | lineBreak _ ih =>
      cases j with
      | zero =>
          cases hj
          exact .inl (by decide)
      | succ j =>
          rw [Nat.add_comm]
          exact hmove ['\n'] _ j (ih hj)
  | @space d cs hspace _ ih =>
      cases j with
      | zero =>
          cases hj
          exact .inl (hspaces _ hspace)
      | succ j =>
          rw [Nat.add_comm]
          exact hmove [d] _ j (ih hj)
  | @comment text cs htext hend _ ih =>
      rcases Nat.lt_or_ge j ('#' :: text).length with hlt | hge
      · cases j with
        | zero =>
            cases hj
            exact .inl (by decide)
        | succ j =>
            refine .inr ⟨⟨0, ('#' :: text).length⟩, ⟨rfl, ?_, ?_, ?_⟩, ?_, Nat.succ_pos _, hlt⟩
            · rw [Span.of, List.drop_zero, Nat.sub_zero, List.append_assoc, List.take_left]
              simpa using htext
            · rw [List.append_assoc, List.length_append]
              exact Nat.le_add_right _ _
            · rw [List.append_assoc, List.getElem?_append_right (Nat.le_refl _), Nat.sub_self,
                ← List.head?_eq_getElem?]
              exact hend
            · rw [List.length_append]
              exact Nat.le_add_right _ _
      · obtain ⟨i, rfl⟩ := Nat.exists_eq_add_of_le hge
        rw [List.getElem?_append_right hge, Nat.add_sub_cancel_left] at hj
        exact hmove _ cs i (ih hj)

/-! ## Between the tokens -/

/-- A place is in the span of a token or between the spans, where only blanks are. -/
theorem Cuts.span_or_blank {text : List Char} {k j : Nat} {cuts : List Occurrence}
    (h : Cuts text k cuts) (hk : k ≤ j) (hj : j < text.length) :
    (∃ o ∈ cuts, o.span.start ≤ j ∧ j < o.span.stop) ∨
      ∃ s : Span, k ≤ s.start ∧ s.start ≤ j ∧ j < s.stop ∧ s.stop ≤ text.length ∧
        Blank (text.drop s.stop) (s.of text) ∧
        ∀ o ∈ cuts, o.span.stop ≤ s.start ∨ s.stop ≤ o.span.start := by
  induction h with
  | @nil k _ hseparates =>
      exact .inr ⟨⟨k, text.length⟩, Nat.le_refl _, hk, hj, Nat.le_refl _, hseparates.2,
        List.forall_mem_nil _⟩
  | @cons k o rest hstart hseparates hstands _ hrest ih =>
      by_cases hbefore : j < o.span.start
      · refine .inr ⟨⟨k, o.span.start⟩, Nat.le_refl _, hk, hbefore,
          Nat.le_trans hstands.start_lt.le hstands.stop_le, hseparates.2, fun p hp => .inr ?_⟩
        rcases List.mem_cons.mp hp with rfl | hp
        · exact Nat.le_refl _
        · exact Nat.le_trans hstands.start_lt.le (hrest.le_start p hp)
      by_cases hwithin : j < o.span.stop
      · exact .inl ⟨o, List.mem_cons_self, Nat.le_of_not_lt hbefore, hwithin⟩
      rcases ih (Nat.le_of_not_lt hwithin) with ⟨p, hp, hplace⟩ |
        ⟨s, hs, hplace, hplace', hle, hblank, hapart⟩
      · exact .inl ⟨p, .tail _ hp, hplace⟩
      · have hlt := hstands.start_lt
        refine .inr ⟨s, by omega, hplace, hplace', hle, hblank, ?_⟩
        exact List.forall_mem_cons.mpr ⟨.inl hs, hapart⟩

/-- A character is part of a token, or silent, or behind the number sign of a comment. -/
theorem Cuts.place {text : List Char} {cuts : List Occurrence} (h : Cuts text 0 cuts) {j : Nat} {c : Char}
    (hj : text[j]? = some c) :
    (∃ o ∈ cuts, o.token.kind ≠ .lineBreak ∧ o.span.start ≤ j ∧ j < o.span.stop) ∨ Silent c ∨
      ∃ s, Comment text cuts s ∧ s.start < j ∧ j < s.stop := by
  obtain ⟨hlt, -⟩ := List.getElem?_eq_some_iff.mp hj
  -- Blanks apart from the other tokens hold silent characters and comments.
  have hblanks : ∀ s : Span, s.start ≤ j → j < s.stop → s.stop ≤ text.length →
      Blank (text.drop s.stop) (s.of text) →
      (∀ o ∈ cuts, o.token.kind ≠ .lineBreak → o.span.stop ≤ s.start ∨ s.stop ≤ o.span.start) →
      Silent c ∨ ∃ s, Comment text cuts s ∧ s.start < j ∧ j < s.stop := by
    intro s hstart hstop hle hblank hapart
    have hlength := Span.length_of hle
    have hdrop : s.of text ++ text.drop s.stop = text.drop s.start :=
      Span.of_append_drop (Nat.le_of_lt (Nat.lt_of_le_of_lt hstart hstop))
    have hat : (s.of text)[j - s.start]? = some c := by
      rw [Span.of, List.getElem?_take_of_lt (by omega), List.getElem?_drop,
        Nat.add_sub_cancel' hstart, hj]
    rcases hblank.silent_or_remark hat with hsilent | ⟨r, hremark, hrstop, hbefore, hbehind⟩
    · exact .inl hsilent
    · have hmoved := hremark.behind (text.take s.start)
      rw [hdrop, List.take_append_drop, List.length_take_of_le (by omega)] at hmoved
      refine .inr ⟨_, ⟨hmoved, fun o ho hkind => ?_⟩, ?_, ?_⟩
      · rcases hapart o ho hkind with hle | hle
        · exact .inl (Nat.le_trans hle (Nat.le_add_right _ _))
        · refine .inr (Nat.le_trans ?_ hle)
          dsimp only
          omega
      · dsimp only
        omega
      · dsimp only
        omega
  rcases h.span_or_blank (Nat.zero_le _) hlt with ⟨o, ho, hplace, hplace'⟩ |
    ⟨s, -, hs, hs', hle, hblank, hapart⟩
  · by_cases hkind : o.token.kind = .lineBreak
    · obtain ⟨hle, blank, hof, hblank⟩ := h.breaks o ho hkind
      refine .inr (hblanks o.span hplace hplace' hle (hof ▸ .lineBreak hblank) fun p hp hpkind => ?_)
      by_contra hmeet
      rw [not_or, Nat.not_le, Nat.not_le] at hmeet
      exact hpkind (h.eq_of_meet hp ho hmeet.2 hmeet.1 ▸ hkind)
    · exact .inl ⟨o, ho, hkind, hplace, hplace'⟩
  · exact .inr (hblanks s hs hs' hle hblank fun p hp _ => hapart p hp)

/-! ## Next to tokens -/

/-- Whether tokens of a kind are identifiers, reserved words or numbers. -/
def isWordKind (kind : TokenKind) : Bool :=
  kind = .identifier || kind = .number || reserved.any (·.2 = kind)

/-- Identifiers and reserved words are made of the characters of names. -/
theorem Denotes.of_isWordKind {lexeme : List Char} {t : Token} (h : Denotes lexeme t)
    (hword : isWordKind t.kind = true) (hnumber : t.kind ≠ .number) :
    ∃ c rest, lexeme = c :: rest ∧ isNameStart c = true ∧ ∀ d ∈ rest, isNameChar d = true := by
  have hstarts : ∀ cs : List Char, cs ≠ [] → (∀ c ∈ cs, isNameStart c = true) →
      ∃ c rest, cs = c :: rest ∧ isNameStart c = true ∧ ∀ d ∈ rest, isNameChar d = true := by
    intro cs hne hall
    obtain ⟨c, rest, rfl⟩ := List.exists_cons_of_ne_nil hne
    obtain ⟨hc, hrest⟩ := List.forall_mem_cons.mp hall
    exact ⟨c, rest, rfl, hc, fun d hd => isNameChar_of_isNameStart (hrest d hd)⟩
  cases h with
  | lineBreak | string => cases hword
  | symbol line hmem =>
      have hall : ∀ kind ∈ symbols, isWordKind kind = false := by decide
      rw [hall _ hmem] at hword
      cases hword
  | truth b line => exact hstarts _ (by cases b <;> decide) (isNameStart_of_mem_toString b)
  | reserved line hmem =>
      have hall : ∀ e ∈ Token.reserved, e.1.toList ≠ [] := by decide
      exact hstarts _ (hall _ hmem) (isNameStart_of_mem_reserved hmem)
  | name line hstart hrest => exact ⟨_, _, rfl, hstart, hrest⟩
  | number => exact absurd rfl hnumber

theorem Denotes.head_of_isWordKind {lexeme : List Char} {t : Token} (h : Denotes lexeme t)
    (hword : isWordKind t.kind = true) : ∀ c ∈ lexeme.head?, isNameChar c = true := by
  by_cases hnumber : t.kind = .number
  · cases h with
    | number line hwhole hdigits =>
        obtain ⟨d, whole, rfl⟩ := List.exists_cons_of_ne_nil hwhole
        rintro _ ⟨⟩
        exact isNameChar_of_isDigit (hdigits d (by simp))
    | symbol line hmem =>
        have hall : ∀ kind ∈ symbols, kind ≠ .number := by decide
        exact absurd hnumber (hall _ hmem)
    | reserved line hmem =>
        have hall : ∀ e ∈ Token.reserved, e.2 ≠ .number := by decide
        exact absurd hnumber (hall _ hmem)
    | lineBreak | truth | name | string => cases hnumber
  · obtain ⟨c, rest, rfl, hstart, -⟩ := h.of_isWordKind hword hnumber
    rintro _ ⟨⟩
    exact isNameChar_of_isNameStart hstart

/-- All other tokens begin and end with a silent character, and only in strings there are others. -/
theorem Denotes.silent_edges {lexeme : List Char} {t : Token} (h : Denotes lexeme t)
    (hword : isWordKind t.kind = false) (hbreak : t.kind ≠ .lineBreak) :
    (∀ c ∈ lexeme.head?, Silent c) ∧ (∀ c ∈ lexeme.getLast?, Silent c) ∧
      (t.kind ≠ .string → ∀ c ∈ lexeme, Silent c) := by
  cases h with
  | lineBreak => exact absurd rfl hbreak
  | symbol line hmem =>
      have hall : ∀ kind ∈ symbols, kind.label.toList.all (fun c => decide (Silent c)) = true := by
        decide
      have hsilent := forall_mem_of_all (hall _ hmem)
      exact ⟨fun c hc => hsilent c (List.mem_of_mem_head? hc),
        fun c hc => hsilent c (List.mem_of_mem_getLast? hc), fun _ => hsilent⟩
  | reserved line hmem =>
      have hall : ∀ e ∈ Token.reserved, isWordKind e.2 = true := by decide
      rw [hall _ hmem] at hword
      cases hword
  | truth | name | number => cases hword
  | string line hquote hbody =>
      have hsilent : ∀ c, c = '\x22' ∨ c = '\x27' → Silent c := by
        rintro c (rfl | rfl) <;> decide
      refine ⟨?_, ?_, fun hstring => absurd rfl hstring⟩
      · rintro _ ⟨⟩
        exact hsilent _ hquote
      · intro c hc
        rw [List.getLast?_append, List.getLast?_singleton, Option.some_or] at hc
        cases hc
        exact hsilent _ hquote

/-- Behind an identifier or a reserved word stands no character of a name. -/
theorem Stands.not_isNameChar_behind {text : List Char} {o : Occurrence} (h : Stands text o)
    (hword : isWordKind o.token.kind = true) (hnumber : o.token.kind ≠ .number) {c : Char}
    (hc : text[o.span.stop]? = some c) : isNameChar c = false := by
  by_contra hname
  rw [Bool.not_eq_false] at hname
  obtain ⟨d, rest, hlexeme, hstart, hrest⟩ := h.denotes.of_isWordKind hword hnumber
  have hlength := Span.length_of h.stop_le
  have hdrop : o.span.of text ++ text.drop o.span.stop = text.drop o.span.start :=
    Span.of_append_drop h.start_lt.le
  obtain ⟨more, hmore⟩ : ∃ more, text.drop o.span.stop = c :: more := by
    obtain ⟨hlt, rfl⟩ := List.getElem?_eq_some_iff.mp hc
    exact ⟨_, List.drop_eq_getElem_cons hlt⟩
  -- The word with this character would be a longer one.
  have htext : (String.ofList (d :: (rest ++ [c]))).toList = d :: (rest ++ [c]) := String.toList_ofList
  have hlonger := denotes_word htext hstart
    (by simpa [or_imp, forall_and] using ⟨hrest, hname⟩) 0
  have hle := h.longest _ _ ⟨more, ?_⟩ hlonger
  · rw [htext, List.length_cons, List.length_append, ← hlength, hlexeme] at hle
    simp at hle
  · rw [← hdrop, hmore, hlexeme, htext]
    simp

theorem mem_getLast?_take {text : List Char} {i : Nat} (hi : i ≤ text.length) {c : Char}
    (hc : c ∈ (text.take i).getLast?) : ∃ j, i = j + 1 ∧ text[j]? = some c := by
  cases i with
  | zero => cases hc
  | succ j =>
      refine ⟨j, rfl, ?_⟩
      rw [List.getLast?_eq_getElem?, List.length_take_of_le hi, Nat.add_sub_cancel,
        List.getElem?_take_of_lt (Nat.lt_succ_self j)] at hc
      exact hc

theorem Span.head?_of {text : List Char} {s : Span} (h : s.start < s.stop) :
    (s.of text).head? = text[s.start]? := by
  rw [Span.of, List.head?_eq_getElem?, List.getElem?_take_of_lt (by omega), List.getElem?_drop,
    Nat.add_zero]

theorem Span.getLast?_of {text : List Char} {s : Span} (h : s.start < s.stop)
    (hstop : s.stop ≤ text.length) : (s.of text).getLast? = text[s.stop - 1]? := by
  rw [List.getLast?_eq_getElem?, Span.length_of hstop, Span.of,
    List.getElem?_take_of_lt (by omega), List.getElem?_drop]
  congr 1
  omega

section

variable {text : List Char} {cuts : List Occurrence} {o : Occurrence}

theorem Cuts.isNameStart_of_identifier (h : Cuts text 0 cuts) (ho : o ∈ cuts)
    (hkind : o.token.kind = .identifier) {c : Char} (hc : text[o.span.start]? = some c) :
    isNameStart c = true := by
  obtain ⟨d, rest, hlexeme, hstart, -⟩ := (h.stands o ho).denotes.of_isWordKind
    (by rw [hkind]; rfl) (by rw [hkind]; nofun)
  have hhead : (o.span.of text).head? = _ := Span.head?_of (h.stands o ho).start_lt
  rw [hlexeme, hc] at hhead
  cases hhead
  exact hstart

/-- Before an identifier that does not follow a number stands a silent character. -/
theorem Cuts.silent_before (h : Cuts text 0 cuts) (ho : o ∈ cuts)
    (hkind : o.token.kind = .identifier)
    (hnumber : ∀ p ∈ cuts, p.token.kind = .number → p.span.stop ≠ o.span.start) :
    ∀ c ∈ (text.take o.span.start).getLast?, Silent c := by
  intro c hc
  have hlt := (h.stands o ho).start_lt
  have hle := (h.stands o ho).stop_le
  obtain ⟨j, hj, hat⟩ := mem_getLast?_take (by omega) hc
  obtain ⟨d, hd⟩ : ∃ d, text[o.span.start]? = some d := ⟨_, List.getElem?_eq_getElem (by omega)⟩
  have hstart := h.isNameStart_of_identifier ho hkind hd
  rcases h.place hat with ⟨p, hp, hpbreak, hpstart, hpstop⟩ | hsilent | ⟨s, hs, hsstart, hsstop⟩
  · -- The token before it ends where it begins.
    have hpend : p.span.stop = o.span.start := by
      by_contra hne
      have hsame := h.eq_of_meet hp ho (by omega) (by omega)
      rw [hsame] at hpstart
      omega
    cases hword : isWordKind p.token.kind with
    | true =>
        have hname := (h.stands p hp).not_isNameChar_behind hword (fun hpnumber =>
          hnumber p hp hpnumber hpend) (hpend ▸ hd)
        rw [isNameChar_of_isNameStart hstart] at hname
        cases hname
    | false =>
        obtain ⟨-, hlast, -⟩ := (h.stands p hp).denotes.silent_edges hword hpbreak
        refine hlast c ?_
        rw [Span.getLast?_of (h.stands p hp).start_lt (h.stands p hp).stop_le, hpend, hj,
          Nat.add_sub_cancel]
        exact hat
  · exact hsilent
  · -- A comment would go up to a line break.
    rcases hs.apart o ho (by rw [hkind]; nofun) with hbefore | hbehind
    · omega
    · have hend : s.stop = o.span.start := by omega
      have hbreak := hs.ends d (hend ▸ hd)
      subst hbreak
      exact absurd hstart (by decide)

/-- Behind an identifier stands a silent character. -/
theorem Cuts.silent_behind (h : Cuts text 0 cuts) (ho : o ∈ cuts)
    (hkind : o.token.kind = .identifier) : ∀ c ∈ (text.drop o.span.stop).head?, Silent c := by
  intro c hc
  have hat : text[o.span.stop]? = some c := by
    rwa [List.head?_drop] at hc
  have hlt := (h.stands o ho).start_lt
  have hname := (h.stands o ho).not_isNameChar_behind (by rw [hkind]; rfl) (by rw [hkind]; nofun) hat
  rcases h.place hat with ⟨p, hp, hpbreak, hpstart, hpstop⟩ | hsilent | ⟨s, hs, hsstart, hsstop⟩
  · have hpend : p.span.start = o.span.stop := by
      by_contra hne
      have hsame := h.eq_of_meet hp ho (by omega) (by omega)
      rw [hsame] at hpstop
      omega
    have hhead : (p.span.of text).head? = _ := Span.head?_of (h.stands p hp).start_lt
    rw [hpend, hat] at hhead
    cases hword : isWordKind p.token.kind with
    | true =>
        rw [(h.stands p hp).denotes.head_of_isWordKind hword c hhead] at hname
        cases hname
    | false =>
        obtain ⟨hfirst, -, -⟩ := (h.stands p hp).denotes.silent_edges hword hpbreak
        exact hfirst c hhead
  · exact hsilent
  · rcases hs.apart o ho (by rw [hkind]; nofun) with hbefore | hbehind <;> omega

/-! ## Apart from words -/

/-- A place among bytes that touches no identifier, no reserved word and no number, and is neither in a
string nor in a comment. Where a comment ends is in it. -/
structure Clear (bytes : Text.Bytes) (text : List Char) (cuts : List Occurrence) (n : Nat) : Prop where
  words : ∀ o ∈ cuts, isWordKind o.token.kind = true →
    ¬((o.span.inBytes bytes).start ≤ n ∧ n ≤ (o.span.inBytes bytes).stop)
  strings : ∀ o ∈ cuts, o.token.kind = .string →
    ¬((o.span.inBytes bytes).start < n ∧ n < (o.span.inBytes bytes).stop)
  comments : ∀ s, Comment text cuts s →
    ¬((s.inBytes bytes).start < n ∧ n ≤ (s.inBytes bytes).stop)

variable {more : List Char} {n : Nat}

theorem offset_lt_offset {i j : Nat} (hij : i < j) (hj : j ≤ text.length) (more : List Char) :
    Text.offset i (Text.encodeChars (text ++ more)) < Text.offset j (Text.encodeChars (text ++ more)) := by
  rw [Text.offset_encodeChars, Text.offset_encodeChars]
  refine Text.length_encodeChars_take_lt hij ?_
  rw [List.length_append]
  omega

/-- A character that such a place cuts in two or has next to it is silent. -/
theorem Cuts.silent_of_clear (h : Cuts text 0 cuts)
    (hclear : Clear (Text.encodeChars (text ++ more)) text cuts n) {j : Nat} {c : Char}
    (hj : text[j]? = some c) (hstart : Text.offset j (Text.encodeChars (text ++ more)) ≤ n)
    (hstop : n ≤ Text.offset (j + 1) (Text.encodeChars (text ++ more))) : Silent c := by
  have hmono : ∀ {i k : Nat}, i ≤ k → Text.offset i (Text.encodeChars (text ++ more)) ≤
      Text.offset k (Text.encodeChars (text ++ more)) := fun hle => Text.offset_le_offset hle _
  have hj' : j ≤ text.length := (List.getElem?_eq_some_iff.mp hj).1.le
  rcases h.place hj with ⟨p, hp, hpbreak, hpstart, hpstop⟩ | hsilent | ⟨s, hs, hsstart, hsstop⟩
  · have hlt := (h.stands p hp).start_lt
    have hle := (h.stands p hp).stop_le
    cases hword : isWordKind p.token.kind with
    | true =>
        exact absurd ⟨(hmono hpstart).trans hstart, hstop.trans (hmono hpstop)⟩
          (hclear.words p hp hword)
    | false =>
        obtain ⟨hfirst, hlast, hall⟩ := (h.stands p hp).denotes.silent_edges hword hpbreak
        by_cases hstring : p.token.kind = .string
        · have hedge := hclear.strings p hp hstring
          rw [not_and_or, Nat.not_lt, Nat.not_lt] at hedge
          rcases hedge with hedge | hedge
          · -- The quote that opens the string.
            have hsame : p.span.start = j := by
              by_contra hne
              have hbefore := offset_lt_offset (Nat.lt_of_le_of_ne hpstart hne) hj' more
              exact absurd (hstart.trans hedge) (Nat.not_le.mpr hbefore)
            refine hfirst c ?_
            rw [Span.head?_of hlt, hsame]
            exact hj
          · -- The quote that closes it.
            have hsame : j + 1 = p.span.stop := by
              by_contra hne
              have hbehind := offset_lt_offset (Nat.lt_of_le_of_ne hpstop hne) hle more
              exact absurd (hedge.trans hstop) (Nat.not_le.mpr hbehind)
            refine hlast c ?_
            rw [Span.getLast?_of hlt hle, ← hsame, Nat.add_sub_cancel]
            exact hj
        · exact hall hstring c (mem_of_getElem? hpstart hpstop hj)
  · exact hsilent
  · have hbefore := offset_lt_offset hsstart hj' more
    exact absurd ⟨hbefore.trans_le hstart, hstop.trans (hmono hsstop)⟩ (hclear.comments s hs)

theorem offset_eq_of_le {i : Nat} (hi : i ≤ text.length) (more : List Char) :
    Text.offset i (Text.encodeChars (text ++ more)) = (Text.encodeChars (text.take i)).length := by
  rw [Text.offset_encodeChars, List.take_append_of_le_length hi]

/-- Such a place is between two characters, both of them silent. -/
theorem Cuts.exists_split_of_clear (h : Cuts text 0 cuts)
    (hclear : Clear (Text.encodeChars (text ++ more)) text cuts n)
    (hn : n ≤ (Text.encodeChars text).length) :
    ∃ i ≤ text.length, n = (Text.encodeChars (text.take i)).length ∧
      (∀ c ∈ (text.take i).getLast?, Silent c) ∧ ∀ c ∈ (text.drop i).head?, Silent c := by
  obtain ⟨i, hi, hplace⟩ : ∃ i ≤ text.length, n = (Text.encodeChars (text.take i)).length := by
    rcases Nat.lt_or_eq_of_le hn with hlt | heq
    · obtain ⟨i, c, hc, hle, hlt⟩ := Text.exists_char_at hlt
      obtain ⟨hi, -⟩ := List.getElem?_eq_some_iff.mp hc
      have hnext : (Text.encodeChars (text.take (i + 1))).length =
          (Text.encodeChars (text.take i)).length + (Text.encodeChars [c]).length := by
        rw [List.take_add_one, hc, Text.encodeChars_append, List.length_append]
        rfl
      have hsilent := h.silent_of_clear hclear hc (by rwa [offset_eq_of_le hi.le])
        (by rw [offset_eq_of_le hi, hnext]; exact hlt.le)
      rw [Text.encodeChars_ascii hsilent.1, List.length_singleton] at hlt
      exact ⟨i, hi.le, by omega⟩
    · exact ⟨text.length, Nat.le_refl _, by rw [List.take_length, heq]⟩
  refine ⟨i, hi, hplace, fun c hc => ?_, fun c hc => ?_⟩
  · obtain ⟨j, rfl, hj⟩ := mem_getLast?_take hi hc
    refine h.silent_of_clear hclear hj ?_ ?_
    · rw [hplace, ← offset_eq_of_le hi more]
      exact Text.offset_le_offset (Nat.le_succ j) _
    · rw [hplace, offset_eq_of_le hi]
  · rw [List.head?_drop] at hc
    refine h.silent_of_clear hclear hc ?_ ?_
    · rw [hplace, offset_eq_of_le hi]
    · rw [hplace, ← offset_eq_of_le hi more]
      exact Text.offset_le_offset (Nat.le_succ i) _

end

/-! ## What is read -/

/-- The text of an identifier is what stands there. -/
theorem Denotes.text_of_identifier {lexeme : List Char} {t : Token} (h : Denotes lexeme t)
    (hkind : t.kind = .identifier) :
    t.text.toList = lexeme ∧ ∀ c ∈ lexeme, isNameChar c = true := by
  obtain ⟨c, rest, rfl, htext, hstart, hrest, -⟩ := h.exists_name hkind
  exact ⟨htext, List.forall_mem_cons.mpr ⟨isNameChar_of_isNameStart hstart, hrest⟩⟩

theorem Span.take_append_of {text : List Char} {s : Span} (h : s.start ≤ s.stop) :
    text.take s.start ++ s.of text = text.take s.stop := by
  rw [Span.of, ← List.take_add, Nat.add_sub_cancel' h]

/-- Text behind the first null character is not read. -/
theorem exists_readable_append (text : String) :
    ∃ more, text.toList = readable text ++ more ∧ ∀ c ∈ more.head?, Silent c := by
  refine ⟨text.toList.dropWhile (· ≠ '\x00'), List.takeWhile_append_dropWhile.symm, fun c hc => ?_⟩
  have hhead := List.head?_dropWhile_not (fun x => decide (x ≠ '\x00')) text.toList
  rw [hc] at hhead
  obtain rfl : c = '\x00' := by simpa using hhead
  decide

end LineScript.Token

namespace LineScript.Editor

open LineScript.Text (Bytes encodeChars)
open LineScript.Token (Cut Cuts Clear readable)

/-! ## What is found at the cursor -/

/-- What is found at a position that is `i` bytes behind the beginning of a name: the bytes around it
that belong to words. They are the name, and the part of it before the position, if all its bytes do. -/
structure Found (text : String) (pos : Position) (name : Bytes) (i : Nat) : Prop where
  before_eq : wordBefore text pos = trailingWord (name.take i)
  around_eq : wordAround text pos =
    trailingWord (name.take i) ++ (name.drop i).takeWhile isWordByte
  before_iff : wordBefore text pos = name.take i ↔ ∀ b ∈ name.take i, isWordByte b = true
  around_iff : wordAround text pos = name ↔ ∀ b ∈ name, isWordByte b = true

/-- The characters of names are characters of words. -/
theorem isWordChar_of_isNameChar {c : Char} (h : Token.isNameChar c = true) : isWordChar c = true := by
  have hdigits : ∀ c ∈ "0123456789".toList, Text.isDecimalDigit c = true :=
    Token.forall_mem_of_all (by decide)
  simp only [Token.isNameChar, Bool.or_eq_true, decide_eq_true_eq] at h
  simp only [isWordChar, Bool.or_eq_true, beq_iff_eq]
  rcases h with (hletter | hdigit) | hline
  · exact .inl (.inl hletter)
  · exact .inl (.inr (hdigits c (Token.mem_digits_of_isDigit hdigit)))
  · exact .inr hline

/-- The bytes of a name in ASCII belong to words. -/
theorem isWordByte_of_ascii {name : List Char} (hname : ∀ c ∈ name, Token.isNameChar c = true)
    (hascii : ∀ c ∈ name, c.toNat < 0x80) : ∀ b ∈ encodeChars name, isWordByte b = true := by
  intro b hb
  obtain ⟨c, hc, hmem⟩ := List.mem_flatMap.mp hb
  have hencode := Text.encodeChars_ascii (hascii c hc)
  rw [Text.encodeChars, List.flatMap_singleton] at hencode
  rw [hencode, List.mem_singleton] at hmem
  have hbound := hascii c hc
  rw [hmem, isWordByte, Text.toNat_byte (by omega), Char.ofNat_toNat]
  exact isWordChar_of_isNameChar (hname c hc)

/-- At a place of an identifier that does not follow a number. -/
theorem found_of_identifier {text : String} {cuts : List Token.Occurrence}
    (h : Cuts (readable text) 0 cuts) {o : Token.Occurrence} (ho : o ∈ cuts)
    (hkind : o.token.kind = .identifier)
    (hnumber : ∀ p ∈ cuts, p.token.kind = .number → p.span.stop ≠ o.span.start) {pos : Position}
    {n : Nat} (hplace : placeOf? text pos = some n)
    (hstart : (o.span.inBytes (Text.encode text)).start ≤ n)
    (hstop : n ≤ (o.span.inBytes (Text.encode text)).stop) :
    Found text pos (Text.encode o.token.text) (n - (o.span.inBytes (Text.encode text)).start) := by
  obtain ⟨more, htext, hmore⟩ := Token.exists_readable_append text
  obtain ⟨-, hbefore, haround⟩ := words_at_place hplace
  have hlt := (h.stands o ho).start_lt
  have hle := (h.stands o ho).stop_le
  obtain ⟨hname, -⟩ := (h.stands o ho).denotes.text_of_identifier hkind
  have hdrop : o.span.of (readable text) ++ (readable text).drop o.span.stop =
      (readable text).drop o.span.start := Token.Span.of_append_drop hlt.le
  have hencode : Text.encode text = encodeChars ((readable text).take o.span.start ++
      (o.token.text.toList ++ ((readable text).drop o.span.stop ++ more))) := by
    rw [hname, ← List.append_assoc (o.span.of _), hdrop, ← List.append_assoc,
      List.take_append_drop, ← htext]
    rfl
  have hbytes : Text.encode text = encodeChars (readable text ++ more) := by rw [← htext]; rfl
  have hbegin : (o.span.inBytes (Text.encode text)).start =
      (encodeChars ((readable text).take o.span.start)).length := by
    rw [hbytes]
    exact Token.offset_eq_of_le (hlt.le.trans hle) more
  have hend : (o.span.inBytes (Text.encode text)).stop =
      (encodeChars ((readable text).take o.span.start)).length +
        (encodeChars o.token.text.toList).length := by
    rw [hbytes]
    refine (Token.offset_eq_of_le hle more).trans ?_
    rw [← List.length_append, ← Text.encodeChars_append, hname, Token.Span.take_append_of hlt.le]
  have hhead : ∀ c ∈ ((readable text).drop o.span.stop ++ more).head?, Silent c := by
    have hbehind := h.silent_behind ho hkind
    cases hrest : (readable text).drop o.span.stop with
    | nil => exact hmore
    | cons d rest =>
        rw [hrest] at hbehind
        exact hbehind
  obtain ⟨i, rfl⟩ := Nat.exists_eq_add_of_le hstart
  rw [Nat.add_sub_cancel_left]
  have hi : i ≤ (encodeChars o.token.text.toList).length := by omega
  obtain ⟨hleft, hright⟩ := words_between (h.silent_before ho hkind hnumber) hhead hi
  rw [hbegin, hencode, hleft] at hbefore
  rw [hbegin, hencode, hleft, hright] at haround
  refine ⟨hbefore, haround, ?_, ?_⟩
  · rw [hbefore]
    exact trailingWord_eq_self_iff _
  · have hiff := trailingWord_append_takeWhile_iff ((Text.encode o.token.text).take i)
      ((Text.encode o.token.text).drop i)
    rw [List.take_append_drop] at hiff
    rw [haround]
    exact hiff

/-- At a place that touches no identifier, reserved word or number outside of strings and comments. -/
theorem nothing_of_clear {text : String} {cuts : List Token.Occurrence}
    (h : Cuts (readable text) 0 cuts) {pos : Position} {n : Nat} (hplace : placeOf? text pos = some n)
    (hclear : Clear (Text.encode text) (readable text) cuts n)
    (hn : n ≤ (encodeChars (readable text)).length) :
    wordBefore text pos = [] ∧ wordAround text pos = [] := by
  obtain ⟨more, htext, hmore⟩ := Token.exists_readable_append text
  obtain ⟨-, hbefore, haround⟩ := words_at_place hplace
  have hbytes : Text.encode text = encodeChars (readable text ++ more) := by rw [← htext]; rfl
  rw [hbytes] at hclear
  obtain ⟨i, hi, rfl, hlast, hfirst⟩ := h.exists_split_of_clear hclear hn
  have hhead : ∀ c ∈ ((readable text).drop i ++ more).head?, Silent c := by
    cases hrest : (readable text).drop i with
    | nil => exact hmore
    | cons d rest =>
        rw [hrest] at hfirst
        exact hfirst
  have hencode : Text.encode text =
      encodeChars ((readable text).take i ++ ([] ++ ((readable text).drop i ++ more))) := by
    rw [List.nil_append, ← List.append_assoc, List.take_append_drop, ← htext]
    rfl
  have hnone : 0 ≤ (encodeChars ([] : List Char)).length := Nat.zero_le _
  obtain ⟨hleft, hright⟩ := words_between hlast hhead hnone
  rw [Nat.add_zero] at hleft hright
  rw [hencode, hleft] at hbefore
  rw [hencode, hleft, hright] at haround
  exact ⟨hbefore, haround⟩

/-- The tokens that stand somewhere are all tokens, but for a line break that may be added. -/
theorem mem_tokens_iff {tokens : List Token} {cuts : List Token.Occurrence} {t : Token}
    (h : tokens = cuts.map (·.token) ∨
      ∃ added : Token, added.kind = .lineBreak ∧ tokens = cuts.map (·.token) ++ [added])
    (ht : t.kind ≠ .lineBreak) : t ∈ tokens ↔ ∃ o ∈ cuts, o.token = t := by
  rcases h with rfl | ⟨added, hadded, rfl⟩
  · exact List.mem_map
  · rw [List.mem_append, List.mem_map, List.mem_singleton]
    exact or_iff_left fun heq => ht (heq ▸ hadded)

/-- The tokens of a document stand in it so that the following holds. If no identifier begins where a
number ends, then at every place of an identifier, its beginning and its end among them, those bytes around
the place are found that belong to words: the identifier, and the part of it before the place, exactly when
all their bytes do, as in ASCII. At a place outside of strings and comments that touches no identifier, no
reserved word and no number, nothing is found. -/
theorem word_at_cursor {text : String} {tokens : List Token} (h : Token.scan text = .ok tokens) :
    ∃ cuts, Cut (readable text) cuts ∧
      (tokens = cuts.map (·.token) ∨
        tokens = cuts.map (·.token) ++
          [{ kind := .lineBreak, text := "\n",
             line := 1 + ((readable text).count '\n' : Nat) }]) ∧
      ((∀ p ∈ cuts, ∀ o ∈ cuts, p.token.kind = .number → o.token.kind = .identifier →
          p.span.stop ≠ o.span.start) →
        ∀ o ∈ cuts, o.token.kind = .identifier → ∀ pos n, placeOf? text pos = some n →
          (o.span.inBytes (Text.encode text)).start ≤ n →
          n ≤ (o.span.inBytes (Text.encode text)).stop →
          Found text pos (Text.encode o.token.text)
              (n - (o.span.inBytes (Text.encode text)).start) ∧
            ((∀ c ∈ o.token.text.toList, c.toNat < 0x80) →
              wordAround text pos = Text.encode o.token.text ∧
                wordBefore text pos = (Text.encode o.token.text).take
                  (n - (o.span.inBytes (Text.encode text)).start))) ∧
      ∀ pos n, placeOf? text pos = some n → n ≤ (encodeChars (readable text)).length →
        Clear (Text.encode text) (readable text) cuts n →
        wordBefore text pos = [] ∧ wordAround text pos = [] := by
  obtain ⟨cuts, hcuts, htokens⟩ := Token.cuts_of_scanFrom h (Nat.zero_le _) rfl rfl
  refine ⟨cuts, ⟨hcuts.ordered, hcuts.stands, hcuts.separates, hcuts.breaksWhole_iff⟩, htokens, ?_,
    fun pos n hplace hn hclear => nothing_of_clear hcuts hplace hclear hn⟩
  intro hnumbers o ho hkind pos n hplace hstart hstop
  have hfound := found_of_identifier hcuts ho hkind
    (fun p hp hnumber => hnumbers p hp o ho hnumber hkind) hplace hstart hstop
  refine ⟨hfound, fun hascii => ?_⟩
  obtain ⟨hname, hchars⟩ := (hcuts.stands o ho).denotes.text_of_identifier hkind
  have hbytes : ∀ b ∈ Text.encode o.token.text, isWordByte b = true :=
    isWordByte_of_ascii (hname ▸ hchars) hascii
  exact ⟨hfound.around_iff.mpr hbytes,
    hfound.before_iff.mpr fun b hb => hbytes b (List.mem_of_mem_take hb)⟩

/-- A place within a name, and one before a sign. -/
theorem word_at_cursor_within :
    wordAround "xy" ⟨0, 1⟩ = Text.encode "xy" ∧ wordBefore "xy" ⟨0, 1⟩ = Text.encode "x" ∧
      wordBefore "=" ⟨0, 0⟩ = [] ∧ wordAround "=" ⟨0, 0⟩ = [] := by
  have hname : Token.scan "xy" = .ok [{ kind := .identifier, text := "xy", line := 1 },
      { kind := .lineBreak, text := "\n", line := 1 }] := by rfl
  have hsign : Token.scan "=" = .ok [{ kind := .equal, text := "=", line := 1 },
      { kind := .lineBreak, text := "\n", line := 1 }] := by rfl
  obtain ⟨cuts, hcut, htokens, hfound, -⟩ := word_at_cursor hname
  obtain ⟨cuts', -, htokens', -, hnothing⟩ := word_at_cursor hsign
  have hmem := fun t => mem_tokens_iff (t := t) (htokens.imp_right fun heq => ⟨_, rfl, heq⟩)
  have hmem' := fun t => mem_tokens_iff (t := t) (htokens'.imp_right fun heq => ⟨_, rfl, heq⟩)
  obtain ⟨o, ho, htoken⟩ := (hmem { kind := .identifier, text := "xy", line := 1 } nofun).mp (by simp)
  have hkind : o.token.kind = .identifier := by rw [htoken]
  have hstands := hcut.stands o ho
  -- The name takes up the whole text.
  have hspan : o.span.inBytes (Text.encode "xy") = ⟨0, 2⟩ := by
    have hlexeme := (hstands.denotes.text_of_identifier hkind).1
    have hlength := Token.Span.length_of hstands.stop_le
    have hstop : o.span.stop ≤ 2 := hstands.stop_le
    rw [← hlexeme, htoken] at hlength
    have htwo : 2 = o.span.stop - o.span.start := hlength
    have hstart : o.span.start = 0 := by omega
    have hend : o.span.stop = 2 := by omega
    rw [Token.Span.inBytes, hstart, hend]
    rfl
  have hnumbers : ∀ p ∈ cuts, p.token.kind ≠ .number := by
    intro p hp hnumber
    have hp' := (hmem p.token (by rw [hnumber]; nofun)).mpr ⟨p, hp, rfl⟩
    simp only [List.mem_cons, List.not_mem_nil, or_false] at hp'
    rcases hp' with heq | heq <;> rw [heq] at hnumber <;> cases hnumber
  obtain ⟨-, hascii⟩ := hfound (fun p hp _ _ hnumber => absurd hnumber (hnumbers p hp)) o ho hkind
    ⟨0, 1⟩ 1 rfl (by rw [hspan]; decide) (by rw [hspan]; decide)
  rw [hspan, htoken] at hascii
  obtain ⟨haround, hbefore⟩ := hascii (Token.forall_mem_of_all (by decide))
  refine ⟨haround, hbefore, hnothing ⟨0, 0⟩ 0 rfl (Nat.zero_le _) ⟨?_, ?_, ?_⟩⟩
  · intro p hp hword
    have hp' := (hmem' p.token fun hbreak => by rw [hbreak] at hword; cases hword).mpr ⟨p, hp, rfl⟩
    simp only [List.mem_cons, List.not_mem_nil, or_false] at hp'
    rcases hp' with heq | heq <;> rw [heq] at hword <;> cases hword
  · exact fun p _ _ hstring => Nat.not_lt_zero _ hstring.1
  · exact fun s _ hcomment => Nat.not_lt_zero _ hcomment.1

/-- An identifier of one letter that takes two bytes: the first one alone is found, since the second one,
taken for the character of its number, is a sign. -/
theorem word_at_cursor_accent :
    (Token.scan "é = 1").map (fun tokens => tokens.head?.map fun t => (t.kind, t.text)) =
        .ok (some (.identifier, "é")) ∧
      placeOf? "é = 1" ⟨0, 0⟩ = some 0 ∧ wordAround "é = 1" ⟨0, 0⟩ = [0xc3] ∧
      wordAround "é = 1" ⟨0, 0⟩ ≠ Text.encode "é" := by
  refine ⟨by rfl, ?_⟩
  decide +kernel

end LineScript.Editor
