/-
# Written data are read as tokens

The text of plain data is a script: words, numerals, quoted texts and symbols, with a comma and a space
between the elements of a list and the members of an object. What stands behind such a piece of text never
goes on with its last token, so the text of a whole is read piece by piece.

This takes data whose texts are made of characters that a script can spell out, whose numbers are written
without an exponent and read back, and whose keys are names.
-/

import LineScript.Proofs.PrintedTokens
import LineScript.Proofs.Rendering
import LineScript.Proofs.Signatures
import LineScript.Proofs.SignedNumbers
import LineScript.Proofs.UnfoldedValues

namespace LineScript.Token

/-! ## Characters that spell tokens -/

/-- Characters that are read as these tokens, with whatever stands behind them apart. -/
structure Spells (cs : List Char) (tokens : List Token) : Prop where
  null_notMem : '\x00' ∉ cs
  lexes : ∀ {more rest}, Apart more → Lexes false more rest → Lexes false (cs ++ more) (tokens ++ rest)

namespace Spells

variable {cs cs' : List Char} {tokens tokens' : List Token}

theorem append (h : Spells cs tokens) (h' : Spells cs' tokens')
    (hapart : ∀ more, Apart more → Apart (cs' ++ more)) : Spells (cs ++ cs') (tokens ++ tokens') := by
  refine ⟨fun hmem => ?_, fun {more rest} hmore hlexes => ?_⟩
  · exact (List.mem_append.mp hmem).elim h.null_notMem h'.null_notMem
  · rw [List.append_assoc, List.append_assoc]
    exact h.lexes (hapart more hmore) (h'.lexes hmore hlexes)

theorem of_denotes {t : Token} (h : Denotes cs t) (hkind : t.kind ≠ .lineBreak)
    (hnull : '\x00' ∉ cs) : Spells cs [t.unplaced] :=
  ⟨hnull, fun hmore hlexes => hlexes.token h hkind fun _ _ _ => hmore⟩

/-- A symbol of one character, with anything behind it. -/
theorem symbol {c : Char} {kind : TokenKind} (hc : symbol? c = some kind) (h : Spells cs tokens) :
    Spells (c :: cs) (.ofKind kind 0 :: tokens) := by
  obtain ⟨hsymbol, hlabel⟩ := symbol_of_symbol? hc
  have hchars : [c] = kind.label.toList := by rw [← hlabel, String.toList_singleton]
  refine ⟨fun hmem => ?_, fun {more rest} hmore hlexes => ?_⟩
  · rcases List.mem_cons.mp hmem with hnull | hmem
    · rw [← hnull] at hc
      cases hc
    · exact h.null_notMem hmem
  · have hdenotes := Denotes.symbol 0 hsymbol
    rw [← hchars] at hdenotes
    refine (h.lexes hmore hlexes).token hdenotes (Layout.kind_of_symbol hsymbol).2 fun d hd hnone => ?_
    cases hd
    rw [hc] at hnone
    cases hnone

theorem nil : Spells [] [] := ⟨List.not_mem_nil, fun _ hlexes => hlexes⟩

theorem space (h : Spells cs tokens) : Spells (' ' :: cs) tokens := by
  refine ⟨fun hmem => ?_, fun {more rest} hmore hlexes => ?_⟩
  · rcases List.mem_cons.mp hmem with hnull | hmem
    · cases hnull
    · exact h.null_notMem hmem
  · exact @Lexes.gap _ _ _ (h.lexes hmore hlexes) [' '] (by decide)

end Spells

/-! ## Rows -/

/-- Rows of tokens with commas between them. -/
def separated : List (List Token) → List Token
  | [] => []
  | [row] => row
  | row :: next :: rows => row ++ .ofKind .comma 0 :: separated (next :: rows)

theorem toList_joined_cons_cons (first next : String) (rest : List String) :
    (Text.joined ", " (first :: next :: rest)).toList =
      first.toList ++ ',' :: ' ' :: (Text.joined ", " (next :: rest)).toList := by
  rw [Text.toList_joined_cons, Text.toList_joined_cons]
  rfl

theorem spells_joined {texts : List String} {rows : List (List Token)}
    (h : List.Forall₂ (fun s row => Spells s.toList row) texts rows) :
    Spells (Text.joined ", " texts).toList (separated rows) := by
  induction h with
  | nil => exact .nil
  | @cons s row texts rows hrow hrows ih =>
      cases hrows with
      | nil => exact hrow
      | @cons s' row' texts rows _ _ =>
          rw [toList_joined_cons_cons, separated]
          exact hrow.append (ih.space.symbol rfl) fun more _ => apart_cons (by decide) _

/-! ## Names and quoted texts -/

/-- How a quoted text is written: with everything escaped that may be, but for the other quotes. -/
def inQuotes : Layout := { escaping := fun c => c ≠ '\x27' }

theorem valid_inQuotes : inQuotes.Valid := by
  refine ⟨.inl rfl, by simp [inQuotes], ?_, ?_, by decide⟩ <;>
    simp only [inQuotes, List.forall_mem_singleton]
  · exact ⟨by decide, fun _ h => by cases h⟩
  · exact fun _ h => by cases h

theorem spells_writable {t : Token} (h : Writable t) (hkind : t.kind ≠ .lineBreak) :
    Spells (inQuotes.spelled t) [t.unplaced] :=
  .of_denotes (valid_inQuotes.denotes h hkind) hkind (valid_inQuotes.null_notMem h)

theorem spells_name {key : String} (h : IsName key) : Spells key.toList [.ofName key 0] :=
  spells_writable (.name 0 h) (by simp)

theorem spells_reserved {word : String} {kind : TokenKind} (h : (word, kind) ∈ reserved)
    (hkind : kind ≠ .boolean) : Spells word.toList [{ kind := kind, text := word, line := 0 }] := by
  obtain ⟨hstring, hbreak⟩ := Layout.kind_of_reserved h
  have hspells := spells_writable (.reserved 0 h hkind) hbreak
  rw [Layout.spelled_of_ne hstring hbreak] at hspells
  exact hspells

/-- A character that a quoted text in a script can stand for: it has a form of its own, or an escape. -/
def Quotable (c : Char) : Prop := Text.isPrintable c = true ∨ c = '\n' ∨ c = '\t' ∨ c = '\r'

/-- The characters that are escaped in quoted texts. -/
def quotedEscapes : List Char := ['\x22', '\\', '\n', '\t', '\r']

theorem character_of_notMem {c : Char} (h : c ∉ quotedEscapes) : inQuotes.character c = [c] := by
  unfold Layout.character
  split
  · rename_i e hescape
    have hother : ∀ p ∈ escapes, p.2 ∉ quotedEscapes → p.2 = '\x27' := by decide
    have hquote : c = '\x27' := hother _ (mem_escapes_of_escape? hescape) h
    rw [hquote]
    exact if_neg (by decide)
  · rfl

theorem quoteChar_of_notMem {c : Char} (hprintable : Text.isPrintable c = true)
    (h : c ∉ quotedEscapes) : Text.quoteChar c = [c] := by
  have hcode : ∀ n ∈ [0x22, 0x5c, 0x07, 0x08, 0x0c, 0x0a, 0x0d, 0x09, 0x0b], c.toNat ≠ n := by
    have hall : ∀ n ∈ [0x22, 0x5c, 0x07, 0x08, 0x0c, 0x0a, 0x0d, 0x09, 0x0b],
        Char.ofNat n ∈ quotedEscapes ∨ Text.isPrintable (Char.ofNat n) = false := by decide
    rintro n hn rfl
    rcases hall _ hn with hmem | hnot
    · rw [Char.ofNat_toNat] at hmem
      exact h hmem
    · rw [Char.ofNat_toNat, hprintable] at hnot
      cases hnot
  unfold Text.quoteChar
  split
  all_goals first | exact absurd ‹_› (hcode _ (by decide)) | exact if_pos hprintable

theorem quoteChar_eq {c : Char} (h : Quotable c) : Text.quoteChar c = inQuotes.character c := by
  by_cases hescaped : c ∈ quotedEscapes
  · simp only [quotedEscapes, List.mem_cons, List.not_mem_nil, or_false] at hescaped
    rcases hescaped with rfl | rfl | rfl | rfl | rfl <;> rfl
  · have hprintable : Text.isPrintable c = true := by
      rcases h with h | rfl | rfl | rfl
      · exact h
      all_goals exact absurd (by decide) hescaped
    rw [quoteChar_of_notMem hprintable hescaped, character_of_notMem hescaped]

/-- The token of a string literal. -/
def ofString (s : String) : Token := { kind := .string, value := .ofString s, text := s, line := 0 }

theorem spells_quote {s : String} (h : ∀ c ∈ s.toList, Quotable c) :
    Spells (Text.quote s).toList [ofString s] := by
  have hnull : '\x00' ∉ s.toList := fun hmem => by
    rcases h _ hmem with hnull | hnull | hnull | hnull <;> cases hnull
  have hchars : (Text.quote s).toList = inQuotes.spelled (ofString s) := by
    have hbody : s.toList.flatMap Text.quoteChar = s.toList.flatMap inQuotes.character :=
      List.flatMap_congr fun c hc => quoteChar_eq (h c hc)
    rw [Text.quote, String.toList_ofList, hbody]
    rfl
  rw [hchars]
  exact spells_writable (.string 0 hnull) (by simp [ofString])

end LineScript.Token

namespace LineScript.Machine.Data

open LineScript.Token

/-! ## Data as tokens -/

/-- Whether a number is written with a minus. -/
def isNegative (x : Float) : Bool := (Number.written x).toList.head? = some '-'

/-- The token of a numeral. -/
def numeralToken (x : Float) (digits : List Char) : Token :=
  { kind := .number, value := .ofNumber x, text := String.ofList digits, line := 0 }

/-- The tokens of a number. There are no negative constants: a minus negates what stands behind it. -/
def numberTokens (x : Float) : List Token :=
  if isNegative x then [.ofKind .minus 0, numeralToken (-x) (Number.written x).toList.tail]
  else [numeralToken x (Number.written x).toList]

mutual

/-- The tokens of data, on no line. -/
def tokens : Data → List Token
  | .null => [.ofKind .null 0]
  | .number x => numberTokens x
  | .string s => [ofString s]
  | .boolean b => [{ kind := .boolean, value := .ofBool b, text := toString b, line := 0 }]
  | .list items => .ofKind .leftBracket 0 :: separated (rows items) ++ [.ofKind .rightBracket 0]
  | .object members =>
    .ofKind .leftBrace 0 :: separated (memberRows members) ++ [.ofKind .rightBrace 0]

/-- The tokens of the elements of a list. -/
def rows : List Data → List (List Token)
  | [] => []
  | item :: rest => tokens item :: rows rest

/-- The tokens of the members of an object. -/
def memberRows : List (String × Data) → List (List Token)
  | [] => []
  | (key, member) :: rest => (.ofName key 0 :: .ofKind .equal 0 :: tokens member) :: memberRows rest

end

/-- A number whose text reads back as the number: it has no exponent, and nothing is lost. -/
structure Numeric (x : Float) : Prop where
  positional : Number.Positional x
  reads : Number.read? (Number.written x) = some x

/-- Data that scripts can write. -/
inductive Expressible : Data → Prop where
  | null : Expressible .null
  | number {x : Float} : Numeric x → Expressible (.number x)
  | string {s : String} : (∀ c ∈ s.toList, Quotable c) → Expressible (.string s)
  | boolean (b : Bool) : Expressible (.boolean b)
  | list {items : List Data} : (∀ item ∈ items, Expressible item) → Expressible (.list items)
  | object {members : List (String × Data)} : (members.map (·.1)).Nodup →
      (∀ m ∈ members, IsName m.1) → (∀ m ∈ members, Expressible m.2) → Expressible (.object members)

theorem isNegative_eq {x : Float} {negative : Bool} {whole fraction : List Char} (hwhole : whole ≠ [])
    (hdigits : ∀ c ∈ whole ++ fraction, isDigit c = true)
    (hwritten : Number.written x = String.ofList (Number.signed negative (numeral whole fraction))) :
    isNegative x = negative := by
  obtain ⟨c, rest, rfl⟩ := List.exists_cons_of_ne_nil hwhole
  have hcons : numeral (c :: rest) fraction = c :: numeral rest fraction := rfl
  rw [isNegative, hwritten, String.toList_ofList, hcons]
  cases negative with
  | true => rfl
  | false =>
      have hminus : c ≠ '-' := by
        rintro rfl
        exact absurd (hdigits '-' List.mem_cons_self) (by decide)
      simpa [Number.signed] using hminus

/-- What the text of a number is, with and without a minus, and what its numeral is read as. -/
theorem Numeric.numeral_cases {x : Float} (h : Numeric x) :
    ∃ whole fraction, whole ≠ [] ∧ (∀ c ∈ whole ++ fraction, isDigit c = true) ∧
      ((isNegative x = false ∧ (Number.written x).toList = numeral whole fraction ∧
          Number.Dyadic.nearest? false (decimal (whole ++ fraction)) (10 ^ fraction.length) = some x) ∨
        isNegative x = true ∧ (Number.written x).toList = '-' :: numeral whole fraction ∧
          Number.Dyadic.nearest? false (decimal (whole ++ fraction)) (10 ^ fraction.length) = some (-x) ∧
          -(-x) = x) := by
  obtain ⟨negative, whole, fraction, hwhole, hdigits, hwritten⟩ := h.positional.exists_written h.reads
  have hnegative := isNegative_eq hwhole hdigits hwritten
  have hread := h.reads
  rw [hwritten, Number.read?_signed hwhole hdigits] at hread
  refine ⟨whole, fraction, hwhole, hdigits, ?_⟩
  rw [hwritten, String.toList_ofList]
  cases negative with
  | false => exact .inl ⟨hnegative, rfl, hread⟩
  | true =>
      have hden : 10 ^ fraction.length ≠ 0 := Nat.ne_of_gt (Nat.pow_pos (by decide))
      exact .inr ⟨hnegative, rfl, Number.nearest?_of_signed hden hread⟩

theorem spells_numeral {whole fraction : List Char} {x : Float} (hwhole : whole ≠ [])
    (hdigits : ∀ c ∈ whole ++ fraction, isDigit c = true)
    (hvalue : Number.Dyadic.nearest? false (decimal (whole ++ fraction)) (10 ^ fraction.length) =
      some x) :
    Spells (numeral whole fraction) [numeralToken x (numeral whole fraction)] := by
  have hspells := spells_writable (.number 0 hwhole hdigits hvalue) (by simp)
  rw [Layout.spelled_of_ne (by simp) (by simp), String.toList_ofList] at hspells
  exact hspells

theorem spells_number {x : Float} (h : Numeric x) :
    Spells (Number.written x).toList (numberTokens x) := by
  obtain ⟨whole, fraction, hwhole, hdigits,
    ⟨hnegative, hwritten, hvalue⟩ | ⟨hnegative, hwritten, hvalue, -⟩⟩ := h.numeral_cases
  · rw [numberTokens, hnegative, if_neg Bool.false_ne_true, hwritten]
    exact spells_numeral hwhole hdigits hvalue
  · rw [numberTokens, hnegative, if_pos rfl, hwritten]
    exact (spells_numeral hwhole hdigits hvalue).symbol rfl

theorem spells_boolean (b : Bool) : Spells (Data.boolean b).text.toList (Data.boolean b).tokens := by
  have htext : (Data.boolean b).text = toString b := by cases b <;> rfl
  rw [htext, tokens]
  exact spells_writable (.truth b 0) (by simp)

theorem spells_rows {items : List Data}
    (h : ∀ item ∈ items, Spells item.text.toList item.tokens) :
    List.Forall₂ (fun s row => Spells s.toList row) (texts items) (rows items) := by
  induction items with
  | nil => exact .nil
  | cons item rest ih =>
      obtain ⟨hitem, hrest⟩ := List.forall_mem_cons.mp h
      exact .cons hitem (ih hrest)

theorem spells_memberRows {members : List (String × Data)} (hkeys : ∀ m ∈ members, IsName m.1)
    (h : ∀ m ∈ members, Spells m.2.text.toList m.2.tokens) :
    List.Forall₂ (fun s row => Spells s.toList row) (memberTexts members) (memberRows members) := by
  induction members with
  | nil => exact .nil
  | cons m rest ih =>
      obtain ⟨key, member⟩ := m
      obtain ⟨hkey, hkeys⟩ := List.forall_mem_cons.mp hkeys
      obtain ⟨hmember, hrest⟩ := List.forall_mem_cons.mp h
      refine .cons ?_ (ih hkeys hrest)
      have hbehind : Spells (' ' :: '=' :: ' ' :: member.text.toList) (.ofKind .equal 0 :: member.tokens) :=
        .space (.symbol rfl hmember.space)
      rw [String.toList_append, String.toList_append, List.append_assoc]
      exact (spells_name hkey).append hbehind fun _ _ => apart_cons (by decide) _

/-- A bracket around what spells its content. -/
theorem spells_enclosed {opening closing : Char} {left right : TokenKind} {cs : List Char}
    {tokens : List Token} (hopening : symbol? opening = some left) (hclosing : symbol? closing = some right)
    (hapart : isNameChar closing = false ∧ closing ≠ '.' ∧ closing ≠ '=') (h : Spells cs tokens) :
    Spells (opening :: (cs ++ [closing])) (.ofKind left 0 :: tokens ++ [.ofKind right 0]) :=
  (h.append (Spells.nil.symbol hclosing) fun _ _ => apart_cons hapart _).symbol hopening

/-- The text of data is read as their tokens. -/
theorem Expressible.spells {d : Data} (h : d.Expressible) : Spells d.text.toList d.tokens := by
  induction h with
  | null => exact spells_reserved (by decide) (by decide)
  | number hnumeric => exact spells_number hnumeric
  | string hquotable => exact spells_quote hquotable
  | boolean b => exact spells_boolean b
  | list _ ih =>
      rw [text, tokens, String.toList_append, String.toList_append]
      exact spells_enclosed rfl rfl (by decide) (spells_joined (spells_rows ih))
  | object _ hkeys _ ih =>
      rw [text, tokens, String.toList_append, String.toList_append]
      exact spells_enclosed rfl rfl (by decide) (spells_joined (spells_memberRows hkeys ih))

/-- A line that returns data is read as the tokens of the data between a `return` and the end of the
line. -/
theorem Expressible.scan_return {d : Data} (h : d.Expressible) :
    ∃ found, scan ("return " ++ d.text) = .ok found ∧
      found.map unplaced = .ofKind .return_ 0 :: (d.tokens ++ [lineEnd]) := by
  have hreturn : Spells "return".toList [.ofKind .return_ 0] :=
    spells_reserved (by decide) (by decide)
  have hall := hreturn.append h.spells.space fun _ _ => apart_cons (by decide) _
  have hlexes := hall.lexes apart_nil lexes_unended
  rw [List.append_nil] at hlexes
  have htext : "return " ++ d.text = String.ofList ("return".toList ++ ' ' :: d.text.toList) := by
    rw [← String.toList_inj]
    simp
  rw [htext]
  exact scan_of_lexes hlexes hall.null_notMem

end LineScript.Machine.Data
