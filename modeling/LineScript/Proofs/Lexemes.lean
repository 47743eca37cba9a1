/-
# What characters denote

The tokens of the language, described without the scanner: which stretches of characters denote a
token, and which token that is. The number of a numeral is the double nearest to the decimal fraction it
writes, and the content of a string literal is what stands between its quotes, with the escapes
replaced.

The scanner looks at a character and then takes the longest stretch from it on that denotes a token.
Only line breaks, with the blanks behind them, reach over a line.
-/

import LineScript.Proofs.Blanks

namespace LineScript.Token

/-! ## Lexemes -/

/-- The token, wherever it stands. -/
def unplaced (t : Token) : Token := { t with line := 0 }

/-- The characters that are written with a backslash before another one. -/
def escapes : List (Char × Char) :=
  [('n', '\n'), ('t', '\t'), ('r', '\r'), ('\\', '\\'), ('\x22', '\x22'), ('\x27', '\x27')]

/-- What may stand between the quotes of a string literal, and the content it stands for. -/
inductive Quoted (quote : Char) : List Char → List Char → Prop where
  | nil : Quoted quote [] []
  | plain {c : Char} {body content : List Char} : c ≠ quote → c ≠ '\\' → c ≠ '\n' →
      Quoted quote body content → Quoted quote (c :: body) (c :: content)
  | escape {c e : Char} {body content : List Char} : (c, e) ∈ escapes →
      Quoted quote body content → Quoted quote ('\\' :: c :: body) (e :: content)

/-- The natural number that decimal digits write. -/
def decimal (digits : List Char) : Nat :=
  digits.foldl (fun n c => n * 10 + (c.toNat - 48)) 0

/-- A number is written with a point only when digits follow it. -/
def numeral (whole fraction : List Char) : List Char :=
  whole ++ if fraction = [] then [] else '.' :: fraction

/-- The kinds of tokens that are written as their label. -/
def symbols : List TokenKind :=
  [.leftParen, .rightParen, .leftBracket, .rightBracket, .leftBrace, .rightBrace, .comma, .dot, .equal,
   .notEqual, .less, .lessEqual, .greater, .greaterEqual, .plus, .minus, .star, .slash]

/-- What stretches of characters denote as tokens, on any line. -/
inductive Denotes : List Char → Token → Prop where
  | lineBreak {blank : List Char} (line : Int) : Blank [] blank →
      Denotes ('\n' :: blank) { kind := .lineBreak, text := "\n", line := line }
  | symbol {kind : TokenKind} (line : Int) : kind ∈ symbols →
      Denotes kind.label.toList { kind := kind, text := kind.label, line := line }
  | truth (b : Bool) (line : Int) :
      Denotes (toString b).toList
        { kind := .boolean, value := .ofBool b, text := toString b, line := line }
  | reserved {text : String} {kind : TokenKind} (line : Int) : (text, kind) ∈ reserved →
      kind ≠ .boolean → Denotes text.toList { kind := kind, text := text, line := line }
  | name {c : Char} {rest : List Char} (line : Int) : isNameStart c = true →
      (∀ d ∈ rest, isNameChar d = true) → String.ofList (c :: rest) ∉ reservedWords →
      Denotes (c :: rest) { kind := .identifier, text := String.ofList (c :: rest), line := line }
  | number {whole fraction : List Char} {x : Float} (line : Int) : whole ≠ [] →
      (∀ d ∈ whole ++ fraction, isDigit d = true) →
      Number.Dyadic.nearest? false (decimal (whole ++ fraction)) (10 ^ fraction.length) = some x →
      Denotes (numeral whole fraction)
        { kind := .number, value := .ofNumber x, text := String.ofList (numeral whole fraction),
          line := line }
  | string {quote : Char} {body content : List Char} (line : Int) : quote = '\x22' ∨ quote = '\x27' →
      Quoted quote body content →
      Denotes (quote :: body ++ [quote])
        { kind := .string, value := .ofString (String.ofList content),
          text := String.ofList content, line := line }

/-! ## Classes of characters -/

theorem mem_digits_of_isDigit {c : Char} (h : isDigit c = true) : c ∈ "0123456789".toList := by
  simp only [isDigit, Bool.and_eq_true, decide_eq_true_eq] at h
  have hleast : 48 ≤ c.toNat := h.1
  have hmost : c.toNat ≤ 57 := h.2
  obtain hc | hc | hc | hc | hc | hc | hc | hc | hc | hc : c.toNat = 48 ∨ c.toNat = 49 ∨
      c.toNat = 50 ∨ c.toNat = 51 ∨ c.toNat = 52 ∨ c.toNat = 53 ∨ c.toNat = 54 ∨ c.toNat = 55 ∨
      c.toNat = 56 ∨ c.toNat = 57 := by omega
  all_goals
    rw [← Char.ofNat_toNat c, hc]
    decide

/-- The characters that begin a token of their own kind. -/
def marks : List Char := "\n()[]\x7b\x7d,.=+-*/<>!\x22\x27".toList

/-- What each of some characters has, checked one after another: there are too many characters to
check them all. -/
theorem forall_mem_of_all {P : Char → Prop} [DecidablePred P] {cs : List Char}
    (h : cs.all (fun c => decide (P c)) = true) : ∀ c ∈ cs, P c :=
  fun c hc => of_decide_eq_true (List.all_eq_true.mp h c hc)

theorem not_isNameChar_of_mem_marks : ∀ c ∈ marks, isNameChar c = false :=
  forall_mem_of_all (by decide)

theorem not_isNameStart_of_mem_digits : ∀ c ∈ "0123456789".toList, isNameStart c = false :=
  forall_mem_of_all (by decide)

theorem isNameStart_of_mem_toString (b : Bool) : ∀ c ∈ (toString b).toList, isNameStart c = true := by
  cases b with
  | true => exact forall_mem_of_all (by decide)
  | false => exact forall_mem_of_all (by decide)

theorem isNameStart_of_mem_reserved {e : String × TokenKind} (h : e ∈ reserved) :
    ∀ c ∈ e.1.toList, isNameStart c = true := by
  have hall : ∀ e ∈ reserved, e.1.toList.all isNameStart = true := by decide
  exact List.all_eq_true.mp (hall e h)

theorem isNameChar_of_isNameStart {c : Char} (h : isNameStart c = true) : isNameChar c = true := by
  simp only [isNameStart, isNameChar, Bool.or_eq_true] at h ⊢
  exact h.elim (fun h => .inl (.inl h)) .inr

theorem isNameChar_of_isDigit {c : Char} (h : isDigit c = true) : isNameChar c = true := by
  simp [isNameChar, h]

theorem symbol?_of_notMem_marks {c : Char} (h : c ∉ marks) : symbol? c = none := by
  unfold symbol?
  split
  all_goals first | rfl | exact absurd (by decide) h

theorem symbol_of_symbol? {c : Char} {kind : TokenKind} (h : symbol? c = some kind) :
    kind ∈ symbols ∧ String.singleton c = kind.label := by
  unfold symbol? at h
  split at h <;> cases h <;> decide

/-! ## Numbers -/

theorem digit?_of_isDigit {c : Char} (h : isDigit c = true) :
    Number.Base.ten.digit? c = some (c.toNat - 48) ∧ c ≠ '_' ∧ c ≠ '.' := by
  have hall : ∀ d ∈ "0123456789".toList,
      Number.Base.ten.digit? d = some (d.toNat - 48) ∧ d ≠ '_' ∧ d ≠ '.' :=
    forall_mem_of_all (by decide)
  exact hall c (mem_digits_of_isDigit h)

theorem read_digits {digits : List Char} (h : ∀ d ∈ digits, isDigit d = true) (m : Number.Mantissa)
    (rest : List Char) :
    m.read .ten (digits ++ rest) =
      Number.Mantissa.read .ten
        { m with
          value := digits.foldl (fun n c => n * 10 + (c.toNat - 48)) m.value
          places := if m.point then m.places + digits.length else m.places
          some := m.some || !digits.isEmpty } rest := by
  induction digits generalizing m with
  | nil => cases m; simp
  | cons c digits ih =>
      obtain ⟨hvalue, hline, hpoint⟩ := digit?_of_isDigit (h c List.mem_cons_self)
      rw [List.cons_append, Number.Mantissa.read, if_neg hline, if_neg (by simp [hpoint]), hvalue]
      dsimp only
      rw [ih (fun d hd => h d (.tail _ hd))]
      congr 1
      cases m.point <;> simp [Number.Base.size, Nat.add_comm, Nat.add_left_comm]

/-- No name of a number begins with a digit. -/
theorem named?_digit {c : Char} (h : isDigit c = true) (signed negative : Bool) (rest : List Char) :
    Number.named? signed negative (c :: rest) = none := by
  have hhead : ∀ d ∈ "0123456789".toList, d.toLower ≠ 'i' ∧ d.toLower ≠ 'n' :=
    forall_mem_of_all (by decide)
  obtain ⟨hi, hn⟩ := hhead c (mem_digits_of_isDigit h)
  have hne : ∀ (d : Char) (name : String), name.toList.head? = some d → c.toLower ≠ d →
      String.ofList ((c :: rest).map Char.toLower) ≠ name := by
    rintro d _ hd hc rfl
    rw [String.toList_ofList, List.map_cons, List.head?_cons] at hd
    exact hc (Option.some.inj hd)
  have hinf := hne 'i' "inf" rfl hi
  have hinfinity := hne 'i' "infinity" rfl hi
  have hnan := hne 'n' "nan" rfl hn
  unfold Number.named?
  dsimp only
  rw [decide_eq_false hinf, decide_eq_false hinfinity, decide_eq_false hnan]
  rfl

/-- The digits of a numeral, with or without a point between them. -/
theorem read_numeral {whole fraction : List Char} (hdigits : ∀ d ∈ whole ++ fraction, isDigit d = true) :
    Number.Mantissa.read .ten {} (numeral whole fraction) =
      ({ value := decimal (whole ++ fraction), places := fraction.length,
         some := !(whole ++ fraction).isEmpty, point := !fraction.isEmpty }, []) := by
  have hwhole : ∀ d ∈ whole, isDigit d = true := fun d hd => hdigits d (List.mem_append_left _ hd)
  have hfraction : ∀ d ∈ fraction, isDigit d = true :=
    fun d hd => hdigits d (List.mem_append_right _ hd)
  unfold numeral
  rw [read_digits hwhole]
  by_cases hempty : fraction = []
  · subst hempty
    simp [Number.Mantissa.read, decimal]
  · rw [if_neg hempty, Number.Mantissa.read, if_neg (by decide), if_pos (by simp),
      ← List.append_nil fraction, read_digits hfraction]
    cases whole <;> simp [Number.Mantissa.read, decimal, List.foldl_append, hempty]

theorem mem_numeral {whole fraction : List Char} (hdigits : ∀ d ∈ whole ++ fraction, isDigit d = true)
    {c : Char} (h : c ∈ numeral whole fraction) : c = '.' ∨ isDigit c = true := by
  unfold numeral at h
  split at h
  · rw [List.append_nil] at h
    exact .inr (hdigits c (List.mem_append_left _ h))
  · rcases List.mem_append.mp h with hmem | hmem
    · exact .inr (hdigits c (List.mem_append_left _ hmem))
    · rcases List.mem_cons.mp hmem with hpoint | hmem
      · exact .inl hpoint
      · exact .inr (hdigits c (List.mem_append_right _ hmem))

theorem unsigned?_numeral (negative : Bool) {whole fraction : List Char} (hwhole : whole ≠ [])
    (hdigits : ∀ d ∈ whole ++ fraction, isDigit d = true) :
    Number.unsigned? negative (numeral whole fraction) =
      Number.Dyadic.nearest? negative (decimal (whole ++ fraction)) (10 ^ fraction.length) := by
  have hother : ∀ c ∈ ['x', 'X', '_'], c ∉ numeral whole fraction := by
    intro c hc hmem
    have hplain : ∀ c ∈ ['x', 'X', '_'], c ≠ '.' ∧ isDigit c = false :=
      forall_mem_of_all (by decide)
    obtain ⟨hpoint, hdigit⟩ := hplain c hc
    rcases mem_numeral hdigits hmem with h | h
    · exact hpoint h
    · rw [h] at hdigit
      cases hdigit
  have hline : (numeral whole fraction).contains '_' = false := by
    simpa using hother '_' (by simp)
  unfold Number.unsigned?
  split
  rename_i base body hbody
  split at hbody
  · rename_i heq
    exact absurd (heq ▸ by simp) (hother 'x' (by simp))
  · rename_i heq
    exact absurd (heq ▸ by simp) (hother 'X' (by simp))
  · cases hbody
    rw [read_numeral hdigits]
    have hsome : (whole ++ fraction).isEmpty = false := by
      simp [hwhole]
    simp only [hsome, hline, Number.Mantissa.round?, Bool.not_false, Bool.not_true, Bool.false_and,
      Bool.false_eq_true, if_false, if_true]
    cases fraction with
    | nil => simp [Number.tenTo]
    | cons d fraction =>
        rw [if_neg (by rw [List.length_cons]; omega), Int.zero_sub, Int.neg_neg, Int.toNat_natCast]
        rfl

/-- A numeral is read as the double nearest to the decimal fraction it writes. -/
theorem read?_numeral {whole fraction : List Char} (hwhole : whole ≠ [])
    (hdigits : ∀ d ∈ whole ++ fraction, isDigit d = true) :
    Number.read? (String.ofList (numeral whole fraction)) =
      Number.Dyadic.nearest? false (decimal (whole ++ fraction)) (10 ^ fraction.length) := by
  obtain ⟨c, rest, rfl⟩ := List.exists_cons_of_ne_nil hwhole
  have hdigit := hdigits c (by simp)
  have hcons : numeral (c :: rest) fraction = c :: numeral rest fraction := rfl
  have hsign : ∀ d ∈ "0123456789".toList, d ≠ '+' ∧ d ≠ '-' := forall_mem_of_all (by decide)
  obtain ⟨hplus, hminus⟩ := hsign c (mem_digits_of_isDigit hdigit)
  rw [← unsigned?_numeral false hwhole hdigits, hcons]
  unfold Number.read?
  rw [String.toList_ofList]
  split
  rename_i signed negative cs hcs
  split at hcs
  · rename_i heq
    exact absurd (List.cons.inj heq).1 hplus
  · rename_i heq
    exact absurd (List.cons.inj heq).1 hminus
  · cases hcs
    rw [named?_digit hdigit]

/-- The numeral at the front of a text. -/
theorem exists_numeral {c : Char} (h : isDigit c = true) (rest : List Char) :
    ∃ whole fraction, whole ≠ [] ∧ (∀ d ∈ whole ++ fraction, isDigit d = true) ∧
      (numberBody (c :: rest)).1 = numeral whole fraction ∧
      c :: rest = numeral whole fraction ++ (numberBody (c :: rest)).2 := by
  have hwhole : (c :: rest).takeWhile isDigit ≠ [] := by
    rw [List.takeWhile_cons_of_pos h]
    exact List.cons_ne_nil _ _
  have hdigits : ∀ cs : List Char, ∀ d ∈ cs.takeWhile isDigit, isDigit d = true :=
    fun _ => List.all_eq_true.mp List.all_takeWhile
  have happend := List.takeWhile_append_dropWhile (p := isDigit) (l := c :: rest)
  unfold numberBody
  dsimp only
  split
  · rename_i d more heq
    rw [heq] at happend
    split
    · rename_i hd
      have hfraction : (d :: more).takeWhile isDigit ≠ [] := by
        rw [List.takeWhile_cons_of_pos hd]
        exact List.cons_ne_nil _ _
      refine ⟨_, (d :: more).takeWhile isDigit, hwhole, ?_, ?_, ?_⟩
      · intro e he
        exact (List.mem_append.mp he).elim (hdigits _ e) (hdigits _ e)
      · rw [numeral, if_neg hfraction]
      · rw [numeral, if_neg hfraction, List.append_assoc, List.cons_append,
          List.takeWhile_append_dropWhile, happend]
    · refine ⟨_, [], hwhole, by simpa using hdigits _, ?_, ?_⟩
      · rw [numeral, if_pos rfl, List.append_nil]
      · rw [numeral, if_pos rfl, List.append_nil, happend]
  · refine ⟨_, [], hwhole, by simpa using hdigits _, ?_, ?_⟩
    · rw [numeral, if_pos rfl, List.append_nil]
    · rw [numeral, if_pos rfl, List.append_nil, happend]

theorem length_numberBody_le_dropWhile (cs : List Char) :
    (numberBody cs).2.length ≤ (cs.dropWhile isDigit).length := by
  unfold numberBody
  dsimp only
  split
  · rename_i d more heq
    split
    · have hmore := (List.dropWhile_suffix isDigit (l := d :: more)).length_le
      rw [heq, List.length_cons]
      exact Nat.le_succ_of_le hmore
    · exact Nat.le_of_eq (by rw [heq])
  · exact Nat.le_refl _

/-- All of a numeral is read as one number. -/
theorem length_numberBody_numeral_le {whole fraction : List Char}
    (hdigits : ∀ d ∈ whole ++ fraction, isDigit d = true) (more : List Char) :
    (numberBody (numeral whole fraction ++ more)).2.length ≤ more.length := by
  have hwhole : ∀ d ∈ whole, isDigit d = true := fun d hd => hdigits d (List.mem_append_left _ hd)
  have hmore := (List.dropWhile_suffix isDigit (l := more)).length_le
  cases fraction with
  | nil =>
      have hbody := length_numberBody_le_dropWhile (whole ++ more)
      rw [List.dropWhile_append_of_pos hwhole] at hbody
      rw [numeral, if_pos rfl, List.append_nil]
      exact Nat.le_trans hbody hmore
  | cons d fraction =>
      have hd := hdigits d (by simp)
      have hfraction : ∀ e ∈ d :: fraction, isDigit e = true :=
        fun e he => hdigits e (List.mem_append_right _ he)
      rw [numeral, if_neg (List.cons_ne_nil _ _), List.append_assoc]
      unfold numberBody
      dsimp only [List.cons_append]
      rw [List.dropWhile_append_of_pos hwhole, List.dropWhile_cons_of_neg (by decide)]
      simp only [hd, if_true]
      rw [← List.cons_append, List.dropWhile_append_of_pos hfraction]
      exact hmore

/-! ## String literals -/

theorem escaped?_eq_some_iff (c e : Char) : escaped? c = some e ↔ (c, e) ∈ escapes := by
  constructor
  · intro h
    unfold escaped? at h
    split at h
    · cases h
      simp_all [escapes]
    · split at h
      · cases h
        simp_all [escapes]
      · split at h
        · cases h
          simp_all [escapes]
        · split at h
          · rename_i hself
            cases h
            simp only [Bool.or_eq_true, decide_eq_true_eq] at hself
            rcases hself with (rfl | rfl) | rfl <;> decide
          · cases h
  · intro h
    simp only [escapes, List.mem_cons, Prod.mk.injEq, List.not_mem_nil, or_false] at h
    rcases h with ⟨rfl, rfl⟩ | ⟨rfl, rfl⟩ | ⟨rfl, rfl⟩ | ⟨rfl, rfl⟩ | ⟨rfl, rfl⟩ | ⟨rfl, rfl⟩ <;> rfl

/-- The string literal at the front of a text. -/
theorem exists_quoted {quote : Char} {cs content rest : List Char}
    (h : stringBody quote cs = .ok (content, rest)) :
    ∃ body, cs = body ++ quote :: rest ∧ Quoted quote body content := by
  fun_induction stringBody quote cs generalizing content rest with
  | case1 => cases h
  | case2 => cases h
  | case3 c cs e he ih =>
      cases hbody : stringBody quote cs with
      | error cause =>
          rw [hbody] at h
          cases h
      | ok r =>
          rw [hbody] at h
          cases h
          obtain ⟨body, rfl, hquoted⟩ := ih hbody
          exact ⟨'\\' :: c :: body, rfl, .escape ((escaped?_eq_some_iff c e).mp he) hquoted⟩
  | case4 => cases h
  | case5 cs =>
      cases h
      exact ⟨[], rfl, .nil⟩
  | case6 => cases h
  | case7 c cs hlone hescape hquote hbreak ih =>
      have hc : c ≠ '\\' := fun h => by cases cs <;> simp_all
      cases hbody : stringBody quote cs with
      | error cause =>
          rw [hbody] at h
          cases h
      | ok r =>
          rw [hbody] at h
          cases h
          obtain ⟨body, rfl, hquoted⟩ := ih hbody
          exact ⟨c :: body, rfl, .plain hquote hc hbreak hquoted⟩

/-- What stands between quotes is read up to the second one. -/
theorem Quoted.stringBody_eq {quote : Char} {body content : List Char} (h : Quoted quote body content)
    (hquote : quote ≠ '\\') (more : List Char) :
    stringBody quote (body ++ quote :: more) = .ok (content, more) := by
  induction h with
  | nil => rw [List.nil_append, stringBody_of_ne hquote, if_pos rfl]
  | plain hne hslash hbreak _ ih =>
      rw [List.cons_append, stringBody_of_ne hslash, if_neg hne, if_neg hbreak, ih]
      rfl
  | escape hescape _ ih =>
      simp only [List.cons_append, stringBody, (escaped?_eq_some_iff _ _).mpr hescape, ih]
      rfl

/-! ## Words -/

theorem denotes_word {text : String} {c : Char} {rest : List Char} (htext : text.toList = c :: rest)
    (hstart : isNameStart c = true) (hrest : ∀ d ∈ rest, isNameChar d = true) (line : Nat) :
    Denotes text.toList (word text line) := by
  have hboolean : ∀ e ∈ reserved, e.2 = .boolean → e.1 = "true" ∨ e.1 = "false" := by decide
  have hmem : ∀ kind, reserved.lookup text = some kind → (text, kind) ∈ reserved := by
    intro kind hlookup
    obtain ⟨before, after, heq, -⟩ := List.lookup_eq_some_iff.mp hlookup
    rw [heq]
    simp
  unfold word
  split
  · rename_i hlookup
    obtain rfl | rfl : text = "true" ∨ text = "false" := hboolean _ (hmem _ hlookup) rfl
    · exact .truth true line
    · exact .truth false line
  · rename_i kind hkind hlookup
    exact .reserved line (hmem _ hlookup) (fun h => hkind h)
  · rename_i hlookup
    have hword : text ∉ reservedWords := by
      intro hword
      obtain ⟨e, he, rfl⟩ := List.mem_map.mp hword
      simpa using List.lookup_eq_none_iff.mp hlookup e he
    obtain rfl : text = String.ofList (c :: rest) := by rw [← htext, String.ofList_toList]
    rw [String.toList_ofList]
    exact .name line hstart hrest hword

theorem notMem_marks_of_isNameChar {c : Char} (h : isNameChar c = true) : c ∉ marks := by
  intro hmem
  rw [not_isNameChar_of_mem_marks c hmem] at h
  cases h

/-- A character that is no mark begins a number, a word or nothing. -/
theorem beginning_of_notMem_marks {c : Char} (h : c ∉ marks) (line : Nat) (rest : List Char) :
    beginning line c rest =
      if isDigit c then
        match Number.read? (String.ofList (numberBody (c :: rest)).1) with
        | some x =>
          .ok ⟨{ kind := .number, value := .ofNumber x,
                 text := String.ofList (numberBody (c :: rest)).1, line := line },
            (numberBody (c :: rest)).2, line⟩
        | none => .error (.numberTooLarge (String.ofList (numberBody (c :: rest)).1))
      else if isNameStart c then
        .ok ⟨word (String.ofList (c :: rest.takeWhile isNameChar)) line, rest.dropWhile isNameChar,
          line⟩
      else .error (.unexpectedCharacter c) := by
  have hne : ∀ d ∈ marks, c ≠ d := fun d hd heq => h (heq ▸ hd)
  have hquote : ¬(c = '\x22' || c = '\x27') = true := by
    simp [hne '\x22' (by decide), hne '\x27' (by decide)]
  unfold beginning
  rw [if_neg (hne _ (by decide)), symbol?_of_notMem_marks h]
  dsimp only
  rw [if_neg (hne _ (by decide)), if_neg (hne _ (by decide)), if_neg (hne _ (by decide))]
  exact if_neg hquote

/-- A name is read with all the characters that may belong to it. -/
theorem beginning_of_isNameStart {c : Char} (h : isNameStart c = true) (line : Nat)
    (rest : List Char) :
    beginning line c rest =
      .ok ⟨word (String.ofList (c :: rest.takeWhile isNameChar)) line, rest.dropWhile isNameChar,
        line⟩ := by
  have hdigit : ¬isDigit c = true := by
    intro hdigit
    have hstart := not_isNameStart_of_mem_digits c (mem_digits_of_isDigit hdigit)
    rw [h] at hstart
    cases hstart
  rw [beginning_of_notMem_marks (notMem_marks_of_isNameChar (isNameChar_of_isNameStart h)),
    if_neg hdigit, if_pos h]

theorem beginning_of_isDigit {c : Char} (h : isDigit c = true) (line : Nat) (rest : List Char) :
    beginning line c rest =
      match Number.read? (String.ofList (numberBody (c :: rest)).1) with
      | some x =>
        .ok ⟨{ kind := .number, value := .ofNumber x,
               text := String.ofList (numberBody (c :: rest)).1, line := line },
          (numberBody (c :: rest)).2, line⟩
      | none => .error (.numberTooLarge (String.ofList (numberBody (c :: rest)).1)) := by
  rw [beginning_of_notMem_marks (notMem_marks_of_isNameChar (isNameChar_of_isDigit h)), if_pos h]

theorem beginning_of_quote {c : Char} (h : c = '\x22' ∨ c = '\x27') (line : Nat) (rest : List Char) :
    beginning line c rest =
      (stringBody c rest).map fun (content, rest) =>
        ⟨{ kind := .string, value := .ofString (String.ofList content), text := String.ofList content,
           line := line }, rest, line⟩ := by
  rcases h with rfl | rfl
  · rfl
  · rfl

/-! ## What is read is denoted -/

theorem symbol?_ne_lineBreak {c : Char} {kind : TokenKind} (h : symbol? c = some kind) :
    kind ≠ .lineBreak := by
  unfold symbol? at h
  split at h <;> cases h <;> decide

theorem kind_word_ne_lineBreak (text : String) (line : Nat) : (word text line).kind ≠ .lineBreak := by
  have hreserved : ∀ e ∈ reserved, e.2 ≠ .lineBreak := by decide
  unfold word
  split
  · exact nofun
  · rename_i kind _ hlookup
    obtain ⟨before, after, heq, -⟩ := List.lookup_eq_some_iff.mp hlookup
    exact hreserved (text, kind) (by rw [heq]; simp)
  · exact nofun

/-- Only a line break is read as one. -/
theorem kind_of_beginning {line : Nat} {c : Char} {rest : List Char} {next : Scanned} (hc : c ≠ '\n')
    (h : beginning line c rest = .ok next) : next.token.kind ≠ .lineBreak := by
  have hcomparison : ∀ alone together, alone ≠ .lineBreak → together ≠ .lineBreak →
      (comparison line alone together rest).token.kind ≠ .lineBreak := by
    intro alone together halone htogether
    unfold comparison
    split
    · exact htogether
    · exact halone
  unfold beginning at h
  rw [if_neg hc] at h
  split at h
  · rename_i hsymbol
    cases h
    exact symbol?_ne_lineBreak hsymbol
  · split at h
    · cases h
      exact hcomparison _ _ (by decide) (by decide)
    · split at h
      · cases h
        exact hcomparison _ _ (by decide) (by decide)
      · split at h
        · split at h <;> cases h
          exact nofun
        · split at h
          · cases hbody : stringBody c rest <;> rw [hbody] at h <;> cases h
            exact nofun
          · split at h
            · dsimp only at h
              split at h <;> cases h
              exact nofun
            · split at h <;> cases h
              exact kind_word_ne_lineBreak _ _

theorem denotes_comparison {c : Char} {alone together : TokenKind}
    (halone : alone ∈ symbols ∧ alone.label.toList = [c])
    (htogether : together ∈ symbols ∧ together.label.toList = [c, '=']) (line : Nat)
    (rest : List Char) :
    ∃ more, rest = more ++ (comparison line alone together rest).rest ∧
      Denotes (c :: more) (comparison line alone together rest).token := by
  unfold comparison
  split
  · refine ⟨['='], rfl, ?_⟩
    rw [← htogether.2]
    exact .symbol line htogether.1
  · refine ⟨[], rfl, ?_⟩
    rw [← halone.2]
    exact .symbol line halone.1

/-- A token other than a line break stands on one line and is denoted by the characters that it takes. -/
theorem denotes_of_beginning_of_ne {line : Nat} {c : Char} {rest : List Char} {next : Scanned}
    (hc : c ≠ '\n') (h : beginning line c rest = .ok next) :
    (∃ more, rest = more ++ next.rest ∧ Denotes (c :: more) next.token) ∧
      next.token.line = line ∧ next.line = line := by
  have hcomparison : ∀ alone together, (comparison line alone together rest).token.line = line ∧
      (comparison line alone together rest).line = line := by
    intro alone together
    unfold comparison
    split <;> exact ⟨rfl, rfl⟩
  have hword : ∀ text, (word text line).line = line := by
    intro text
    unfold word
    split <;> rfl
  unfold beginning at h
  rw [if_neg hc] at h
  split at h
  · rename_i kind hsymbol
    cases h
    obtain ⟨hmem, hlabel⟩ := symbol_of_symbol? hsymbol
    refine ⟨⟨[], rfl, ?_⟩, rfl, rfl⟩
    have hlist : [c] = kind.label.toList := by rw [← hlabel, String.toList_singleton]
    dsimp only
    rw [hlist, hlabel]
    exact .symbol line hmem
  split at h
  · rename_i hless
    cases h
    subst hless
    exact ⟨denotes_comparison (by decide) (by decide) line rest, hcomparison _ _⟩
  split at h
  · rename_i hgreater
    cases h
    subst hgreater
    exact ⟨denotes_comparison (by decide) (by decide) line rest, hcomparison _ _⟩
  split at h
  · rename_i hbang
    subst hbang
    split at h
    · cases h
      exact ⟨⟨['='], rfl, @Denotes.symbol .notEqual line (by decide)⟩, rfl, rfl⟩
    · cases h
  split at h
  · rename_i hquote
    simp only [Bool.or_eq_true, decide_eq_true_eq] at hquote
    cases hbody : stringBody c rest with
    | error cause =>
        rw [hbody] at h
        cases h
    | ok r =>
        obtain ⟨content, after⟩ := r
        rw [hbody] at h
        cases h
        obtain ⟨body, rfl, hquoted⟩ := exists_quoted hbody
        exact ⟨⟨body ++ [c], by simp, .string line hquote hquoted⟩, rfl, rfl⟩
  split at h
  · rename_i hdigit
    dsimp only at h
    split at h
    · rename_i x hread
      cases h
      obtain ⟨whole, fraction, hwhole, hdigits, hbody, happend⟩ := exists_numeral hdigit rest
      rw [hbody, read?_numeral hwhole hdigits] at hread
      obtain ⟨d, more, hcons⟩ : ∃ d more, numeral whole fraction = d :: more := by
        obtain ⟨d, whole, rfl⟩ := List.exists_cons_of_ne_nil hwhole
        exact ⟨d, _, rfl⟩
      have hdenotes := Denotes.number line hwhole hdigits hread
      rw [hcons] at happend hdenotes hbody
      rw [List.cons_append] at happend
      obtain ⟨rfl, hrest⟩ := List.cons.inj happend
      dsimp only
      rw [hbody]
      exact ⟨⟨more, hrest, hdenotes⟩, rfl, rfl⟩
    · cases h
  split at h
  · rename_i hstart
    cases h
    have hchars : ∀ d ∈ rest.takeWhile isNameChar, isNameChar d = true :=
      List.all_eq_true.mp List.all_takeWhile
    have hdenotes := denotes_word String.toList_ofList hstart hchars line
    rw [String.toList_ofList] at hdenotes
    exact ⟨⟨_, List.takeWhile_append_dropWhile.symm, hdenotes⟩, hword _, rfl⟩
  · cases h

/-- Only line breaks take line breaks from a text. -/
theorem Denotes.notMem_break {lexeme : List Char} {t : Token} (h : Denotes lexeme t)
    (ht : t.kind ≠ .lineBreak) : '\n' ∉ lexeme := by
  cases h with
  | lineBreak => exact absurd rfl ht
  | symbol line hmem =>
      have hall : ∀ kind ∈ symbols, '\n' ∉ kind.label.toList := by decide
      exact hall _ hmem
  | truth b => cases b <;> decide
  | reserved line hmem =>
      have hall : ∀ e ∈ Token.reserved, '\n' ∉ e.1.toList := by decide
      exact hall _ hmem
  | name line hstart hrest =>
      rintro (_ | ⟨_, hmem⟩)
      · exact absurd hstart (by decide)
      · exact absurd (hrest _ hmem) (by decide)
  | number line hwhole hdigits =>
      intro hmem
      rcases mem_numeral hdigits hmem with h | h
      · cases h
      · cases h
  | string line hquote hquoted =>
      have hbody : ∀ {quote body content}, Quoted quote body content → '\n' ∉ body := by
        intro quote body content hquoted
        induction hquoted with
        | nil => simp
        | plain _ _ hbreak _ ih => simp [ih, Ne.symm hbreak]
        | escape hescape _ ih =>
            have hall : ∀ e ∈ escapes, e.1 ≠ '\n' := by decide
            simp [ih, Ne.symm (hall _ hescape)]
      have hne : '\n' ∉ ['\x22', '\x27'] := by decide
      simp only [List.cons_append, List.mem_cons, List.mem_append, List.not_mem_nil, or_false, not_or]
      rcases hquote with rfl | rfl <;> exact ⟨by decide, hbody hquoted, by decide⟩

/-- A token is denoted by the characters that it takes. -/
theorem denotes_of_beginning {line : Nat} {c : Char} {rest : List Char} {next : Scanned}
    (h : beginning line c rest = .ok next) :
    ∃ more, rest = more ++ next.rest ∧ Denotes (c :: more) next.token ∧ next.token.line = line ∧
      next.line = line + (c :: more).count '\n' := by
  by_cases hc : c = '\n'
  · subst hc
    obtain ⟨text, blank, hrest, hblank, hline, -, htext⟩ :=
      exists_append_skipLines false (line + 1) rest
    obtain rfl : text = [] := htext
    simp only [beginning, if_true] at h
    cases h
    refine ⟨blank, hrest, .lineBreak line hblank.alone, rfl, ?_⟩
    rw [List.count_cons_self]
    dsimp only
    omega
  · obtain ⟨⟨more, hrest, hdenotes⟩, htoken, hline⟩ := denotes_of_beginning_of_ne hc h
    have hbreak := hdenotes.notMem_break (kind_of_beginning hc h)
    exact ⟨more, hrest, hdenotes, htoken, by rw [hline, List.count_eq_zero.mpr hbreak, Nat.add_zero]⟩

/-- No longer stretch of characters than the one that is taken denotes a token. -/
theorem Denotes.length_rest_le {c : Char} {cs more : List Char} {t : Token} (h : Denotes (c :: cs) t)
    {line : Nat} {next : Scanned} (hnext : beginning line c (cs ++ more) = .ok next) :
    next.rest.length ≤ more.length := by
  have hword : ∀ (hstart : isNameStart c = true) (hrest : ∀ d ∈ cs, isNameChar d = true),
      next.rest.length ≤ more.length := by
    intro hstart hrest
    rw [beginning_of_isNameStart hstart] at hnext
    cases hnext
    rw [List.dropWhile_append_of_pos hrest]
    exact (List.dropWhile_suffix _).length_le
  generalize hlexeme : c :: cs = lexeme at h
  cases h with
  | lineBreak line' hblank =>
      obtain ⟨rfl, rfl⟩ := List.cons.inj hlexeme
      simp only [beginning, if_true] at hnext
      cases hnext
      exact hblank.length_skipLines_le _ _
  | @symbol kind line' hmem =>
      have hall : ∀ kind ∈ symbols, kind.label.toList.length = 1 ∨
          kind.label.toList ∈ [['!', '='], ['<', '='], ['>', '=']] := by decide
      rcases hall _ hmem with hone | htwo
      · rw [← hlexeme] at hone
        obtain rfl : cs = [] := by simpa using hone
        exact (beginning_eq_ok hnext).2
      · rw [← hlexeme] at htwo
        simp only [List.mem_cons, List.cons.injEq, List.not_mem_nil, or_false] at htwo
        rcases htwo with ⟨rfl, rfl, -⟩ | ⟨rfl, rfl, -⟩ | ⟨rfl, rfl, -⟩
        all_goals
          cases hnext
          exact Nat.le_refl _
  | truth b =>
      have hchars := isNameStart_of_mem_toString b
      rw [← hlexeme] at hchars
      exact hword (hchars c List.mem_cons_self)
        (fun d hd => isNameChar_of_isNameStart (hchars d (.tail _ hd)))
  | reserved line' hmem =>
      have hchars := isNameStart_of_mem_reserved hmem
      dsimp only at hchars
      rw [← hlexeme] at hchars
      exact hword (hchars c List.mem_cons_self)
        (fun d hd => isNameChar_of_isNameStart (hchars d (.tail _ hd)))
  | name line' hstart hrest =>
      obtain ⟨rfl, rfl⟩ := List.cons.inj hlexeme
      exact hword hstart hrest
  | @number whole fraction x line' hwhole hdigits hvalue =>
      have hc : isDigit c = true := by
        obtain ⟨d, whole, rfl⟩ := List.exists_cons_of_ne_nil hwhole
        obtain ⟨rfl, -⟩ := List.cons.inj hlexeme
        exact hdigits _ List.mem_cons_self
      have hlength := length_numberBody_numeral_le hdigits more
      rw [← hlexeme, List.cons_append] at hlength
      rw [beginning_of_isDigit hc] at hnext
      split at hnext
      · cases hnext
        exact hlength
      · cases hnext
  | string line' hquote hquoted =>
      rw [List.cons_append] at hlexeme
      obtain ⟨rfl, rfl⟩ := List.cons.inj hlexeme
      have hslash : c ≠ '\\' := by
        rcases hquote with rfl | rfl <;> decide
      rw [beginning_of_quote hquote, List.append_assoc, List.singleton_append,
        hquoted.stringBody_eq hslash more] at hnext
      cases hnext
      exact Nat.le_refl _

/-- What a line break takes along are the blanks behind it. -/
theorem exists_blank {line : Nat} {rest : List Char} {next : Scanned}
    (h : beginning line '\n' rest = .ok next) :
    ∃ blank, rest = blank ++ next.rest ∧ Blank next.rest blank := by
  obtain ⟨text, blank, hrest, hblank, -, -, htext⟩ := exists_append_skipLines false (line + 1) rest
  obtain rfl : text = [] := htext
  simp only [beginning, if_true] at h
  cases h
  exact ⟨blank, hrest, hblank⟩

/-- Every token takes a character at least. -/
theorem Denotes.ne_nil {lexeme : List Char} {t : Token} (h : Denotes lexeme t) : lexeme ≠ [] := by
  cases h with
  | symbol line hmem =>
      have hall : ∀ kind ∈ symbols, kind.label.toList ≠ [] := by decide
      exact hall _ hmem
  | truth b => cases b <;> decide
  | reserved line hmem =>
      have hall : ∀ e ∈ Token.reserved, e.1.toList ≠ [] := by decide
      exact hall _ hmem
  | number line hwhole => exact List.append_ne_nil_of_left_ne_nil hwhole _
  | lineBreak | name | string => exact List.cons_ne_nil _ _

/-- What a token takes is the longest stretch that denotes one. -/
theorem Denotes.length_le_of_prefix {lexeme : List Char} {t : Token} (h : Denotes lexeme t)
    {line : Nat} {c : Char} {rest more : List Char} {next : Scanned}
    (hnext : beginning line c rest = .ok next) (hrest : rest = more ++ next.rest)
    (hbegins : lexeme <+: c :: rest) : lexeme.length ≤ (c :: more).length := by
  obtain ⟨behind, hbehind⟩ := hbegins
  cases lexeme with
  | nil => exact Nat.zero_le _
  | cons d cs =>
      rw [List.cons_append] at hbehind
      obtain ⟨rfl, rfl⟩ := List.cons.inj hbehind
      have hlength := h.length_rest_le hnext
      have hwhole := congrArg List.length hrest
      rw [List.length_append, List.length_append] at hwhole
      rw [List.length_cons, List.length_cons]
      omega

/-- A symbol by itself is read as its kind. -/
theorem exists_beginning_symbol {kind : TokenKind} (h : kind ∈ symbols) :
    ∃ c cs, kind.label.toList = c :: cs ∧ ∀ line, ∃ next, beginning line c cs = .ok next ∧
      next.token.unplaced = { kind := kind, text := kind.label, line := 0 } := by
  cases kind with
  | leftParen | rightParen | leftBracket | rightBracket | leftBrace | rightBrace | comma | dot | equal
  | notEqual | less | lessEqual | greater | greaterEqual | plus | minus | star | slash =>
      exact ⟨_, _, rfl, fun line => ⟨_, rfl, rfl⟩⟩
  | _ => exact absurd h (by decide)

/-- What denotes a token is read as it. -/
theorem Denotes.exists_beginning {c : Char} {cs : List Char} {t : Token} (h : Denotes (c :: cs) t)
    (line : Nat) : ∃ next, beginning line c cs = .ok next ∧ next.token.unplaced = t.unplaced := by
  have hword : isNameStart c = true → (∀ d ∈ cs, isNameChar d = true) →
      (word (String.ofList (c :: cs)) line).unplaced = t.unplaced →
      ∃ next, beginning line c cs = .ok next ∧ next.token.unplaced = t.unplaced := by
    intro hstart hrest htoken
    have hall : (cs ++ []).takeWhile isNameChar = cs ++ [] := List.takeWhile_append_of_pos hrest
    rw [List.append_nil] at hall
    refine ⟨_, beginning_of_isNameStart hstart line cs, ?_⟩
    rw [hall]
    exact htoken
  generalize hlexeme : c :: cs = lexeme at h hword
  cases h with
  | lineBreak line' hblank =>
      obtain ⟨rfl, rfl⟩ := List.cons.inj hlexeme
      exact ⟨_, rfl, rfl⟩
  | symbol line' hmem =>
      obtain ⟨c', cs', hlabel, hbeginning⟩ := exists_beginning_symbol hmem
      obtain ⟨rfl, rfl⟩ := List.cons.inj (hlexeme.trans hlabel)
      exact hbeginning line
  | truth b line' =>
      cases b <;> obtain ⟨rfl, rfl⟩ := List.cons.inj hlexeme <;> exact ⟨_, rfl, rfl⟩
  | @reserved text kind line' hmem hkind =>
      have hlookup : ∀ e ∈ Token.reserved, Token.reserved.lookup e.1 = some e.2 := by decide
      have htext := isNameStart_of_mem_reserved hmem
      dsimp only at htext
      rw [← hlexeme] at htext
      refine hword (htext c List.mem_cons_self)
        (fun d hd => isNameChar_of_isNameStart (htext d (.tail _ hd))) ?_
      rw [String.ofList_toList, word, hlookup _ hmem]
      split
      · rename_i heq
        exact absurd (Option.some.inj heq) hkind
      · rename_i heq
        cases heq
        rfl
      · rename_i heq
        cases heq
  | name line' hstart hrest hname =>
      obtain ⟨rfl, rfl⟩ := List.cons.inj hlexeme
      have hlookup : Token.reserved.lookup (String.ofList (c :: cs)) = none := by
        rw [List.lookup_eq_none_iff]
        intro e he
        have hne : String.ofList (c :: cs) ≠ e.1 := fun heq => hname (heq ▸ List.mem_map_of_mem he)
        simpa using hne
      refine hword hstart hrest ?_
      rw [word, hlookup]
      rfl
  | @number whole fraction x line' hwhole hdigits hvalue =>
      have hc : isDigit c = true := by
        obtain ⟨d, whole, rfl⟩ := List.exists_cons_of_ne_nil hwhole
        obtain ⟨rfl, -⟩ := List.cons.inj hlexeme
        exact hdigits _ List.mem_cons_self
      have hlength := length_numberBody_numeral_le hdigits []
      obtain ⟨whole', fraction', -, -, hbody, happend⟩ := exists_numeral hc cs
      rw [List.append_nil, ← hlexeme] at hlength
      rw [List.length_eq_zero_iff.mp (Nat.le_zero.mp hlength), List.append_nil, ← hbody] at happend
      rw [beginning_of_isDigit hc, ← happend, hlexeme, read?_numeral hwhole hdigits, hvalue]
      exact ⟨_, rfl, rfl⟩
  | string line' hquote hquoted =>
      rw [List.cons_append] at hlexeme
      obtain ⟨rfl, rfl⟩ := List.cons.inj hlexeme
      have hslash : c ≠ '\\' := by
        rcases hquote with rfl | rfl <;> decide
      rw [beginning_of_quote hquote, hquoted.stringBody_eq hslash []]
      exact ⟨_, rfl, rfl⟩

end LineScript.Token
