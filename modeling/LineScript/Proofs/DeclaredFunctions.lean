/-
# The function index of an editor

An editor finds the functions of a document line by line, without compiling it. For a document that
compiles the compiler knows the functions, too, and where all headers are plain both know the same ones
with the same parameters. A header is plain when a space stands behind `func`, no comma stands behind the
last parameter, and no closing parenthesis stands on the line behind the one that ends the header, not
even in a comment. The index has no other functions than the program, but under the name of a function
whose header is not plain it has either nothing or parameters that are not those of the function.
-/

import LineScript.Editor.Declared
import LineScript.Proofs.HeaderLines
import LineScript.Proofs.Signatures
import LineScript.Registry

namespace LineScript.Text

/-! ## White space -/

theorem Ranges.exists_of_contains {ranges : Ranges} {point : Nat} (h : ranges.contains point = true) :
    ∃ i ∈ ranges, i.1 ≤ point ∧ point ≤ i.2 := by
  induction ranges with
  | nil => cases h
  | cons i rest ih =>
      obtain ⟨low, high⟩ := i
      rw [contains] at h
      split at h
      · cases h
      split at h
      · rename_i hlow hhigh
        exact ⟨_, List.mem_cons_self, Nat.le_of_not_lt hlow, hhigh⟩
      · obtain ⟨i, hi, hpoint⟩ := ih h
        exact ⟨i, List.mem_cons_of_mem _ hi, hpoint⟩

/-- White space belongs to no name, and it is no mark but a line break. -/
theorem not_isNameChar_of_isBlank {c : Char} (h : isBlank c = true) :
    Token.isNameChar c = false ∧ (c = '\n' ∨ c ∉ Token.marks) := by
  have hall : ∀ i ∈ blanks, ∀ point ∈ List.range' i.1 (i.2 + 1 - i.1),
      Token.isNameChar (Char.ofNat point) = false ∧
        (Char.ofNat point = '\n' ∨ Char.ofNat point ∉ Token.marks) := by
    decide +kernel
  obtain ⟨i, hi, hlow, hhigh⟩ := Ranges.exists_of_contains h
  have hpoint := hall i hi c.toNat (List.mem_range'_1.mpr ⟨hlow, by omega⟩)
  rwa [Char.ofNat_toNat] at hpoint

theorem isBlank_of_isSpace {c : Char} (h : Token.isSpace c = true) : isBlank c = true := by
  simp only [Token.isSpace, Bool.or_eq_true, decide_eq_true_eq] at h
  obtain (rfl | rfl) | rfl := h <;> decide

/-- Nothing but white space at the end is left out. -/
theorem trimEnd_append_cons {c : Char} (hc : isBlank c = false) (cs ds : List Char) :
    trimEnd (cs ++ c :: ds) = cs ++ c :: trimEnd ds := by
  induction cs with
  | nil =>
      rw [List.nil_append, List.nil_append, trimEnd]
      cases trimEnd ds with
      | nil => simp [hc]
      | cons d rest => rfl
  | cons d cs ih =>
      rw [List.cons_append, List.cons_append, trimEnd, ih]
      cases cs <;> rfl

theorem trimEnd_of_blanks {cs : List Char} (h : ∀ c ∈ cs, isBlank c = true) : trimEnd cs = [] := by
  induction cs with
  | nil => rfl
  | cons c cs ih =>
      obtain ⟨hc, hcs⟩ := List.forall_mem_cons.mp h
      rw [trimEnd, ih hcs]
      exact if_pos hc

theorem mem_trimEnd_iff {c : Char} (hc : isBlank c = false) (cs : List Char) :
    c ∈ trimEnd cs ↔ c ∈ cs := by
  refine ⟨fun h => (trimEnd_isPrefix cs).subset h, fun h => ?_⟩
  obtain ⟨before, after, rfl, -⟩ := List.eq_append_cons_of_mem h
  rw [trimEnd_append_cons hc]
  exact List.mem_append_right _ List.mem_cons_self

theorem mem_trimChars_iff {c : Char} (hc : isBlank c = false) (cs : List Char) :
    c ∈ trimChars cs ↔ c ∈ cs := by
  rw [trimChars, mem_trimEnd_iff hc]
  refine ⟨fun h => (List.dropWhile_suffix _).subset h, fun h => ?_⟩
  rw [← List.takeWhile_append_dropWhile (p := isBlank) (l := cs), List.mem_append] at h
  refine h.resolve_left fun hmem => ?_
  rw [List.mem_takeWhile_imp hmem] at hc
  cases hc

/-- White space goes on both sides of what has none there. -/
theorem trimChars_between {first core last : List Char} (hfirst : ∀ c ∈ first, isBlank c = true)
    (hlast : ∀ c ∈ last, isBlank c = true) (hcore : Trimmed core) :
    trimChars (first ++ (core ++ last)) = core := by
  rw [trimChars, List.dropWhile_append_of_pos hfirst]
  obtain rfl | ⟨init, c, rfl⟩ := List.eq_nil_or_concat' core
  · rw [List.nil_append, List.dropWhile_eq_nil_iff.mpr hlast]
    rfl
  · have hc : isBlank c = false := hcore.last c (by simp)
    have hhead : ((init ++ [c]) ++ last).dropWhile isBlank = (init ++ [c]) ++ last := by
      cases init with
      | nil => exact List.dropWhile_cons_of_neg (by simp [hc])
      | cons d init => exact List.dropWhile_cons_of_neg (by simp [hcore.head d rfl])
    rw [hhead, List.append_assoc, List.singleton_append, trimEnd_append_cons hc,
      trimEnd_of_blanks hlast]

theorem trimChars_append_of_blanks {core last : List Char} (hlast : ∀ c ∈ last, isBlank c = true)
    (hcore : Trimmed core) : trimChars (core ++ last) = core :=
  trimChars_between (List.forall_mem_nil _) hlast hcore

/-- White space goes in front of the first character that is none, and behind the last one. -/
theorem trimChars_around {gap : List Char} (hgap : ∀ c ∈ gap, isBlank c = true) {first last : Char}
    (hfirst : isBlank first = false) (hlast : isBlank last = false) (mid tail : List Char) :
    trimChars (gap ++ first :: (mid ++ last :: tail)) = first :: (mid ++ last :: trimEnd tail) := by
  rw [trimChars, List.dropWhile_append_of_pos hgap, List.dropWhile_cons_of_neg (by simp [hfirst]),
    ← List.cons_append, trimEnd_append_cons hlast, List.cons_append]

theorem exists_piece_of_mem {separator c : Char} (hc : c ≠ separator) {cs : List Char} (h : c ∈ cs) :
    ∃ piece ∈ splitOnChar separator cs, c ∈ piece := by
  induction hlength : cs.length using Nat.strong_induction_on generalizing cs with
  | _ n ih =>
      obtain hall | ⟨piece, rest, rfl, hpieces⟩ := splitOnChar_cases separator cs
      · rw [hall]
        exact ⟨cs, List.mem_singleton_self cs, h⟩
      · rw [hpieces]
        simp only [List.mem_append, List.mem_cons, hc, false_or] at h
        obtain h | h := h
        · exact ⟨piece, List.mem_cons_self, h⟩
        · obtain ⟨other, hother, hmem⟩ := ih rest.length (by simp [← hlength]; omega) h rfl
          exact ⟨other, List.mem_cons_of_mem _ hother, hmem⟩

/-- White space in front of what is split goes with the first piece. -/
theorem map_trimChars_splitOnChar {separator : Char} (hseparator : isBlank separator = false)
    {gap : List Char} (hgap : ∀ c ∈ gap, isBlank c = true) (cs : List Char) :
    (splitOnChar separator (gap ++ cs)).map trimChars = (splitOnChar separator cs).map trimChars := by
  induction gap with
  | nil => rfl
  | cons c gap ih =>
      obtain ⟨hc, hgap⟩ := List.forall_mem_cons.mp hgap
      have hne : c ≠ separator := by
        rintro rfl
        rw [hc] at hseparator
        cases hseparator
      obtain ⟨piece, pieces, hpieces⟩ :=
        List.exists_cons_of_ne_nil (splitOnChar_ne_nil separator (gap ++ cs))
      rw [← ih hgap, List.cons_append, splitOnChar_cons_of_ne hne hpieces, hpieces, List.map_cons,
        List.map_cons, trimChars_cons_of_blank hc]

end LineScript.Text

namespace LineScript.Signature

open LineScript.Text

/-! ## Parameter lists on a line -/

theorem beforeLastClose_of_not_mem {cs : List Char} (h : ')' ∉ cs) : beforeLastClose cs = none := by
  induction cs with
  | nil => rfl
  | cons c cs ih =>
      simp only [List.mem_cons, not_or] at h
      rw [beforeLastClose, ih h.2]
      exact if_neg (Ne.symm h.1)

theorem beforeLastClose_append_cons {tail : List Char} (h : ')' ∉ tail) (cs : List Char) :
    beforeLastClose (cs ++ ')' :: tail) = some cs := by
  induction cs with
  | nil =>
      rw [List.nil_append, beforeLastClose, beforeLastClose_of_not_mem h]
      rfl
  | cons c cs ih => rw [List.cons_append, beforeLastClose, ih]

/-- What stands between the first opening and the last closing parenthesis of a line. -/
theorem between?_of_tail (inner tail : List Char) :
    ∃ all, between? ('(' :: (inner ++ ')' :: tail)) = some all ∧
      (')' ∉ tail → all = inner) ∧ (')' ∈ tail → ')' ∈ all) := by
  have hbetween : ∀ cs, between? ('(' :: cs) = beforeLastClose cs := fun cs => by
    rw [between?, List.dropWhile_cons_of_neg (by decide)]
  by_cases hmem : ')' ∈ tail
  · -- The last closing parenthesis of the tail is the last one of all.
    obtain ⟨after, before, htail, hafter⟩ :=
      List.eq_append_cons_of_mem (List.mem_reverse.mpr hmem)
    have htail' : tail = before.reverse ++ ')' :: after.reverse := by
      rw [← List.reverse_reverse tail, htail]
      simp
    refine ⟨inner ++ ')' :: before.reverse, ?_, fun h => absurd hmem h, fun _ => by simp⟩
    rw [hbetween, htail', ← List.cons_append, ← List.append_assoc]
    exact beforeLastClose_append_cons (by simpa using hafter) _
  · refine ⟨inner, ?_, fun _ => rfl, fun h => absurd h hmem⟩
    rw [hbetween, beforeLastClose_append_cons hmem]

theorem map_toList_eq_iff {names : List String} {pieces : List (List Char)} :
    names.map String.toList = pieces ↔ names = pieces.map String.ofList := by
  have hnames : (names.map String.toList).map String.ofList = names := by
    simp [Function.comp_def]
  have hpieces : (pieces.map String.ofList).map String.toList = pieces := by
    simp [Function.comp_def]
  constructor
  · rintro rfl
    exact hnames.symm
  · rintro rfl
    exact hpieces

/-- The names between the commas are the parameters. -/
theorem parse_eq_ok_iff {signature : String} {inner : List Char}
    (hinner : between? signature.toList = some inner) (params : List String) :
    parse signature = .ok params ↔
      (trimChars inner = [] ∧ params = []) ∨
      (trimChars inner ≠ [] ∧ params.Nodup ∧ "" ∉ params ∧
        params.map String.toList = (splitOnChar ',' (trimChars inner)).map trimChars) := by
  unfold parse
  rw [hinner]
  dsimp only
  split
  · rename_i hnil
    simp [hnil, eq_comm]
  · rename_i trimmed hne
    have hnil : trimChars inner ≠ [] := fun h => hne h
    rw [map_toList_eq_iff, List.map_map]
    have hall : ∀ names : List String, (∀ name ∈ names, name ≠ "" ∧ name ∉ ([] : List String)) ↔
        "" ∉ names := by
      intro names
      simp only [List.not_mem_nil, not_false_eq_true, and_true]
      exact ⟨fun h hmem => h "" hmem rfl, fun h name hname heq => h (heq ▸ hname)⟩
    have hdistinct : distinct? [] ((splitOnChar ',' (trimChars inner)).map fun piece =>
        String.ofList (trimChars piece)) = .ok params ↔ _ := distinct?_eq_ok_iff
    rw [hall] at hdistinct
    constructor
    · intro h
      refine .inr ⟨hnil, ?_⟩
      split at h
      · rename_i found hfound
        cases h
        obtain ⟨rfl, hempty, hnodup⟩ := hdistinct.mp hfound
        exact ⟨hnodup, hempty, rfl⟩
      · cases h
    · rintro (⟨h, -⟩ | ⟨-, hnodup, hempty, rfl⟩)
      · exact absurd h hnil
      · dsimp only [Function.comp_def] at hnodup hempty hdistinct ⊢
        rw [hdistinct.mpr ⟨rfl, hempty, hnodup⟩]

end LineScript.Signature

namespace LineScript.Token

open LineScript.Compile LineScript.Text

/-! ## Rows of names -/

theorem IsName.not_isBlank {name : String} (h : IsName name) : ∀ c ∈ name.toList, isBlank c = false := by
  intro c hc
  refine Bool.eq_false_iff.mpr fun hblank => ?_
  have hname := (not_isNameChar_of_isBlank hblank).1
  rw [h.isNameChar c hc] at hname
  cases hname

theorem IsName.not_mem {name : String} (h : IsName name) {c : Char} (hc : c ∈ marks) :
    c ∉ name.toList :=
  fun hmem => notMem_marks_of_isNameChar (h.isNameChar c hmem) hc

theorem not_mem_of_isSpace {gap : List Char} (h : ∀ c ∈ gap, isSpace c = true) {c : Char}
    (hc : isSpace c = false) : c ∉ gap := by
  intro hmem
  rw [h c hmem] at hc
  cases hc

theorem IsName.trimmed {name : String} (h : IsName name) : Text.Trimmed name.toList :=
  ⟨fun c hc => h.not_isBlank c (List.mem_of_mem_head? hc),
    fun c hc => h.not_isBlank c (List.mem_of_mem_getLast? hc)⟩

/-- What is written as a parameter can be declared as one. -/
theorem IsName.isParameter {name : String} (h : IsName name) : Signature.IsParameter name := by
  refine ⟨?_, h.not_mem (by decide), h.trimmed⟩
  rintro rfl
  exact h.ne_nil rfl

namespace Row

variable {body : List Char} {params : List String} {opened : Bool} (h : Row body params opened)
include h

theorem isName : ∀ name ∈ params, IsName name := by
  induction h with
  | nil => exact List.forall_mem_nil _
  | last hname => exact List.forall_mem_singleton.mpr hname
  | more hname _ _ _ _ ih => exact List.forall_mem_cons.mpr ⟨hname, ih⟩

theorem eq_nil_iff : body = [] ↔ params = [] := by
  cases h with
  | nil => simp
  | last hname => simp [hname.ne_nil]
  | more hname => simp

theorem opened_of_eq_nil (hparams : params = []) : opened = true := by
  cases h with
  | nil => rfl
  | last | more => cases hparams

theorem close_not_mem : ')' ∉ body := by
  induction h with
  | nil => exact List.not_mem_nil
  | last hname => exact hname.not_mem (by decide)
  | more hname hgap hgap' _ _ ih =>
      simp only [List.mem_append, List.mem_cons, not_or]
      exact ⟨hname.not_mem (by decide), not_mem_of_isSpace hgap (by decide), by decide,
        not_mem_of_isSpace hgap' (by decide), ih⟩

/-- A row ends with a comma when it is left open behind a name. -/
theorem getLast?_eq_iff : body.getLast? = some ',' ↔ opened = true ∧ params ≠ [] := by
  induction h with
  | nil => simp
  | last hname =>
      refine iff_of_false (fun hlast => ?_) nofun
      exact hname.not_mem (c := ',') (by decide) (List.mem_of_getLast? hlast)
  | @more name gap gap' body names opened _ _ _ hnil hrow ih =>
      have hlast : (name.toList ++ (gap ++ ',' :: (gap' ++ body))).getLast? =
          (',' :: (gap' ++ body)).getLast? := by
        rw [List.getLast?_append_of_ne_nil _ (by simp), List.getLast?_append_of_ne_nil _ (by simp)]
      rw [hlast]
      by_cases hbody : body = []
      · subst hbody
        obtain rfl := hnil rfl
        rw [hrow.opened_of_eq_nil (hrow.eq_nil_iff.mp rfl)]
        simp
      · rw [List.getLast?_cons_of_ne_nil (by simp [hbody]), List.getLast?_append_of_ne_nil _ hbody, ih]
        simp [← hrow.eq_nil_iff, hbody]

theorem trimmed : Text.Trimmed body := by
  induction h with
  | nil => exact ⟨nofun, nofun⟩
  | last hname => exact hname.trimmed
  | @more name gap gap' body names opened hname _ _ hnil _ ih =>
      refine ⟨fun c hc => ?_, fun c hc => ?_⟩
      · rw [List.head?_append_of_ne_nil _ hname.ne_nil] at hc
        exact hname.trimmed.head c hc
      · rw [List.getLast?_append_of_ne_nil _ (by simp), List.getLast?_append_of_ne_nil _ (by simp)] at hc
        by_cases hbody : body = []
        · subst hbody
          obtain rfl := hnil rfl
          cases hc
          decide
        · rw [List.getLast?_cons_of_ne_nil (by simp [hbody]),
            List.getLast?_append_of_ne_nil _ hbody] at hc
          exact ih.last c hc

/-- The names of a row, and nothing behind the last comma of one that is left open. -/
theorem pieces : (splitOnChar ',' body).map trimChars =
    params.map String.toList ++ if opened then [[]] else [] := by
  induction h with
  | nil => rfl
  | last hname =>
      rw [splitOnChar_of_not_mem (hname.not_mem (by decide)), List.map_singleton,
        hname.trimmed.trimChars_eq]
      rfl
  | @more name gap gap' body names opened hname hgap hgap' _ _ ih =>
      have hpiece : ',' ∉ name.toList ++ gap := by
        rw [List.mem_append, not_or]
        exact ⟨hname.not_mem (by decide), not_mem_of_isSpace hgap (by decide)⟩
      have htrim := trimChars_append_of_blanks (fun c hc => isBlank_of_isSpace (hgap c hc)) hname.trimmed
      rw [← List.append_assoc, splitOnChar_append hpiece, List.map_cons,
        map_trimChars_splitOnChar (by decide) fun c hc => isBlank_of_isSpace (hgap' c hc), ih, htrim]
      rfl

end Row

end LineScript.Token

namespace LineScript.Editor

open LineScript.Compile LineScript.Text LineScript.Token

/-! ## Plain headers -/

/-- A line with a header that the index reads as the compiler does. A space stands behind `func`, a
closing parenthesis stands nowhere on the line but at the end of the header, and no comma stands right
before it. -/
structure Plain (line : List Char) : Prop where
  keyword : "func ".toList <+: line.dropWhile isSpace
  closing : line.count ')' = 1
  separators : ((line.takeWhile (· ≠ ')')).reverse.dropWhile isSpace).head? ≠ some ','

instance (line : List Char) : Decidable (Plain line) :=
  decidable_of_iff ("func ".toList <+: line.dropWhile isSpace ∧ line.count ')' = 1 ∧
      ((line.takeWhile (· ≠ ')')).reverse.dropWhile isSpace).head? ≠ some ',')
    ⟨fun ⟨h, h', h''⟩ => ⟨h, h', h''⟩, fun h => ⟨h.keyword, h.closing, h.separators⟩⟩

/-- The last character that is no space. -/
theorem head?_dropWhile_reverse {c : Char} (hc : isSpace c = false) {before first body last : List Char}
    (hlast : ∀ d ∈ last, isSpace d = true) (hnil : body = [] → first = []) (hbody : Text.Trimmed body) :
    ((before ++ c :: (first ++ (body ++ last))).reverse.dropWhile isSpace).head? =
      some (body.getLast?.getD c) := by
  obtain rfl | ⟨init, d, rfl⟩ := List.eq_nil_or_concat' body
  · obtain rfl := hnil rfl
    have hreverse : (before ++ c :: ([] ++ ([] ++ last))).reverse = last.reverse ++ c :: before.reverse := by
      simp
    rw [hreverse, List.dropWhile_append_of_pos (by simpa using hlast),
      List.dropWhile_cons_of_neg (by simp [hc])]
    rfl
  · have hd : isSpace d = false := by
      refine Bool.eq_false_iff.mpr fun hspace => ?_
      have hblank := hbody.last d (by simp)
      rw [isBlank_of_isSpace hspace] at hblank
      cases hblank
    have hreverse : (before ++ c :: (first ++ (init ++ [d] ++ last))).reverse =
        last.reverse ++ d :: (before ++ c :: (first ++ init)).reverse := by
      simp
    rw [hreverse, List.dropWhile_append_of_pos (by simpa using hlast),
      List.dropWhile_cons_of_neg (by simp [hd])]
    simp

theorem isWord_of_isName {name : String} (h : IsName name) : isWord name = true := by
  have hchars : ∀ c ∈ name.toList, isWordChar c = true :=
    fun c hc => isWordChar_of_isNameChar (h.isNameChar c hc)
  obtain ⟨c, rest, hname, hstart⟩ := h.exists_cons
  have hdigit : isDigit c = false := by
    refine Bool.eq_false_iff.mpr fun hdigit => ?_
    rw [not_isNameStart_of_mem_digits c (mem_digits_of_isDigit hdigit)] at hstart
    cases hstart
  rw [hname] at hchars
  unfold isWord
  rw [hname]
  change (!isDigit c && (c :: rest).all isWordChar) = true
  rw [hdigit, List.all_eq_true.mpr hchars]
  rfl

/-- What stands behind the keyword and in front of the first opening parenthesis is the name. -/
theorem declaration?_eq {line before after : List Char}
    (hline : (afterKeyword? (trimChars line)).map trimChars = some (before ++ '(' :: after))
    (hne : before ≠ []) (hopen : '(' ∉ before) :
    declaration? line =
      let name := String.ofList (trimChars before)
      (Signature.parse (String.ofList ('(' :: after))).toOption.bind fun params =>
        if isWord name then some (name, Signature.render name params) else none := by
  obtain ⟨htake, hdrop⟩ := takeWhile_ne_cons hopen after
  obtain ⟨rest, hrest, htrim⟩ := Option.map_eq_some_iff.mp hline
  unfold declaration?
  simp only [hrest, Option.bind_eq_bind, Option.bind_some, htrim, htake, hdrop]
  rw [if_neg (by simpa using hne)]
  cases Signature.parse (String.ofList ('(' :: after)) <;> rfl

section

variable {l : HeaderLayout} {h : Header} (hl : l.Fits h)
include hl

/-- The first character of a header is the first of `func`. -/
theorem dropWhile_line {p : Char → Bool} (hp : ∀ c, isSpace c = true → p c = true) (hf : p 'f' = false) :
    (l.line h.name).dropWhile p = "func".toList ++
      (l.gap ++ (h.name.toList ++ (l.gap' ++ '(' :: (l.inner ++ ')' :: l.tail)))) := by
  rw [HeaderLayout.line, List.dropWhile_append_of_pos fun c hc => hp c (hl.indent c hc)]
  exact List.dropWhile_cons_of_neg (Bool.eq_false_iff.mp hf)

theorem keyword_iff : "func ".toList <+: (l.line h.name).dropWhile isSpace ↔ l.gap.head? = some ' ' := by
  obtain ⟨c, rest, hname, -⟩ := hl.name.exists_cons
  have hc : c ≠ ' ' := by
    rintro rfl
    exact absurd (hl.name.not_isBlank ' ' (by rw [hname]; exact List.mem_cons_self)) (by decide)
  have hfunc : "func ".toList = "func".toList ++ [' '] := rfl
  rw [dropWhile_line hl (fun _ => id) (by decide), hfunc, List.prefix_append_right_inj, hname]
  cases l.gap with
  | nil => simp [List.cons_prefix_cons, Ne.symm hc]
  | cons d gap => simp [List.cons_prefix_cons, eq_comm]

theorem close_not_mem_inner : ')' ∉ l.inner := by
  simp only [HeaderLayout.inner, List.mem_append, not_or]
  exact ⟨not_mem_of_isSpace hl.first (by decide), hl.row.close_not_mem,
    not_mem_of_isSpace hl.last (by decide)⟩

/-- The first closing parenthesis is that of the header. -/
theorem exists_before_close : ∃ before, l.line h.name = before ++ ')' :: l.tail ∧ ')' ∉ before ∧
    before = l.indent ++ ("func".toList ++ (l.gap ++ (h.name.toList ++ (l.gap' ++ '(' :: l.inner)))) := by
  refine ⟨_, ?_, ?_, rfl⟩
  · simp [HeaderLayout.line]
  · simp only [List.mem_append, List.mem_cons, not_or]
    exact ⟨not_mem_of_isSpace hl.indent (by decide), by decide, not_mem_of_isSpace hl.gap (by decide),
      hl.name.not_mem (by decide), not_mem_of_isSpace hl.gap' (by decide), by decide,
      close_not_mem_inner hl⟩

theorem closing_iff : (l.line h.name).count ')' = 1 ↔ ')' ∉ l.tail := by
  obtain ⟨before, hline, hbefore, -⟩ := exists_before_close hl
  rw [hline, List.count_append, List.count_eq_zero.mpr hbefore, List.count_cons_self,
    ← List.count_eq_zero]
  omega

theorem separators_iff :
    (((l.line h.name).takeWhile (· ≠ ')')).reverse.dropWhile isSpace).head? ≠ some ',' ↔
      ¬(l.opened = true ∧ h.params ≠ []) := by
  obtain ⟨before, hline, hbefore, heq⟩ := exists_before_close hl
  have hbefore' : before = (l.indent ++ ("func".toList ++ (l.gap ++ (h.name.toList ++ l.gap')))) ++
      '(' :: (l.first ++ (l.body ++ l.last)) := by
    rw [heq, HeaderLayout.inner]
    simp
  rw [hline, (takeWhile_ne_cons hbefore l.tail).1, ← hl.row.getLast?_eq_iff, hbefore',
    head?_dropWhile_reverse (by decide) hl.last hl.first_eq_nil hl.row.trimmed]
  cases l.body.getLast? with
  | none => simp
  | some c => simp

theorem plain_iff : Plain (l.line h.name) ↔
    l.gap.head? = some ' ' ∧ ')' ∉ l.tail ∧ ¬(l.opened = true ∧ h.params ≠ []) := by
  rw [← keyword_iff hl, ← closing_iff hl, ← separators_iff hl]
  exact ⟨fun h => ⟨h.keyword, h.closing, h.separators⟩, fun ⟨h, h', h''⟩ => ⟨h, h', h''⟩⟩

/-- The parameters that the index reads are those of the header when it is plain. -/
theorem parse_iff {tail : List Char} (htail : ')' ∈ tail ↔ ')' ∈ l.tail) :
    Signature.parse (String.ofList ('(' :: (l.inner ++ ')' :: tail))) = .ok h.params ↔
      ')' ∉ l.tail ∧ ¬(l.opened = true ∧ h.params ≠ []) := by
  obtain ⟨all, hall, hinner, hclose⟩ := Signature.between?_of_tail l.inner tail
  rw [Signature.parse_eq_ok_iff (by rw [String.toList_ofList]; exact hall), ← htail]
  by_cases hmem : ')' ∈ tail
  · -- A closing parenthesis further behind is part of what is read as a parameter.
    have htrim : ')' ∈ trimChars all := (mem_trimChars_iff (by decide) all).mpr (hclose hmem)
    refine iff_of_false ?_ fun h => h.1 hmem
    rintro (⟨hnil, -⟩ | ⟨-, -, -, hparams⟩)
    · rw [hnil] at htrim
      cases htrim
    · have hne : (')' : Char) ≠ ',' := by decide
      obtain ⟨piece, hpiece, hmem⟩ := exists_piece_of_mem hne htrim
      have hin := List.mem_map_of_mem (f := trimChars) hpiece
      rw [← hparams] at hin
      obtain ⟨name, hname, heq⟩ := List.mem_map.mp hin
      refine (hl.row.isName name hname).not_mem (c := ')') (by decide) ?_
      rw [heq]
      exact (mem_trimChars_iff (by decide) piece).mpr hmem
  · obtain rfl := hinner hmem
    have htrim : trimChars l.inner = l.body := trimChars_between
      (fun c hc => isBlank_of_isSpace (hl.first c hc)) (fun c hc => isBlank_of_isSpace (hl.last c hc))
      hl.row.trimmed
    have hempty : "" ∉ h.params := fun hmem => (hl.row.isName "" hmem).ne_nil rfl
    rw [htrim, hl.row.pieces, ne_eq, hl.row.eq_nil_iff]
    cases l.opened <;> simp [hl.nodup, hempty, hmem, em]

/-- Behind the keyword the index reads a signature. -/
theorem declaration?_of_keyword (hspace : l.gap.head? = some ' ') :
    ∃ tail, (')' ∈ tail ↔ ')' ∈ l.tail) ∧ declaration? (l.line h.name) =
      (Signature.parse (String.ofList ('(' :: (l.inner ++ ')' :: tail)))).toOption.map
        fun params => (h.name, Signature.render h.name params) := by
  obtain ⟨gap, hgap⟩ := List.head?_eq_some_iff.mp hspace
  obtain ⟨c, rest, hname, -⟩ := hl.name.exists_cons
  have hc : isBlank c = false := hl.name.not_isBlank c (by rw [hname]; exact List.mem_cons_self)
  have hf : isBlank 'f' = false := by decide
  have hclose : isBlank ')' = false := by decide
  have hblanks : ∀ {gap : List Char}, (∀ c ∈ gap, isSpace c = true) → ∀ c ∈ gap, isBlank c = true :=
    fun h c hc => isBlank_of_isSpace (h c hc)
  have hspaces := hl.gap
  rw [hgap] at hspaces
  have htrim : trimChars (l.line h.name) = "func ".toList ++
      (gap ++ (h.name.toList ++ (l.gap' ++ '(' :: (l.inner ++ ')' :: trimEnd l.tail)))) := by
    have haround := trimChars_around (hblanks hl.indent) hf hclose
      ("unc ".toList ++ (gap ++ (h.name.toList ++ (l.gap' ++ '(' :: l.inner)))) l.tail
    simpa [HeaderLayout.line, hgap] using haround
  have hafter : afterKeyword? (trimChars (l.line h.name)) =
      some (gap ++ (h.name.toList ++ (l.gap' ++ '(' :: (l.inner ++ ')' :: trimEnd l.tail)))) := by
    rw [htrim, afterKeyword?, if_pos (List.isPrefixOf_iff_prefix.mpr (List.prefix_append _ _))]
    rfl
  have hrest : trimChars (gap ++ (h.name.toList ++ (l.gap' ++ '(' :: (l.inner ++ ')' ::
      trimEnd l.tail)))) = (h.name.toList ++ l.gap') ++ '(' :: (l.inner ++ ')' ::
        trimEnd (trimEnd l.tail)) := by
    have haround := trimChars_around (hblanks (List.forall_mem_cons.mp hspaces).2) hc hclose
      (rest ++ (l.gap' ++ '(' :: l.inner)) (trimEnd l.tail)
    rw [hname]
    simpa using haround
  refine ⟨trimEnd (trimEnd l.tail), ?_, ?_⟩
  · rw [mem_trimEnd_iff hclose, mem_trimEnd_iff hclose]
  have hopen : '(' ∉ h.name.toList ++ l.gap' := by
    rw [List.mem_append, not_or]
    exact ⟨hl.name.not_mem (by decide), not_mem_of_isSpace hl.gap' (by decide)⟩
  have hbefore : trimChars (h.name.toList ++ l.gap') = h.name.toList :=
    trimChars_append_of_blanks (hblanks hl.gap') hl.name.trimmed
  rw [declaration?_eq (by rw [hafter, Option.map_some, hrest]) (by simp [hl.name.ne_nil]) hopen,
    hbefore, String.ofList_toList]
  simp only [isWord_of_isName hl.name, if_true]
  exact (Option.map_eq_bind ..).symm

/-- Without a space behind `func` the index does not find the header. -/
theorem declaration?_of_not_keyword (hspace : l.gap.head? ≠ some ' ') :
    declaration? (l.line h.name) = none := by
  have hnone : afterKeyword? (trimChars (l.line h.name)) = none := by
    refine if_neg fun hprefix => hspace ((keyword_iff hl).mp ?_)
    rw [dropWhile_line hl (fun _ => id) (by decide),
      ← dropWhile_line hl (fun _ => isBlank_of_isSpace) (by decide)]
    exact (List.isPrefixOf_iff_prefix.mp hprefix).trans (trimEnd_isPrefix _)
  unfold declaration?
  rw [hnone]
  rfl

/-- What the index finds on a line with a header is under the name of the function. -/
theorem name_of_declaration? {entry : String × String}
    (hentry : declaration? (l.line h.name) = some entry) : entry.1 = h.name := by
  by_cases hspace : l.gap.head? = some ' '
  · obtain ⟨tail, -, hdeclaration⟩ := declaration?_of_keyword hl hspace
    rw [hdeclaration] at hentry
    obtain ⟨params, -, rfl⟩ := Option.map_eq_some_iff.mp hentry
    rfl
  · rw [declaration?_of_not_keyword hl hspace] at hentry
    cases hentry

/-- The index finds the signature of the function where its header is plain. -/
theorem declaration?_eq_some_iff :
    declaration? (l.line h.name) = some (h.name, Signature.render h.name h.params) ↔
      Plain (l.line h.name) := by
  rw [plain_iff hl]
  by_cases hspace : l.gap.head? = some ' '
  · obtain ⟨tail, htail, hdeclaration⟩ := declaration?_of_keyword hl hspace
    rw [hdeclaration, and_iff_right hspace, ← parse_iff hl htail]
    have hparams : Signature.AreParameters h.params :=
      ⟨fun name hname => (hl.row.isName name hname).isParameter, hl.nodup⟩
    constructor
    · intro hentry
      obtain ⟨params, hparse, hrender⟩ := Option.map_eq_some_iff.mp hentry
      have hopen : '(' ∉ h.name.toList := hl.name.not_mem (by decide)
      -- What is written the same was read from the same parameters.
      cases hresult : Signature.parse (String.ofList ('(' :: (l.inner ++ ')' :: tail))) with
      | error e =>
          rw [hresult] at hparse
          cases hparse
      | ok found =>
          rw [hresult] at hparse
          cases hparse
          have hfound := (Signature.areParameters_of_parse hresult).parse_render hopen
          rw [(Prod.mk.inj hrender).2, hparams.parse_render hopen] at hfound
          exact hfound.symm
    · intro hparse
      rw [hparse]
      rfl
  · rw [declaration?_of_not_keyword hl hspace]
    exact iff_of_false nofun fun h => hspace h.1

end

/-! ## Lines without a header -/

/-- White space that is no space cannot be read. -/
theorem beginning_of_isBlank {c : Char} (hblank : isBlank c = true) (hbreak : c ≠ '\n') (line : Nat)
    (rest : List Char) : beginning line c rest = .error (.unexpectedCharacter c) := by
  obtain ⟨hname, hmark⟩ := not_isNameChar_of_isBlank hblank
  have hmark := hmark.resolve_left hbreak
  have hstart : ¬isNameStart c = true := fun h => by
    rw [isNameChar_of_isNameStart h] at hname
    cases hname
  have hdigit : ¬isDigit c = true := fun h => by
    rw [isNameChar_of_isDigit h] at hname
    cases hname
  rw [beginning_of_notMem_marks hmark, if_neg hdigit, if_neg hstart]

/-- The keyword behind white space is read as `func`. -/
theorem func_of_scanFrom {fuel line : Nat} {ended : Bool} {gap more : List Char} {tokens : List Token}
    (hgap : ∀ c ∈ gap, isBlank c = true) (hbreak : '\n' ∉ gap)
    (h : scanFrom fuel line ended (gap ++ ("func ".toList ++ more)) = .ok tokens) :
    ∃ t ∈ tokens, t.kind = .func := by
  cases fuel with
  | zero => cases h
  | succ fuel =>
      induction gap with
      | nil =>
          have hskip : skipSpaces ("func ".toList ++ more) = 'f' :: ("unc ".toList ++ more) :=
            skipSpaces_of_head (by decide) (by decide) _
          have hword : ("unc ".toList ++ more).takeWhile isNameChar = "unc".toList := by
            have hunc : "unc ".toList ++ more = "unc".toList ++ ' ' :: more := rfl
            have hchars : ∀ c ∈ "unc".toList, isNameChar c = true := forall_mem_of_all (by decide)
            rw [hunc, List.takeWhile_append_of_pos hchars, List.takeWhile_cons_of_neg (by decide),
              List.append_nil]
          rw [List.nil_append, scanFrom, hskip] at h
          dsimp only at h
          rw [beginning_of_isNameStart (by decide), hword] at h
          obtain ⟨following, -, rfl⟩ := map_cons_eq_ok h
          exact ⟨_, List.mem_cons_self, rfl⟩
      | cons c gap ih =>
          obtain ⟨hc, hgap⟩ := List.forall_mem_cons.mp hgap
          simp only [List.mem_cons, not_or] at hbreak
          by_cases hspace : isSpace c = true
          · rw [List.cons_append, scanFrom, skipSpaces, if_pos hspace] at h
            refine ih hgap hbreak.2 ?_
            rwa [scanFrom]
          · have hhash : c ≠ '#' := by
              rintro rfl
              exact absurd hc (by decide)
            rw [List.cons_append, scanFrom,
              skipSpaces_of_head (Bool.eq_false_iff.mpr hspace) hhash] at h
            dsimp only at h
            rw [beginning_of_isBlank hc (Ne.symm hbreak.1)] at h
            cases h

/-- Where `func` is not read the index finds nothing. -/
theorem declaration?_of_heading_none {line : List Char} (h : HeadsLine line none) :
    declaration? line = none := by
  obtain ⟨words, last, hscan, hlast, -, hwords⟩ := h.reads
  have hnone : afterKeyword? (trimChars line) = none := by
    refine if_neg fun hprefix => ?_
    obtain ⟨more, hmore⟩ := (List.isPrefixOf_iff_prefix.mp hprefix).trans
      (trimEnd_isPrefix (line.dropWhile isBlank))
    have hline : line = line.takeWhile isBlank ++ ("func ".toList ++ more) := by
      rw [hmore, List.takeWhile_append_dropWhile]
    rw [scan_ofList h.null_notMem] at hscan
    have hgap : ∀ c ∈ line.takeWhile isBlank, isBlank c = true := fun c hc => List.mem_takeWhile_imp hc
    have hgapBreak : '\n' ∉ line.takeWhile isBlank :=
      fun hmem => h.lineBreak_notMem ((List.takeWhile_prefix _).subset hmem)
    rw [hline] at hscan
    obtain ⟨t, ht, hkind⟩ := func_of_scanFrom hgap hgapBreak hscan
    obtain ht | ht := List.mem_append.mp ht
    · exact hwords t.face (List.mem_map_of_mem ht) hkind
    · rw [List.mem_singleton.mp ht, hlast] at hkind
      cases hkind
  unfold declaration?
  rw [hnone]
  rfl

/-! ## All lines -/

/-- A line that begins with `func` and the name. -/
def Heads (line : List Char) (name : String) : Prop :=
  ∃ tokens keyword rest, scan (String.ofList line) = .ok tokens ∧
    tokens.map face = (.func, keyword) :: (.identifier, name) :: rest

/-- A line begins with `func` and the name of its header. -/
theorem heads_iff {line : List Char} {header? : Option Header} (h : HeadsLine line header?)
    {name : String} : Heads line name ↔ ∃ header, header? = some header ∧ header.name = name := by
  obtain ⟨words, last, hscan, hlast, -, hheading⟩ := h.reads
  have hheads : Heads line name ↔ ∃ keyword rest, words.map face ++ [last.face] =
      (.func, keyword) :: (.identifier, name) :: rest := by
    unfold Heads
    simp [hscan]
  rw [hheads]
  cases header? with
  | none =>
      refine iff_of_false ?_ nofun
      rintro ⟨keyword, rest, heq⟩
      cases hwords : words.map face with
      | nil =>
          rw [hwords, face, hlast] at heq
          cases heq
      | cons f faces =>
          rw [hwords] at heq
          refine hheading f (by rw [hwords]; exact List.mem_cons_self) ?_
          exact congrArg Prod.fst (List.cons.inj heq).1
  | some header =>
      obtain ⟨faces, more, hwords, hheader⟩ := hheading
      rw [hwords]
      cases hheader with
      | intro => simp

/-- What the index finds on a line is under the name that the line begins with. -/
theorem heads_of_declaration? {line : List Char} {header? : Option Header} (h : HeadsLine line header?)
    {entry : String × String} (hentry : declaration? line = some entry) : Heads line entry.1 := by
  cases header? with
  | none =>
      rw [declaration?_of_heading_none h] at hentry
      cases hentry
  | some header =>
      obtain ⟨l, rfl, hl⟩ := h.exists_layout
      exact (heads_iff h).mpr ⟨header, rfl, (name_of_declaration? hl hentry).symm⟩

section

variable {lines : List (List Char)} {rows : List (Option Header)}
  (h : List.Forall₂ HeadsLine lines rows)
include h

theorem exists_row {line : List Char} (hline : line ∈ lines) : ∃ row ∈ rows, HeadsLine line row := by
  induction h with
  | nil => cases hline
  | cons hfirst _ ih =>
      obtain rfl | hline := List.mem_cons.mp hline
      · exact ⟨_, List.mem_cons_self, hfirst⟩
      · obtain ⟨row, hrow, hheads⟩ := ih hline
        exact ⟨row, List.mem_cons_of_mem _ hrow, hheads⟩

theorem exists_line {row : Option Header} (hrow : row ∈ rows) : ∃ line ∈ lines, HeadsLine line row := by
  induction h with
  | nil => cases hrow
  | cons hfirst _ ih =>
      obtain rfl | hrow := List.mem_cons.mp hrow
      · exact ⟨_, List.mem_cons_self, hfirst⟩
      · obtain ⟨line, hline, hheads⟩ := ih hrow
        exact ⟨line, List.mem_cons_of_mem _ hline, hheads⟩

/-- The names that the index finds are names of headers, in their order. -/
theorem names_sublist : List.Sublist ((lines.filterMap declaration?).map Prod.fst)
    (rows.reduceOption.map (·.name)) := by
  induction h with
  | nil => exact List.Sublist.slnil
  | @cons line row lines rows hfirst _ ih =>
      cases hentry : declaration? line with
      | none =>
          rw [List.filterMap_cons_none hentry]
          cases row with
          | none => exact ih
          | some header => exact ih.cons _
      | some entry =>
          obtain ⟨header, rfl, hname⟩ := (heads_iff hfirst).mp (heads_of_declaration? hfirst hentry)
          rw [List.filterMap_cons_some hentry, List.map_cons, ← hname]
          exact ih.cons_cons _

/-- A line that begins with a name has a header of that name. -/
theorem mem_names {line : List Char} (hline : line ∈ lines) {name : String} (hheads : Heads line name) :
    name ∈ rows.reduceOption.map (·.name) := by
  obtain ⟨row, hrow, hrowHeads⟩ := exists_row h hline
  obtain ⟨header, rfl, rfl⟩ := (heads_iff hrowHeads).mp hheads
  exact List.mem_map_of_mem (List.reduceOption_mem_iff.mpr hrow)

/-- Two lines with headers of one name are the same. -/
theorem eq_of_heads (hnodup : (rows.reduceOption.map (·.name)).Nodup) {line line' : List Char}
    {name : String} (hline : line ∈ lines) (hline' : line' ∈ lines) (hheads : Heads line name)
    (hheads' : Heads line' name) : line = line' := by
  induction h with
  | nil => cases hline
  | @cons first row lines rows hfirst hrest ih =>
      have hother : ∀ other ∈ lines, Heads other name → ¬Heads first name := by
        intro other hother hheads hhead
        obtain ⟨header, rfl, rfl⟩ := (heads_iff hfirst).mp hhead
        exact (List.nodup_cons.mp hnodup).1 (mem_names hrest hother hheads)
      have hrestNodup : (rows.reduceOption.map (·.name)).Nodup := by
        cases row with
        | none => exact hnodup
        | some header => exact (List.nodup_cons.mp hnodup).2
      obtain rfl | hmem := List.mem_cons.mp hline
      · obtain rfl | hmem' := List.mem_cons.mp hline'
        · rfl
        · exact absurd hheads (hother _ hmem' hheads')
      · obtain rfl | hmem' := List.mem_cons.mp hline'
        · exact absurd hheads' (hother _ hmem hheads)
        · exact ih hrestNodup hmem hmem'

/-- What the index knows is what it finds on the lines. -/
theorem get?_declared_iff (hnodup : (rows.reduceOption.map (·.name)).Nodup) (name signature : String) :
    (Dict.ofList (lines.filterMap declaration?)).get? name = some signature ↔
      ∃ line ∈ lines, declaration? line = some (name, signature) := by
  rw [Dict.get?_ofList ((names_sublist h).nodup hnodup), List.mem_filterMap]

/-- The index gives the signature of a header just in case the header is plain. -/
theorem get?_declared_iff_plain (hnodup : (rows.reduceOption.map (·.name)).Nodup) {line : List Char}
    (hline : line ∈ lines) {header : Header} (hheads : HeadsLine line (some header)) :
    (Dict.ofList (lines.filterMap declaration?)).get? header.name =
      some (Signature.render header.name header.params) ↔ Plain line := by
  have hname : Heads line header.name := (heads_iff hheads).mpr ⟨header, rfl, rfl⟩
  obtain ⟨l, rfl, hl⟩ := hheads.exists_layout
  rw [get?_declared_iff h hnodup, ← declaration?_eq_some_iff hl]
  constructor
  · rintro ⟨other, hother, hentry⟩
    obtain ⟨row, -, hrow⟩ := exists_row h hother
    obtain rfl := eq_of_heads h hnodup hother hline (heads_of_declaration? hrow hentry) hname
    exact hentry
  · exact fun hentry => ⟨_, hline, hentry⟩

end

/-! ## Documents that compile -/

section

variable {c : Compiler} (hprelude : c.prelude? = none) {text : String} (hnull : '\x00' ∉ text.toList)
  {tokens : List Token} (hscan : scan text = .ok tokens) (hinline : HeadersInLine (tokens.map (·.kind)))
  {p : Code.Program} (hp : c.compileSource text = .ok p)
include hprelude hnull hscan hinline hp

/-- The lines of a document that compiles have the headers of the compiled functions. -/
theorem exists_rows : ∃ rows, List.Forall₂ HeadsLine (splitOnChar '\n' text.toList) rows ∧
    (rows.reduceOption.map (·.name)).Nodup ∧ ∀ header : Header, header ∈ rows.reduceOption ↔
      header.name ≠ Code.topLevel ∧
        (p.functions.get? header.name).map Code.Function.params = some header.params := by
  have hcompiled : c.compile tokens = .ok p := by
    unfold Compiler.compileSource at hp
    rw [hscan] at hp
    exact hp
  obtain ⟨headers, stop, hheaded, hnodup, hmem⟩ :=
    c.headed_of_compile hprelude (proper_of_scan hscan).1 hcompiled
  obtain ⟨rows, hrows, rfl⟩ :=
    exists_headsLines hnull (by rwa [String.ofList_toList]) hheaded hinline
  exact ⟨rows, hrows, hnodup, hmem⟩

/-- Where the function index of a document that compiles agrees with the compiler. It has no functions but
those of the program. Each of these has one line with its header, and the index gives its name with the
compiled parameters just in case the header is plain. So the index has the functions of the program with
their parameters where all headers are plain. -/
theorem declared_functions :
    (∀ name signature, (declared text).get? name = some signature →
      name ≠ Code.topLevel ∧ ∃ f, p.functions.get? name = some f) ∧
    (∀ name f, name ≠ Code.topLevel → p.functions.get? name = some f →
      ∃ line ∈ splitOnChar '\n' text.toList, Heads line name ∧
        (∀ other ∈ splitOnChar '\n' text.toList, Heads other name → other = line) ∧
        ((declared text).get? name = some (Signature.render name f.params) ↔ Plain line)) ∧
    ((∀ line ∈ splitOnChar '\n' text.toList, ∀ name, Heads line name → Plain line) →
      ∀ name signature, (declared text).get? name = some signature ↔ name ≠ Code.topLevel ∧
        ∃ f, p.functions.get? name = some f ∧ signature = Signature.render name f.params) := by
  obtain ⟨rows, hrows, hnodup, hmem⟩ := exists_rows hprelude hnull hscan hinline hp
  have hknown : ∀ name signature, (declared text).get? name = some signature →
      name ≠ Code.topLevel ∧ ∃ f, p.functions.get? name = some f := by
    intro name signature hget
    obtain ⟨line, hline, hentry⟩ := (get?_declared_iff hrows hnodup name signature).mp hget
    obtain ⟨row, -, hrow⟩ := exists_row hrows hline
    obtain ⟨header, hheader, rfl⟩ :=
      List.mem_map.mp (mem_names hrows hline (heads_of_declaration? hrow hentry))
    obtain ⟨hne, hparams⟩ := (hmem header).mp hheader
    obtain ⟨f, hf, -⟩ := Option.map_eq_some_iff.mp hparams
    exact ⟨hne, f, hf⟩
  have hfound : ∀ name f, name ≠ Code.topLevel → p.functions.get? name = some f →
      ∃ line ∈ splitOnChar '\n' text.toList, Heads line name ∧
        (∀ other ∈ splitOnChar '\n' text.toList, Heads other name → other = line) ∧
        ((declared text).get? name = some (Signature.render name f.params) ↔ Plain line) := by
    intro name f hne hf
    have hheader : (⟨name, f.params⟩ : Header) ∈ rows.reduceOption :=
      (hmem _).mpr ⟨hne, by rw [hf]; rfl⟩
    obtain ⟨line, hline, hheads⟩ := exists_line hrows (List.reduceOption_mem_iff.mp hheader)
    have hname : Heads line name := (heads_iff hheads).mpr ⟨_, rfl, rfl⟩
    exact ⟨line, hline, hname,
      fun other hother hotherName => eq_of_heads hrows hnodup hother hline hotherName hname,
      get?_declared_iff_plain hrows hnodup hline hheads⟩
  refine ⟨hknown, hfound, fun hplain name signature => ⟨fun hget => ?_, ?_⟩⟩
  · obtain ⟨hne, f, hf⟩ := hknown name signature hget
    obtain ⟨line, hline, hname, -, hiff⟩ := hfound name f hne hf
    refine ⟨hne, f, hf, ?_⟩
    rw [hiff.mpr (hplain line hline name hname)] at hget
    exact (Option.some.inj hget).symm
  · rintro ⟨hne, f, hf, rfl⟩
    obtain ⟨line, hline, hname, -, hiff⟩ := hfound name f hne hf
    exact hiff.mpr (hplain line hline name hname)

end

/-- Where the headers are plain, what the index has is in the program. -/
theorem declared_functions_plain :
    ∃ p f, Compiler.compileSource {} "n = 1\n  func f( x ,y )  # x and y\nreturn x\nend" = .ok p ∧
      p.functions.get? "f" = some f ∧ "f(x, y)" = Signature.render "f" f.params := by
  generalize htext : "n = 1\n  func f( x ,y )  # x and y\nreturn x\nend" = text
  have hok : (Compiler.compileSource {} text).isOk = true := by
    rw [← htext]
    decide +kernel
  have hinline : (scan text).toOption.any (fun tokens => HeadersInLine (tokens.map (·.kind))) = true := by
    rw [← htext]
    decide +kernel
  have hheads : ∀ line ∈ splitOnChar '\n' text.toList,
      (scan (String.ofList line)).toOption.any (fun tokens => tokens.head?.any (·.kind = .func)) = true →
        Plain line := by
    rw [← htext]
    decide +kernel
  have hplain : ∀ line ∈ splitOnChar '\n' text.toList, ∀ name, Heads line name → Plain line := by
    rintro line hline name ⟨words, keyword, rest, hwords, hfaces⟩
    refine hheads line hline ?_
    rw [hwords]
    cases words with
    | nil => cases hfaces
    | cons t words => exact decide_eq_true (congrArg Prod.fst (List.cons.inj hfaces).1)
  cases hscan : scan text with
  | error e =>
      rw [hscan] at hinline
      cases hinline
  | ok tokens =>
      rw [hscan] at hinline
      cases hp : Compiler.compileSource {} text with
      | error e =>
          rw [hp] at hok
          cases hok
      | ok p =>
          obtain ⟨-, -, hagree⟩ := declared_functions rfl (by rw [← htext]; decide) hscan
            (of_decide_eq_true hinline) hp
          have hknown : (declared text).get? "f" = some "f(x, y)" := by
            rw [← htext]
            decide +kernel
          obtain ⟨-, f, hf, hrender⟩ := (hagree hplain "f" "f(x, y)").mp hknown
          exact ⟨p, f, rfl, hf, hrender⟩

/-- A comment with a parenthesis behind a header becomes part of the parameters. -/
theorem declared_functions_comment :
    (Registry.standard.compiler.toOption.bind fun c =>
        (c.compileSource "func f(a) # twice (a)\n  return a + a\nend\n").toOption.map fun p =>
          (p.functions.get? "f").map Code.Function.params) = some (some ["a"]) ∧
      ((scan "func f(a) # twice (a)\n  return a + a\nend\n").toOption.any fun tokens =>
        decide (HeadersInLine (tokens.map (·.kind)))) = true ∧
      (declared "func f(a) # twice (a)\n  return a + a\nend\n").get? "f" =
        some "f(a) # twice (a)" ∧
      (declared "func f(a) # twice (a)\n  return a + a\nend\n").get? "f" ≠
        some (Signature.render "f" ["a"]) := by
  refine ⟨?_, ?_⟩ <;> decide +kernel

end LineScript.Editor
