/-
# Signatures and their canonical form

What a signature declares is a list of distinct parameters without commas and without white space
at their ends. Writing such a list in the canonical form and reading it again gives the list back,
whenever the name in front has no opening parenthesis. So whoever is handed canonical signatures
knows the parameters as well as whoever read the signatures first.
-/

import Mathlib
import LineScript.Signature

namespace LineScript.Text

/-! ## White space at the ends -/

/-- There is no white space at either end. -/
structure Trimmed (cs : List Char) : Prop where
  head : ∀ c ∈ cs.head?, isBlank c = false
  last : ∀ c ∈ cs.getLast?, isBlank c = false

theorem trimEnd_isPrefix (cs : List Char) : trimEnd cs <+: cs := by
  induction cs with
  | nil => exact List.prefix_rfl
  | cons c rest ih =>
      unfold trimEnd
      split
      · split
        · exact List.nil_prefix
        · exact (List.prefix_cons_inj c).mpr List.nil_prefix
      · exact (List.prefix_cons_inj c).mpr ih

theorem isBlank_getLast?_trimEnd (cs : List Char) :
    ∀ c ∈ (trimEnd cs).getLast?, isBlank c = false := by
  induction cs with
  | nil => nofun
  | cons c rest ih =>
      unfold trimEnd
      split
      · split
        · nofun
        · rename_i hblank
          rintro _ ⟨⟩
          exact Bool.eq_false_iff.mpr hblank
      · rename_i kept hkept
        intro d hd
        rw [List.getLast?_cons_of_ne_nil (by simpa using hkept)] at hd
        exact ih d hd

theorem trimEnd_eq_self {cs : List Char} (h : ∀ c ∈ cs.getLast?, isBlank c = false) :
    trimEnd cs = cs := by
  induction cs with
  | nil => rfl
  | cons c rest ih =>
      unfold trimEnd
      cases rest with
      | nil =>
          have hc := h c rfl
          simp [trimEnd, hc]
      | cons d rest =>
          have hrest := ih fun e he => h e (by rw [List.getLast?_cons_cons]; exact he)
          rw [hrest]

theorem trimmed_trimChars (cs : List Char) : Trimmed (trimChars cs) := by
  refine ⟨fun c hc => ?_, isBlank_getLast?_trimEnd _⟩
  have hhead : (cs.dropWhile isBlank).head? = some c := by
    obtain ⟨rest, hrest⟩ := trimEnd_isPrefix (cs.dropWhile isBlank)
    unfold trimChars at hc
    rw [← hrest, List.head?_append, Option.mem_def.mp hc]
    rfl
  have hnot := List.head?_dropWhile_not isBlank cs
  rw [hhead] at hnot
  exact hnot

theorem Trimmed.trimChars_eq {cs : List Char} (h : Trimmed cs) : trimChars cs = cs := by
  unfold trimChars
  have hdrop : cs.dropWhile isBlank = cs := by
    cases cs with
    | nil => rfl
    | cons c rest => exact List.dropWhile_cons_of_neg (by simp [h.head c rfl])
  rw [hdrop]
  exact trimEnd_eq_self h.last

/-- White space in front is dropped. -/
theorem trimChars_cons_of_blank {c : Char} (h : isBlank c = true) (cs : List Char) :
    trimChars (c :: cs) = trimChars cs := by
  unfold trimChars
  rw [List.dropWhile_cons_of_pos h]

/-! ## Pieces between separators -/

theorem splitOnChar_ne_nil (separator : Char) (cs : List Char) : splitOnChar separator cs ≠ [] := by
  cases cs with
  | nil => exact List.cons_ne_nil _ _
  | cons c rest =>
      unfold splitOnChar
      split
      · exact List.cons_ne_nil _ _
      · split <;> exact List.cons_ne_nil _ _

theorem splitOnChar_cons_of_ne {separator c : Char} (h : c ≠ separator) {cs piece : List Char}
    {pieces : List (List Char)} (hcs : splitOnChar separator cs = piece :: pieces) :
    splitOnChar separator (c :: cs) = (c :: piece) :: pieces := by
  rw [splitOnChar, if_neg h, hcs]

theorem not_mem_of_mem_splitOnChar {separator : Char} {cs : List Char} :
    ∀ piece ∈ splitOnChar separator cs, separator ∉ piece := by
  induction cs with
  | nil => simp [splitOnChar]
  | cons c rest ih =>
      by_cases h : c = separator
      · rw [splitOnChar, if_pos h]
        exact List.forall_mem_cons.mpr ⟨List.not_mem_nil, ih⟩
      · obtain ⟨piece, pieces, hrest⟩ := List.exists_cons_of_ne_nil (splitOnChar_ne_nil separator rest)
        rw [hrest] at ih
        rw [splitOnChar_cons_of_ne h hrest]
        obtain ⟨hpiece, hpieces⟩ := List.forall_mem_cons.mp ih
        refine List.forall_mem_cons.mpr ⟨?_, hpieces⟩
        simp only [List.mem_cons, not_or]
        exact ⟨Ne.symm h, hpiece⟩

theorem splitOnChar_of_not_mem {separator : Char} {cs : List Char} (h : separator ∉ cs) :
    splitOnChar separator cs = [cs] := by
  induction cs with
  | nil => rfl
  | cons c rest ih =>
      simp only [List.mem_cons, not_or] at h
      exact splitOnChar_cons_of_ne (Ne.symm h.1) (ih h.2)

theorem splitOnChar_append {separator : Char} {piece : List Char} (h : separator ∉ piece)
    (cs : List Char) :
    splitOnChar separator (piece ++ separator :: cs) = piece :: splitOnChar separator cs := by
  induction piece with
  | nil =>
      rw [List.nil_append, splitOnChar, if_pos rfl]
  | cons c rest ih =>
      simp only [List.mem_cons, not_or] at h
      exact splitOnChar_cons_of_ne (Ne.symm h.1) (ih h.2)

/-! ## Joined texts -/

theorem toList_foldl_joined (separator : String) (first : String) (rest : List String) :
    (rest.foldl (fun out t => out ++ separator ++ t) first).toList =
      first.toList ++ rest.flatMap fun t => separator.toList ++ t.toList := by
  induction rest generalizing first with
  | nil => simp
  | cons t rest ih =>
      rw [List.foldl_cons, ih]
      simp

theorem toList_joined_cons (separator first : String) (rest : List String) :
    (joined separator (first :: rest)).toList =
      first.toList ++ rest.flatMap fun t => separator.toList ++ t.toList :=
  toList_foldl_joined separator first rest

end LineScript.Text

namespace LineScript.Signature

open LineScript.Text

/-! ## Parameters -/

/-- A parameter as signatures declare them. -/
structure IsParameter (name : String) : Prop where
  ne_empty : name ≠ ""
  comma : ',' ∉ name.toList
  trimmed : Trimmed name.toList

/-- The parameters of a signature: each is one, and no two are the same. -/
structure AreParameters (params : List String) : Prop where
  each : ∀ name ∈ params, IsParameter name
  nodup : params.Nodup

theorem distinct?_eq_ok_iff {seen names found : List String} :
    distinct? seen names = .ok found ↔
      found = names ∧ (∀ name ∈ names, name ≠ "" ∧ name ∉ seen) ∧ names.Nodup := by
  induction names generalizing seen found with
  | nil => simp [distinct?, eq_comm]
  | cons name rest ih =>
      unfold distinct?
      by_cases hempty : name = ""
      · simp [hempty]
      rw [if_neg hempty]
      by_cases hseen : name ∈ seen
      · simp [hseen]
      rw [if_neg (by simpa using hseen)]
      -- What is seen now is what was seen before and the name just read.
      have hrest : ∀ found, distinct? (name :: seen) rest = .ok found ↔
          found = rest ∧ (∀ other ∈ rest, other ≠ "" ∧ other ∉ seen) ∧ (name :: rest).Nodup := by
        intro found
        rw [ih, List.nodup_cons]
        simp only [List.mem_cons, not_or]
        constructor
        · rintro ⟨hfound, hothers, hnodup⟩
          exact ⟨hfound, fun other h => ⟨(hothers other h).1, (hothers other h).2.2⟩,
            fun h => (hothers name h).2.1 rfl, hnodup⟩
        · rintro ⟨hfound, hothers, hfresh, hnodup⟩
          exact ⟨hfound, fun other h => ⟨(hothers other h).1, fun heq => hfresh (heq ▸ h),
            (hothers other h).2⟩, hnodup⟩
      cases hdistinct : distinct? (name :: seen) rest with
      | error cause =>
          have hnone := hrest rest
          rw [hdistinct] at hnone
          simp only [reduceCtorEq, true_and, false_iff] at hnone
          simp only [Except.map, reduceCtorEq, List.forall_mem_cons, false_iff]
          exact fun h => hnone ⟨h.2.1.2, h.2.2⟩
      | ok others =>
          obtain ⟨rfl, hothers, hnodup⟩ := (hrest others).mp hdistinct
          simp only [Except.map, Except.ok.injEq, List.forall_mem_cons]
          exact ⟨fun h => ⟨h.symm, ⟨⟨hempty, hseen⟩, hothers⟩, hnodup⟩, fun h => h.1.symm⟩

/-- What a signature declares are parameters. -/
theorem areParameters_of_parse {signature : String} {params : List String}
    (h : parse signature = .ok params) : AreParameters params := by
  unfold parse at h
  split at h
  · cases h
  · split at h
    · cases h
      exact ⟨List.forall_mem_nil _, List.nodup_nil⟩
    · rename_i trimmed _
      dsimp only at h
      split at h
      · rename_i names hdistinct
        cases h
        obtain ⟨rfl, hnames, hnodup⟩ := distinct?_eq_ok_iff.mp hdistinct
        refine ⟨fun name hname => ?_, hnodup⟩
        obtain ⟨piece, hpiece, rfl⟩ := List.mem_map.mp hname
        refine ⟨(hnames _ hname).1, ?_, ?_⟩
        · rw [String.toList_ofList]
          have hsublist : trimChars piece <:+: piece :=
            (trimEnd_isPrefix _).isInfix.trans (List.dropWhile_suffix _).isInfix
          exact fun hcomma => not_mem_of_mem_splitOnChar piece hpiece (hsublist.subset hcomma)
        · rw [String.toList_ofList]
          exact trimmed_trimChars piece
      · cases h

/-! ## The canonical form -/

theorem beforeLastClose_append (inner : List Char) :
    beforeLastClose (inner ++ [')']) = some inner := by
  induction inner with
  | nil => rfl
  | cons c rest ih =>
      rw [List.cons_append, beforeLastClose, ih]

theorem between?_of_not_mem {name : List Char} (h : '(' ∉ name) (inner : List Char) :
    between? (name ++ '(' :: (inner ++ [')'])) = some inner := by
  have hdrop : (name ++ '(' :: (inner ++ [')'])).dropWhile (· ≠ '(') = '(' :: (inner ++ [')']) := by
    rw [List.dropWhile_append_of_pos (by
      intro c hc
      simpa using fun heq : c = '(' => h (heq ▸ hc))]
    exact List.dropWhile_cons_of_neg (by simp)
  unfold between?
  rw [hdrop]
  exact beforeLastClose_append inner

/-- The parameters as the canonical form writes them. -/
def written (params : List String) : List Char := (joined ", " params).toList

theorem written_cons_cons (first next : String) (rest : List String) :
    written (first :: next :: rest) = first.toList ++ ',' :: ' ' :: written (next :: rest) := by
  unfold written
  rw [toList_joined_cons, toList_joined_cons]
  rfl

theorem IsParameter.toList_ne_nil {name : String} (h : IsParameter name) : name.toList ≠ [] :=
  fun hnil => h.ne_empty (String.toList_eq_nil_iff.mp hnil)

namespace AreParameters

theorem written_ne_nil {first : String} {rest : List String} (h : AreParameters (first :: rest)) :
    written (first :: rest) ≠ [] := by
  have hfirst := (h.each first List.mem_cons_self).toList_ne_nil
  cases rest with
  | nil => exact hfirst
  | cons next rest =>
      rw [written_cons_cons]
      exact fun hnil => hfirst (List.append_eq_nil_iff.mp hnil).1

theorem tail {first : String} {rest : List String} (h : AreParameters (first :: rest)) :
    AreParameters rest :=
  ⟨(List.forall_mem_cons.mp h.each).2, (List.nodup_cons.mp h.nodup).2⟩

/-- The canonical form begins with the first parameter and ends with the last. -/
theorem trimmed_written {params : List String} (h : AreParameters params) :
    Trimmed (written params) := by
  induction params with
  | nil => exact ⟨nofun, nofun⟩
  | cons first rest ih =>
      have hfirst := h.each first List.mem_cons_self
      cases rest with
      | nil => exact hfirst.trimmed
      | cons next rest =>
          have hrest := ih h.tail
          rw [written_cons_cons]
          refine ⟨fun c hc => ?_, fun c hc => ?_⟩
          · obtain ⟨a, as, hcons⟩ := List.exists_cons_of_ne_nil hfirst.toList_ne_nil
            rw [hcons] at hc
            exact hfirst.trimmed.head c (by rw [hcons]; exact hc)
          · rw [List.getLast?_append, List.getLast?_cons_cons,
              List.getLast?_cons_of_ne_nil h.tail.written_ne_nil,
              List.getLast?_eq_some_getLast h.tail.written_ne_nil] at hc
            exact hrest.last c (by rw [List.getLast?_eq_some_getLast h.tail.written_ne_nil]; exact hc)

/-- Between the commas are the parameters, each but the first behind a space. -/
theorem splitOnChar_written {first : String} {rest : List String}
    (h : AreParameters (first :: rest)) :
    splitOnChar ',' (written (first :: rest)) = first.toList :: rest.map (' ' :: ·.toList) := by
  have hcomma := (h.each first List.mem_cons_self).comma
  induction rest generalizing first with
  | nil => exact splitOnChar_of_not_mem hcomma
  | cons next rest ih =>
      have hnext := (h.tail.each next List.mem_cons_self).comma
      rw [written_cons_cons, splitOnChar_append hcomma,
        splitOnChar_cons_of_ne (by decide) (ih h.tail hnext), List.map_cons]

/-- The canonical form is read as the parameters it was made of. -/
theorem parse_render {params : List String} (h : AreParameters params) {name : String}
    (hname : '(' ∉ name.toList) : parse (render name params) = .ok params := by
  have hinner : between? (render name params).toList = some (written params) := by
    unfold render
    simpa [written] using between?_of_not_mem hname (written params)
  unfold parse
  rw [hinner]
  dsimp only
  rw [h.trimmed_written.trimChars_eq]
  cases params with
  | nil => rfl
  | cons first rest =>
      have htrim : ∀ other ∈ first :: rest, String.ofList (trimChars other.toList) = other := by
        intro other hother
        rw [(h.each other hother).trimmed.trimChars_eq, String.ofList_toList]
      obtain ⟨hfirst, hrest⟩ := List.forall_mem_cons.mp htrim
      have hnames : (splitOnChar ',' (written (first :: rest))).map
          (fun piece => String.ofList (trimChars piece)) = first :: rest := by
        rw [h.splitOnChar_written, List.map_cons, hfirst, List.map_map]
        congr 1
        conv => rhs; rw [← List.map_id rest]
        refine List.map_congr_left fun other hother => ?_
        rw [Function.comp_apply, trimChars_cons_of_blank (by decide), hrest other hother, id]
      have hdistinct : distinct? [] (first :: rest) = .ok (first :: rest) :=
        distinct?_eq_ok_iff.mpr ⟨rfl, fun other hother =>
          ⟨(h.each other hother).ne_empty, List.not_mem_nil⟩, h.nodup⟩
      split
      · rename_i hnil
        exact absurd hnil h.written_ne_nil
      · rw [hnames, hdistinct]

end AreParameters

end LineScript.Signature
