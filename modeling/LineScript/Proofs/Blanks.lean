/-
# Blanks

What separates tokens: spaces, line breaks, and comments, which go on to the ends of their lines. Two
parts of the scanner skip them. The one stops at a line break, the other goes on over whole lines and
counts them; both skip all there is, and nothing else.
-/

import LineScript.Proofs.Scanning

namespace LineScript.Token

/-- Line breaks, spaces and comments that stand before `rest`. A comment goes on to the end of its
line. -/
inductive Blank (rest : List Char) : List Char → Prop where
  | nil : Blank rest []
  | lineBreak {cs : List Char} : Blank rest cs → Blank rest ('\n' :: cs)
  | space {c : Char} {cs : List Char} : isSpace c = true → Blank rest cs → Blank rest (c :: cs)
  | comment {text cs : List Char} : '\n' ∉ text → (∀ c, (cs ++ rest).head? = some c → c = '\n') →
      Blank rest cs → Blank rest ('#' :: text ++ cs)

/-- Blanks are blanks by themselves, too. -/
theorem Blank.alone {rest cs : List Char} (h : Blank rest cs) : Blank [] cs := by
  induction h with
  | nil => exact .nil
  | lineBreak _ ih => exact .lineBreak ih
  | space hspace _ ih => exact .space hspace ih
  | comment htext hend _ ih =>
      rename_i cs _
      refine .comment htext ?_ ih
      cases cs with
      | nil => simp
      | cons d cs => simpa using hend

/-- What a line ends with is a line break, unless it is the last one. -/
theorem head?_dropWhile_break {cs : List Char} {c : Char}
    (h : (cs.dropWhile (· ≠ '\n')).head? = some c) : c = '\n' := by
  have hhead := List.head?_dropWhile_not (fun x => decide (x ≠ '\n')) cs
  rw [h] at hhead
  simpa using hhead

theorem notMem_takeWhile_break (cs : List Char) : '\n' ∉ cs.takeWhile (· ≠ '\n') := by
  intro hmem
  simpa using List.all_eq_true.mp List.all_takeWhile _ hmem

/-- Before a token or a line break stand spaces and at most one comment. -/
theorem exists_append_skipSpaces (cs : List Char) :
    ∃ gap, cs = gap ++ skipSpaces cs ∧ Blank (skipSpaces cs) gap ∧ '\n' ∉ gap := by
  induction cs with
  | nil => exact ⟨[], rfl, .nil, by simp⟩
  | cons c rest ih =>
      rw [skipSpaces]
      split
      · rename_i hspace
        obtain ⟨gap, hgap, hblank, hbreak⟩ := ih
        refine ⟨c :: gap, by rw [List.cons_append, ← hgap], .space hspace hblank, ?_⟩
        rintro (_ | ⟨_, hmem⟩)
        · cases hspace
        · exact hbreak hmem
      · split
        · rename_i hhash
          subst hhash
          have hcomment : Blank (rest.dropWhile (· ≠ '\n')) ('#' :: rest.takeWhile (· ≠ '\n') ++ []) :=
            .comment (notMem_takeWhile_break rest) (fun c h => head?_dropWhile_break h) .nil
          rw [List.append_nil] at hcomment
          refine ⟨_, ?_, hcomment, ?_⟩
          · rw [List.cons_append, List.takeWhile_append_dropWhile]
          · rintro (_ | ⟨_, hmem⟩)
            exact notMem_takeWhile_break rest hmem
        · exact ⟨[], rfl, .nil, by simp⟩

/-- Behind a line break stand blanks, after what is left of a comment. -/
theorem exists_append_skipLines (inComment : Bool) (line : Nat) (cs : List Char) :
    ∃ text blank, cs = text ++ (blank ++ (skipLines inComment line cs).2) ∧
      Blank (skipLines inComment line cs).2 blank ∧
      (skipLines inComment line cs).1 = line + blank.count '\n' ∧ '\n' ∉ text ∧
      if inComment then ∀ c, (blank ++ (skipLines inComment line cs).2).head? = some c → c = '\n'
      else text = [] := by
  induction cs generalizing inComment line with
  | nil => exact ⟨[], [], rfl, .nil, rfl, by simp, by cases inComment <;> simp [skipLines]⟩
  | cons c rest ih =>
      rw [skipLines]
      by_cases hbreak : c = '\n'
      · subst hbreak
        rw [if_pos rfl]
        obtain ⟨text, blank, hrest, hblank, hline, -, htext⟩ := ih false (line + 1)
        obtain rfl : text = [] := htext
        refine ⟨[], '\n' :: blank, congrArg ('\n' :: ·) hrest, .lineBreak hblank, ?_, by simp, ?_⟩
        · rw [hline, List.count_cons_self]
          omega
        · cases inComment <;> simp
      rw [if_neg hbreak]
      cases inComment with
      | true =>
          obtain ⟨text, blank, hrest, hblank, hline, htext, hend⟩ := ih true line
          rw [if_pos rfl]
          refine ⟨c :: text, blank, congrArg (c :: ·) hrest, hblank, hline, ?_, hend⟩
          rintro (_ | ⟨_, hmem⟩)
          · exact hbreak rfl
          · exact htext hmem
      | false =>
          rw [if_neg Bool.false_ne_true]
          split
          · rename_i hspace
            obtain ⟨text, blank, hrest, hblank, hline, -, htext⟩ := ih false line
            obtain rfl : text = [] := htext
            refine ⟨[], c :: blank, congrArg (c :: ·) hrest, .space hspace hblank, ?_, by simp, rfl⟩
            rw [hline, List.count_cons_of_ne hbreak]
          · split
            · rename_i hhash
              subst hhash
              obtain ⟨text, blank, hrest, hblank, hline, htext, hend⟩ := ih true line
              have happend := hrest.trans (List.append_assoc text blank _).symm
              refine ⟨[], '#' :: text ++ blank, congrArg ('#' :: ·) happend,
                .comment htext hend hblank, ?_, by simp, rfl⟩
              rw [hline, List.count_append, List.count_cons_of_ne (by decide),
                List.count_eq_zero.mpr htext, Nat.zero_add]
            · exact ⟨[], [], rfl, .nil, rfl, by simp, rfl⟩

theorem skipLines_comment {text : List Char} (h : '\n' ∉ text) (line : Nat) (cs : List Char) :
    skipLines true line (text ++ cs) = skipLines true line cs := by
  induction text with
  | nil => rfl
  | cons c text ih =>
      rw [List.mem_cons, not_or] at h
      rw [List.cons_append, skipLines, if_neg (Ne.symm h.1), if_pos rfl, ih h.2]

/-- All blanks that stand somewhere are skipped. -/
theorem Blank.length_skipLines_le {more blank : List Char} (h : Blank more blank) (line : Nat)
    (rest : List Char) : (skipLines false line (blank ++ rest)).2.length ≤ rest.length := by
  induction h generalizing line with
  | nil => exact Token.length_skipLines_le _ _ _
  | lineBreak _ ih =>
      rw [List.cons_append, skipLines, if_pos rfl]
      exact ih _
  | space hspace _ ih =>
      rename_i c cs _
      have hbreak : c ≠ '\n' := by
        rintro rfl
        cases hspace
      rw [List.cons_append, skipLines, if_neg hbreak, if_neg Bool.false_ne_true, if_pos hspace]
      exact ih _
  | comment htext hend _ ih =>
      rename_i text cs _
      rw [List.append_assoc, List.cons_append, skipLines, if_neg (by decide),
        if_neg Bool.false_ne_true, if_neg (by decide), if_pos rfl, skipLines_comment htext]
      cases cs with
      | nil => exact Token.length_skipLines_le _ _ _
      | cons c cs =>
          obtain rfl : c = '\n' := hend c rfl
          exact ih line

/-- Behind blanks stands a token or nothing. -/
theorem head_skipLines {inComment : Bool} {line : Nat} {cs rest : List Char} {c : Char}
    (h : (skipLines inComment line cs).2 = c :: rest) : isSpace c = false ∧ c ≠ '#' ∧ c ≠ '\n' := by
  induction cs generalizing inComment line with
  | nil => cases h
  | cons d cs ih =>
      rw [skipLines] at h
      split at h
      · exact ih h
      · rename_i hbreak
        split at h
        · exact ih h
        · split at h
          · exact ih h
          · rename_i hspace
            split at h
            · exact ih h
            · rename_i hhash
              cases h
              exact ⟨Bool.eq_false_iff.mpr hspace, hhash, hbreak⟩

/-! ## What is skipped twice -/

/-- What spaces are skipped up to is no space and begins no comment. -/
theorem head_skipSpaces {cs rest : List Char} {c : Char} (h : skipSpaces cs = c :: rest) :
    isSpace c = false ∧ c ≠ '#' := by
  induction cs with
  | nil => cases h
  | cons d cs ih =>
      unfold skipSpaces at h
      split at h
      · exact ih h
      · rename_i hspace
        split at h
        · have hhead := List.head?_dropWhile_not (fun x => decide (x ≠ '\n')) cs
          rw [h] at hhead
          have hc : c = '\n' := by simpa using hhead
          subst hc
          exact ⟨by decide, by decide⟩
        · rename_i hhash
          cases h
          exact ⟨Bool.eq_false_iff.mpr hspace, hhash⟩

theorem skipSpaces_of_head {c : Char} (hspace : isSpace c = false) (hhash : c ≠ '#')
    (rest : List Char) : skipSpaces (c :: rest) = c :: rest := by
  rw [skipSpaces, if_neg (by simp [hspace]), if_neg hhash]

/-- Spaces are skipped with the lines. -/
theorem skipLines_skipSpaces (line : Nat) (cs : List Char) :
    skipLines false line (skipSpaces cs) = skipLines false line cs := by
  have hcomment : ∀ (rest : List Char) (line : Nat),
      skipLines false line (rest.dropWhile (· ≠ '\n')) = skipLines true line rest := by
    intro rest
    induction rest with
    | nil => exact fun _ => rfl
    | cons c rest ih =>
        intro line
        by_cases hc : c = '\n'
        · subst hc
          rfl
        · rw [List.dropWhile_cons_of_pos (by simpa using hc), skipLines, if_neg hc, if_pos rfl]
          exact ih line
  induction cs with
  | nil => rfl
  | cons c rest ih =>
      by_cases hspace : isSpace c = true
      · have hc : c ≠ '\n' := by
          rintro rfl
          cases hspace
        rw [skipSpaces, if_pos hspace, ih, skipLines, if_neg hc, if_neg Bool.false_ne_true,
          if_pos hspace]
      · by_cases hhash : c = '#'
        · subst hhash
          rw [skipSpaces, if_neg hspace, if_pos rfl, hcomment]
          rfl
        · rw [skipSpaces, if_neg hspace, if_neg hhash]

/-- What lines are skipped up to is no space and begins no comment. -/
theorem skipSpaces_skipLines (inComment : Bool) (line : Nat) (cs : List Char) :
    skipSpaces (skipLines inComment line cs).2 = (skipLines inComment line cs).2 := by
  induction cs generalizing inComment line with
  | nil => rfl
  | cons c rest ih =>
      rw [skipLines]
      split
      · exact ih _ _
      · split
        · exact ih _ _
        · split
          · exact ih _ _
          · rename_i hspace
            split
            · exact ih _ _
            · rename_i hhash
              exact skipSpaces_of_head (Bool.eq_false_iff.mpr hspace) hhash rest

/-- Blank lines go on from one text into the next. -/
theorem skipLines_append_blank {inComment : Bool} {line : Nat} {cs : List Char} (more : List Char)
    (h : (skipLines inComment line cs).2 = []) :
    skipLines inComment line (cs ++ '\n' :: more) =
      skipLines false (line + cs.count '\n' + 1) more := by
  induction cs generalizing inComment line with
  | nil => rw [List.nil_append, skipLines, if_pos rfl, List.count_nil, Nat.add_zero]
  | cons c rest ih =>
      rw [List.cons_append, skipLines]
      rw [skipLines] at h
      by_cases hc : c = '\n'
      · subst hc
        rw [if_pos rfl] at h ⊢
        rw [ih h, List.count_cons_self, Nat.add_right_comm line 1, Nat.add_assoc line]
      · rw [List.count_cons_of_ne hc]
        rw [if_neg hc] at h ⊢
        split
        · rename_i hcomment
          rw [if_pos hcomment] at h
          exact ih h
        · rename_i hcomment
          rw [if_neg hcomment] at h
          split
          · rename_i hspace
            rw [if_pos hspace] at h
            exact ih h
          · rename_i hspace
            rw [if_neg hspace] at h
            split
            · rename_i hhash
              rw [if_pos hhash] at h
              exact ih h
            · rename_i hhash
              rw [if_neg hhash] at h
              cases h

/-! ## Blanks next to each other -/

theorem Blank.append {rest xs ys : List Char} (h : Blank (ys ++ rest) xs) (h' : Blank rest ys) :
    Blank rest (xs ++ ys) := by
  induction h with
  | nil => exact h'
  | lineBreak _ ih => exact .lineBreak ih
  | space hspace _ ih => exact .space hspace ih
  | comment htext hend _ ih =>
      rw [List.append_assoc]
      refine .comment htext ?_ ih
      rwa [List.append_assoc]

/-- Blanks can be cut at a line break, whatever follows it then. -/
theorem Blank.before_break {rest xs ys : List Char} (h : Blank rest (xs ++ '\n' :: ys))
    (rest' : List Char) : Blank ('\n' :: rest') xs := by
  generalize hcs : xs ++ '\n' :: ys = cs at h
  induction h generalizing xs with
  | nil => simp at hcs
  | lineBreak _ ih =>
      cases xs with
      | nil => exact .nil
      | cons c xs =>
          obtain ⟨rfl, hxs⟩ := List.cons.inj hcs
          exact .lineBreak (ih hxs)
  | space hspace _ ih =>
      cases xs with
      | nil => exact .nil
      | cons c xs =>
          obtain ⟨rfl, hxs⟩ := List.cons.inj hcs
          exact .space hspace (ih hxs)
  | @comment text cs htext hend _ ih =>
      cases xs with
      | nil => exact .nil
      | cons c xs =>
          obtain ⟨rfl, hxs⟩ := List.cons.inj hcs
          -- The line break stands behind the comment.
          obtain ⟨zs, rfl, hzs⟩ : ∃ zs, xs = text ++ zs ∧ zs ++ '\n' :: ys = cs := by
            rcases List.append_eq_append_iff.mp hxs with ⟨zs, rfl, hbreak⟩ | ⟨zs, rfl, hzs⟩
            · cases zs with
              | nil => exact ⟨[], by simp, hbreak⟩
              | cons z zs =>
                  obtain ⟨rfl, -⟩ := List.cons.inj hbreak
                  exact absurd (by simp) htext
            · exact ⟨zs, rfl, hzs.symm⟩
          refine .comment htext ?_ (ih hzs)
          subst hzs
          cases zs with
          | nil => simp
          | cons z zs => exact hend

end LineScript.Token
