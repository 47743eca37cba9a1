/-
# The tokens of joined texts, up to their lines

Where tokens stand does not matter to what they mean. Up to their lines the tokens of two texts that are
joined with a line break are those of the texts, one after another. Only a line break at the beginning of
the second text gets lost: a run of line breaks is one token, and the text before ends with one anyway.
-/

import LineScript.Proofs.LineByLine

namespace LineScript.Token

/-- Tokens up to the lines they stand on, without the line break that the first ones may begin with. -/
def Trimmed (tokens tokens' : List Token) : Prop :=
  tokens.map unplaced = tokens'.map unplaced ∨
    ∃ t : Token, t.kind = .lineBreak ∧ tokens.map unplaced = t :: tokens'.map unplaced

theorem trimmed_withoutFirstBreak (count : Nat) (tokens : List Token) :
    Trimmed tokens ((withoutFirstBreak tokens).map (lowered count)) := by
  have hunplaced : ∀ tokens : List Token,
      (tokens.map (lowered count)).map unplaced = tokens.map unplaced := by
    intro tokens
    rw [List.map_map]
    rfl
  cases tokens with
  | nil => exact .inl rfl
  | cons t rest =>
      by_cases ht : t.kind = .lineBreak
      · rw [withoutFirstBreak, if_pos ht]
        exact .inr ⟨t.unplaced, ht, by rw [hunplaced, List.map_cons]⟩
      · rw [withoutFirstBreak, if_neg ht]
        exact .inl (hunplaced _).symm

/-- The tokens of two texts joined with a line break. -/
theorem scan_append_break {text more : String} {tokens tokens' : List Token}
    (htext : '\x00' ∉ text.toList) (h : scan text = .ok tokens) (h' : scan more = .ok tokens') :
    ∃ rest, scan (text ++ "\n" ++ more) = .ok (tokens ++ rest) ∧ Trimmed tokens' rest := by
  rw [scan_append_break_eq htext h, h']
  exact ⟨_, rfl, trimmed_withoutFirstBreak _ _⟩

end LineScript.Token
