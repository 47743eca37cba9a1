/-
# Reading a text in pieces

Lenient reading can be cut at every character. A line break, like every other character of a single
byte, ends whatever sequence was begun before it, so texts that are joined with one are read apart,
and every line break that is read is a byte of its own. More generally each character is read from
bytes of its own, which follow one another: a stretch of the text is a stretch of its bytes.
-/

import Mathlib
import LineScript.Text.Utf8

namespace LineScript.Text

/-! ## Well-formed sequences -/

/-- A well-formed sequence: its first byte, its further bytes and the character it encodes. -/
inductive Encodes : UInt8 → Bytes → Char → Prop where
  | one {b : UInt8} : b < 0x80 → Encodes b [] (Char.ofNat b.toNat)
  | two {b b₁ : UInt8} : 0xc2 ≤ b → b < 0xe0 → isContinuation b₁ = true →
      Encodes b [b₁] (Char.ofNat (b.toNat % 32 * 64 + payload b₁))
  | three {b b₁ b₂ : UInt8} : 0xe0 ≤ b → b < 0xf0 → (if b = 0xe0 then 0xa0 else 0x80) ≤ b₁ →
      b₁ ≤ (if b = 0xed then 0x9f else 0xbf) → isContinuation b₂ = true →
      Encodes b [b₁, b₂] (Char.ofNat ((b.toNat % 16 * 64 + payload b₁) * 64 + payload b₂))
  | four {b b₁ b₂ b₃ : UInt8} : 0xf0 ≤ b → b < 0xf5 → (if b = 0xf0 then 0x90 else 0x80) ≤ b₁ →
      b₁ ≤ (if b = 0xf4 then 0x8f else 0xbf) → isContinuation b₂ = true →
      isContinuation b₃ = true →
      Encodes b [b₁, b₂, b₃]
        (Char.ofNat (((b.toNat % 8 * 64 + payload b₁) * 64 + payload b₂) * 64 + payload b₃))

/-- Only well-formed sequences are read as characters other than the replacement. -/
theorem encodes_of_leading? {b : UInt8} {rest : Bytes} {c : Char} {further : Nat}
    (h : leading? b rest = some (c, further)) :
    Encodes b (rest.take further) c ∧ further ≤ rest.length := by
  unfold leading? at h
  by_cases hone : b < 0x80
  · rw [if_pos hone] at h
    cases h
    exact ⟨.one hone, Nat.zero_le _⟩
  by_cases hlow : b < 0xc2
  · rw [if_neg hone, if_pos hlow] at h
    cases h
  by_cases htwo : b < 0xe0
  · rw [if_neg hone, if_neg hlow, if_pos htwo] at h
    obtain _ | ⟨b₁, rest⟩ := rest
    · cases h
    · simp only [Option.ite_none_right_eq_some] at h
      obtain ⟨hfirst, h⟩ := h
      cases h
      exact ⟨.two (UInt8.not_lt.mp hlow) htwo hfirst, by simp⟩
  by_cases hthree : b < 0xf0
  · rw [if_neg hone, if_neg hlow, if_neg htwo, if_pos hthree] at h
    obtain _ | ⟨b₁, _ | ⟨b₂, rest⟩⟩ := rest
    · cases h
    · cases h
    · simp only [Option.ite_none_right_eq_some, Bool.and_eq_true, decide_eq_true_eq] at h
      obtain ⟨⟨⟨hleast, hmost⟩, hsecond⟩, h⟩ := h
      cases h
      exact ⟨.three (UInt8.not_lt.mp htwo) hthree hleast hmost hsecond, by simp⟩
  by_cases hfour : b < 0xf5
  · rw [if_neg hone, if_neg hlow, if_neg htwo, if_neg hthree, if_pos hfour] at h
    obtain _ | ⟨b₁, _ | ⟨b₂, _ | ⟨b₃, rest⟩⟩⟩ := rest
    · cases h
    · cases h
    · cases h
    · simp only [Option.ite_none_right_eq_some, Bool.and_eq_true, decide_eq_true_eq] at h
      obtain ⟨⟨⟨⟨hleast, hmost⟩, hsecond⟩, hthird⟩, h⟩ := h
      cases h
      exact ⟨.four (UInt8.not_lt.mp hthree) hfour hleast hmost hsecond hthird, by simp⟩
  · rw [if_neg hone, if_neg hlow, if_neg htwo, if_neg hthree, if_neg hfour] at h
    cases h

/-- A sequence is read as its character, whatever follows. -/
theorem Encodes.leading?_append {b : UInt8} {further : Bytes} {c : Char} (h : Encodes b further c)
    (more : Bytes) : leading? b (further ++ more) = some (c, further.length) := by
  cases h with
  | one hone => simp [leading?, hone]
  | two hleast hmost hfirst =>
      simp only [UInt8.lt_iff_toNat_lt, UInt8.le_iff_toNat_le, UInt8.reduceToNat] at hleast hmost
      simp only [leading?, UInt8.lt_iff_toNat_lt, UInt8.reduceToNat, List.cons_append]
      rw [if_neg (by omega), if_neg (by omega), if_pos hmost, if_pos hfirst]
      rfl
  | three hleast hmost hlow hhigh hsecond =>
      simp only [UInt8.lt_iff_toNat_lt, UInt8.le_iff_toNat_le, UInt8.reduceToNat] at hleast hmost
      simp only [leading?, UInt8.lt_iff_toNat_lt, UInt8.reduceToNat, List.cons_append]
      rw [if_neg (by omega), if_neg (by omega), if_neg (by omega), if_pos hmost,
        if_pos (by simp [hlow, hhigh, hsecond])]
      rfl
  | four hleast hmost hlow hhigh hsecond hthird =>
      simp only [UInt8.lt_iff_toNat_lt, UInt8.le_iff_toNat_le, UInt8.reduceToNat] at hleast hmost
      simp only [leading?, UInt8.lt_iff_toNat_lt, UInt8.reduceToNat, List.cons_append]
      rw [if_neg (by omega), if_neg (by omega), if_neg (by omega), if_neg (by omega), if_pos hmost,
        if_pos (by simp [hlow, hhigh, hsecond, hthird])]
      rfl

theorem isContinuation_iff (b : UInt8) :
    isContinuation b = true ↔ 0x80 ≤ b.toNat ∧ b.toNat ≤ 0xbf := by
  simp [isContinuation, UInt8.le_iff_toNat_le]

/-- The further bytes of a sequence all continue it. -/
theorem Encodes.isContinuation {b : UInt8} {further : Bytes} {c : Char} (h : Encodes b further c) :
    ∀ x ∈ further, isContinuation x = true := by
  have hbounds : ∀ x low high : UInt8, 0x80 ≤ low.toNat → high.toNat ≤ 0xbf → low ≤ x → x ≤ high →
      Text.isContinuation x = true := by
    intro x low high hlow hhigh hleast hmost
    rw [isContinuation_iff]
    rw [UInt8.le_iff_toNat_le] at hleast hmost
    omega
  cases h with
  | one => simp
  | two _ _ hfirst => simpa using hfirst
  | three _ _ hlow hhigh hsecond =>
      have hfirst := hbounds _ _ _ (by split <;> decide) (by split <;> decide) hlow hhigh
      simp [hfirst, hsecond]
  | four _ _ hlow hhigh hsecond hthird =>
      have hfirst := hbounds _ _ _ (by split <;> decide) (by split <;> decide) hlow hhigh
      simp [hfirst, hsecond, hthird]

/-- The code point of a character that is given by it. -/
theorem toNat_ofNat_of_valid {n : Nat} (h : n.isValidChar) : (Char.ofNat n).toNat = n := by
  rw [Char.ofNat, dif_pos h]
  rfl

theorem payload_of_isContinuation {b : UInt8} (h : isContinuation b = true) :
    payload b < 64 ∧ b.toNat = payload b + 0x80 := by
  rw [isContinuation_iff] at h
  rw [payload]
  omega

/-- A character that takes more than one byte is none of the first 128. -/
theorem Encodes.le_toNat {b : UInt8} {further : Bytes} {c : Char} (h : Encodes b further c)
    (hb : 0x80 ≤ b.toNat) : 0x80 ≤ c.toNat := by
  have hpayload : ∀ x ∈ further, payload x < 64 ∧ x.toNat = payload x + 0x80 :=
    fun x hx => payload_of_isContinuation (h.isContinuation x hx)
  cases h with
  | one hone =>
      rw [UInt8.lt_iff_toNat_lt] at hone
      exact absurd hone (Nat.not_lt.mpr hb)
  | @two b₁ hleast hmost =>
      have hfirst := hpayload b₁ (by simp)
      simp only [UInt8.lt_iff_toNat_lt, UInt8.le_iff_toNat_le, UInt8.reduceToNat] at hleast hmost
      rw [toNat_ofNat_of_valid (.inl (by omega))]
      omega
  | @three b₁ b₂ hleast hmost hlow hhigh =>
      have hfirst := hpayload b₁ (by simp)
      have hsecond := hpayload b₂ (by simp)
      simp only [UInt8.lt_iff_toNat_lt, UInt8.le_iff_toNat_le, UInt8.reduceToNat,
        apply_ite UInt8.toNat, ← UInt8.toNat_inj] at hleast hmost hlow hhigh
      have hvalid : Nat.isValidChar ((b.toNat % 16 * 64 + payload b₁) * 64 + payload b₂) := by
        unfold Nat.isValidChar
        split at hhigh <;> omega
      rw [toNat_ofNat_of_valid hvalid]
      split at hlow <;> omega
  | @four b₁ b₂ b₃ hleast hmost hlow hhigh =>
      have hfirst := hpayload b₁ (by simp)
      have hsecond := hpayload b₂ (by simp)
      have hthird := hpayload b₃ (by simp)
      simp only [UInt8.lt_iff_toNat_lt, UInt8.le_iff_toNat_le, UInt8.reduceToNat,
        apply_ite UInt8.toNat, ← UInt8.toNat_inj] at hleast hmost hlow hhigh
      have hvalid : Nat.isValidChar
          (((b.toNat % 8 * 64 + payload b₁) * 64 + payload b₂) * 64 + payload b₃) := by
        unfold Nat.isValidChar
        split at hhigh <;> split at hlow <;> omega
      rw [toNat_ofNat_of_valid hvalid]
      split at hlow <;> omega

/-! ## Reading on behind a byte that is a character of its own -/

theorem leading?_of_append {b : UInt8} {rest : Bytes} {c : Char} {n : Nat}
    (h : leading? b rest = some (c, n)) (more : Bytes) : leading? b (rest ++ more) = some (c, n) := by
  obtain ⟨hencodes, hlength⟩ := encodes_of_leading? h
  have happend := hencodes.leading?_append (rest.drop n ++ more)
  rw [← List.append_assoc, List.take_append_drop, List.length_take_of_le hlength] at happend
  exact happend

/-- No sequence goes on over a byte that is a character of its own. -/
theorem leading?_append_ascii (b : UInt8) (rest : Bytes) {x : UInt8} (hx : x < 0x80) (more : Bytes) :
    leading? b (rest ++ x :: more) = leading? b rest := by
  cases hrest : leading? b rest with
  | some r => exact leading?_of_append hrest _
  | none =>
      cases hwhole : leading? b (rest ++ x :: more) with
      | none => rfl
      | some r =>
          obtain ⟨c, n⟩ := r
          obtain ⟨hencodes, -⟩ := encodes_of_leading? hwhole
          have hshort : n ≤ rest.length := by
            refine Nat.not_lt.mp fun hlong => ?_
            have hmem : x ∈ (rest ++ x :: more).take n := by
              rw [List.take_append, List.mem_append]
              obtain ⟨k, hk⟩ : ∃ k, n - rest.length = k + 1 := ⟨n - rest.length - 1, by omega⟩
              rw [hk]
              exact .inr List.mem_cons_self
            have hcontinues := (isContinuation_iff x).mp (hencodes.isContinuation x hmem)
            rw [UInt8.lt_iff_toNat_lt] at hx
            exact absurd hx (Nat.not_lt.mpr hcontinues.1)
          rw [List.take_append_of_le_length hshort] at hencodes
          have hsome := hencodes.leading?_append (rest.drop n)
          rw [List.take_append_drop, hrest] at hsome
          cases hsome

/-- Reading up to a byte that is a character of its own, and on behind it. -/
theorem decodeFrom_append_ascii {skip : Nat} {bytes : Bytes} (hskip : skip ≤ bytes.length) {x : UInt8}
    (hx : x < 0x80) (more : Bytes) :
    decodeFrom skip (bytes ++ x :: more) =
      decodeFrom skip bytes ++ Char.ofNat x.toNat :: decodeFrom 0 more := by
  fun_induction decodeFrom skip bytes with
  | case1 skip =>
      obtain rfl : skip = 0 := by simpa using hskip
      simp [decodeFrom, leading?, hx]
  | case2 skip b rest ih =>
      rw [List.length_cons] at hskip
      exact ih (by omega)
  | case3 b rest c further hleading ih =>
      obtain ⟨-, hlength⟩ := encodes_of_leading? hleading
      rw [List.cons_append, decodeFrom, leading?_append_ascii b rest hx, hleading]
      exact congrArg (c :: ·) (ih hlength)
  | case4 b rest hleading ih =>
      rw [List.cons_append, decodeFrom, leading?_append_ascii b rest hx, hleading]
      exact congrArg (replacement :: ·) (ih (Nat.zero_le _))

/-- Every character of a single byte that is read stands in the bytes. -/
theorem exists_byte_of_mem {skip : Nat} {bytes : Bytes} {c : Char} (h : c ∈ decodeFrom skip bytes)
    (hc : c.toNat < 0x80) : ∃ b ∈ bytes, c = Char.ofNat b.toNat := by
  fun_induction decodeFrom skip bytes with
  | case1 => cases h
  | case2 skip b rest ih =>
      obtain ⟨b', hb', rfl⟩ := ih h
      exact ⟨b', .tail _ hb', rfl⟩
  | case3 b rest c' further hleading ih =>
      obtain ⟨hencodes, -⟩ := encodes_of_leading? hleading
      rcases List.mem_cons.mp h with rfl | hrest
      · have hb : b < 0x80 := by
          rw [UInt8.lt_iff_toNat_lt]
          refine Nat.lt_of_not_le fun hb => ?_
          exact absurd (hencodes.le_toNat hb) (Nat.not_le.mpr hc)
        have hone := (Encodes.one hb).leading?_append rest
        rw [List.nil_append, hleading] at hone
        cases hone
        exact ⟨b, List.mem_cons_self, rfl⟩
      · obtain ⟨b', hb', rfl⟩ := ih hrest
        exact ⟨b', .tail _ hb', rfl⟩
  | case4 b rest hleading ih =>
      rcases List.mem_cons.mp h with rfl | hrest
      · exact absurd hc (by decide)
      · obtain ⟨b', hb', rfl⟩ := ih hrest
        exact ⟨b', .tail _ hb', rfl⟩

/-! ## Line breaks -/

/-- The byte of a line break. -/
def lineBreak : UInt8 := 10

/-- Texts joined with a line break are read apart, whatever the first one ends with. -/
theorem decode_append_break (a b : Bytes) :
    decode (a ++ lineBreak :: b) = decode a ++ "\n" ++ decode b := by
  refine String.toList_inj.mp ?_
  have h := decodeFrom_append_ascii (Nat.zero_le a.length) (by decide : lineBreak < 0x80) b
  simp only [decode, String.toList_append, String.toList_ofList, h]
  simp [lineBreak]

/-- A text has no character of a single byte that its bytes do not have. -/
theorem notMem_decode_of_notMem {bytes : Bytes} {b : UInt8} (hb : b < 0x80) (h : b ∉ bytes) :
    Char.ofNat b.toNat ∉ (decode bytes).toList := by
  rw [decode, String.toList_ofList]
  intro hmem
  rw [UInt8.lt_iff_toNat_lt] at hb
  have hsmall : ∀ x : UInt8, x.toNat < 0x100 := fun x => x.toNat_lt
  have hchar : ∀ x : UInt8, (Char.ofNat x.toNat).toNat = x.toNat := fun x =>
    toNat_ofNat_of_valid (.inl (by have := hsmall x; omega))
  obtain ⟨b', hb', heq⟩ := exists_byte_of_mem hmem (by rw [hchar]; exact hb)
  have hsame : b = b' := by
    rw [← UInt8.toNat_inj, ← hchar b, ← hchar b', heq]
  exact h (hsame ▸ hb')

/-- A text has the line breaks that its bytes have. -/
theorem count_decode_lineBreak (bytes : Bytes) :
    (decode bytes).toList.count '\n' = bytes.count lineBreak := by
  have hlone : ∀ bytes : Bytes, lineBreak ∉ bytes → (decode bytes).toList.count '\n' = 0 :=
    fun _ h => List.count_eq_zero.mpr (notMem_decode_of_notMem (b := lineBreak) (by decide) h)
  induction hcount : bytes.count lineBreak generalizing bytes with
  | zero => exact hlone bytes (List.count_eq_zero.mp hcount)
  | succ n ih =>
      have hmem : lineBreak ∈ bytes := List.count_pos_iff.mp (by omega)
      obtain ⟨before, after, rfl, hbefore⟩ := List.eq_append_cons_of_mem hmem
      rw [List.count_append, List.count_cons_self, List.count_eq_zero.mpr hbefore] at hcount
      rw [decode_append_break, String.toList_append, String.toList_append, List.count_append,
        List.count_append, hlone before hbefore, ih after (by omega)]
      have hbreak : ("\n" : String).toList.count '\n' = 1 := rfl
      omega

/-! ## Characters and the bytes they are read from -/

/-- How many bytes the first character is read from. -/
def width : Bytes → Nat
  | [] => 0
  | b :: rest =>
    match leading? b rest with
    | some (_, further) => further + 1
    | none => 1

/-- The byte at which a character begins. -/
def offset : Nat → Bytes → Nat
  | 0, _ => 0
  | n + 1, bytes => width bytes + offset n (bytes.drop (width bytes))

theorem decodeFrom_eq_drop (skip : Nat) (bytes : Bytes) :
    decodeFrom skip bytes = decodeFrom 0 (bytes.drop skip) := by
  induction skip generalizing bytes with
  | zero => rfl
  | succ skip ih =>
      cases bytes with
      | nil => rfl
      | cons b rest => exact ih rest

theorem width_le (bytes : Bytes) : width bytes ≤ bytes.length := by
  unfold width
  split
  · exact Nat.le_refl _
  · split
    · rename_i hleading
      exact Nat.succ_le_succ (encodes_of_leading? hleading).2
    · exact Nat.succ_le_succ (Nat.zero_le _)

theorem width_of_leading? {b : UInt8} {rest : Bytes} {c : Char} {further : Nat}
    (h : leading? b rest = some (c, further)) : width (b :: rest) = further + 1 := by
  rw [width, h]

theorem width_of_leading?_eq_none {b : UInt8} {rest : Bytes} (h : leading? b rest = none) :
    width (b :: rest) = 1 := by
  rw [width, h]

/-- The first character is read from its bytes alone, whether or not more bytes follow. -/
theorem exists_decodeFrom_cons (b : UInt8) (rest : Bytes) :
    ∃ c, decodeFrom 0 (b :: rest) = c :: decodeFrom 0 ((b :: rest).drop (width (b :: rest))) ∧
      ∀ n, decodeFrom 0 ((b :: rest).take (width (b :: rest) + n)) =
        c :: decodeFrom 0 (((b :: rest).drop (width (b :: rest))).take n) := by
  cases hleading : leading? b rest with
  | none =>
      rw [width_of_leading?_eq_none hleading]
      refine ⟨replacement, by simp [decodeFrom, hleading], fun n => ?_⟩
      have hnone : leading? b (rest.take n) = none := by
        cases htake : leading? b (rest.take n) with
        | none => rfl
        | some r =>
            have hwhole := leading?_of_append htake (rest.drop n)
            rw [List.take_append_drop, hleading] at hwhole
            cases hwhole
      rw [Nat.add_comm, List.take_succ_cons, decodeFrom, hnone]
      rfl
  | some r =>
      obtain ⟨c, further⟩ := r
      rw [width_of_leading? hleading]
      refine ⟨c, by simp [decodeFrom, hleading, decodeFrom_eq_drop further rest], fun n => ?_⟩
      obtain ⟨hencodes, hlength⟩ := encodes_of_leading? hleading
      have hsome : leading? b (rest.take (further + n)) = some (c, further) := by
        rw [List.take_add, hencodes.leading?_append, List.length_take_of_le hlength]
      rw [Nat.add_right_comm, List.take_succ_cons, decodeFrom, hsome]
      dsimp only
      rw [decodeFrom_eq_drop, List.drop_take, Nat.add_sub_cancel_left, List.drop_succ_cons]

theorem offset_le (n : Nat) (bytes : Bytes) : offset n bytes ≤ bytes.length := by
  induction n generalizing bytes with
  | zero => exact Nat.zero_le _
  | succ n ih =>
      have hwidth := width_le bytes
      have hrest := ih (bytes.drop (width bytes))
      rw [List.length_drop] at hrest
      rw [offset]
      omega

/-- Reading on from where a character begins. -/
theorem decodeFrom_drop_offset (n : Nat) (bytes : Bytes) :
    decodeFrom 0 (bytes.drop (offset n bytes)) = (decodeFrom 0 bytes).drop n := by
  induction n generalizing bytes with
  | zero => rfl
  | succ n ih =>
      rw [offset, ← List.drop_drop, ih]
      cases bytes with
      | nil => simp [decodeFrom]
      | cons b rest =>
          obtain ⟨c, hread, -⟩ := exists_decodeFrom_cons b rest
          rw [hread, List.drop_succ_cons]

/-- Reading up to where a character begins. -/
theorem decodeFrom_take_offset (n : Nat) (bytes : Bytes) :
    decodeFrom 0 (bytes.take (offset n bytes)) = (decodeFrom 0 bytes).take n := by
  induction n generalizing bytes with
  | zero => rfl
  | succ n ih =>
      cases bytes with
      | nil => simp [decodeFrom]
      | cons b rest =>
          obtain ⟨c, hread, htake⟩ := exists_decodeFrom_cons b rest
          rw [offset, htake, ih, hread, List.take_succ_cons]

theorem offset_add (n m : Nat) (bytes : Bytes) :
    offset (n + m) bytes = offset n bytes + offset m (bytes.drop (offset n bytes)) := by
  induction n generalizing bytes with
  | zero => rw [Nat.zero_add, offset, Nat.zero_add, List.drop_zero]
  | succ n ih => rw [Nat.succ_add, offset, offset, ih, List.drop_drop, Nat.add_assoc]

theorem offset_le_offset {i j : Nat} (h : i ≤ j) (bytes : Bytes) : offset i bytes ≤ offset j bytes := by
  obtain ⟨n, rfl⟩ := Nat.exists_eq_add_of_le h
  rw [offset_add]
  exact Nat.le_add_right _ _

/-- Characters next to each other are read from bytes next to each other. -/
theorem decode_between {i j : Nat} (h : i ≤ j) (bytes : Bytes) :
    (decode ((bytes.drop (offset i bytes)).take (offset j bytes - offset i bytes))).toList =
      ((decode bytes).toList.drop i).take (j - i) := by
  obtain ⟨n, rfl⟩ := Nat.exists_eq_add_of_le h
  simp only [decode, String.toList_ofList, offset_add, Nat.add_sub_cancel_left]
  rw [decodeFrom_take_offset, decodeFrom_drop_offset]

/-- Every character takes a byte at least. -/
theorem offset_lt_offset {i j : Nat} {bytes : Bytes} (hij : i < j)
    (hj : j ≤ (decode bytes).toList.length) : offset i bytes < offset j bytes := by
  obtain ⟨n, rfl⟩ := Nat.exists_eq_add_of_lt hij
  have hrest : bytes.drop (offset i bytes) ≠ [] := by
    intro hnil
    have hdrop := decodeFrom_drop_offset i bytes
    rw [hnil] at hdrop
    rw [decode, String.toList_ofList] at hj
    have hlength := congrArg List.length hdrop
    simp only [decodeFrom, List.length_nil, List.length_drop] at hlength
    omega
  have hwidth : 0 < width (bytes.drop (offset i bytes)) := by
    obtain ⟨b, rest, heq⟩ := List.exists_cons_of_ne_nil hrest
    rw [heq]
    cases hleading : leading? b rest with
    | none => exact (width_of_leading?_eq_none hleading).symm ▸ Nat.zero_lt_one
    | some r => exact (width_of_leading? hleading).symm ▸ Nat.succ_pos _
  rw [Nat.add_assoc, offset_add, offset]
  omega

end LineScript.Text
