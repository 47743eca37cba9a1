/-
# Texts and their bytes

The bytes of a text are well formed throughout, and strict reading gives the text back. The
bounds on the second byte of a sequence refuse overlong forms, surrogates and what lies past
the last code point, and the encoding of a character keeps within them because a character is
none of these.
-/

import Mathlib
import LineScript.Text.Utf8

namespace LineScript.Text

theorem toNat_byte {n : Nat} (h : n < 256) : (UInt8.ofNat n).toNat = n := by
  rw [UInt8.toNat_ofNat', Nat.mod_eq_of_lt h]

theorem isContinuation_byte {n : Nat} (h : n < 64) :
    isContinuation (UInt8.ofNat (n + 0x80)) = true := by
  have hbyte : (UInt8.ofNat (n + 0x80)).toNat = n + 0x80 := toNat_byte (by omega)
  simp only [isContinuation, Bool.and_eq_true, decide_eq_true_eq, UInt8.le_iff_toNat_le, hbyte,
    UInt8.reduceToNat]
  omega

theorem payload_byte {n : Nat} (h : n < 64) : payload (UInt8.ofNat (n + 0x80)) = n := by
  rw [payload, toNat_byte (by omega)]
  omega

/-! ## Sequences of one to four bytes -/

theorem leading?_one {a : Nat} (ha : a < 0x80) (rest : Bytes) :
    leading? (UInt8.ofNat a) rest = some (Char.ofNat a, 0) := by
  have hlead := @toNat_byte a (by omega)
  simp only [leading?, UInt8.lt_iff_toNat_lt, hlead, UInt8.reduceToNat]
  rw [if_pos ha]

theorem leading?_two {a b : Nat} (ha : 2 ≤ a) (ha' : a < 32) (hb : b < 64) (rest : Bytes) :
    leading? (UInt8.ofNat (a + 0xc0)) (UInt8.ofNat (b + 0x80) :: rest)
      = some (Char.ofNat (a * 64 + b), 1) := by
  have hlead := @toNat_byte (a + 0xc0) (by omega)
  simp only [leading?, UInt8.lt_iff_toNat_lt, hlead, UInt8.reduceToNat, isContinuation_byte hb,
    payload_byte hb]
  rw [if_neg (by omega), if_neg (by omega), if_pos (by omega), if_pos trivial]
  have hvalue : (a + 0xc0) % 32 = a := by omega
  rw [hvalue]

theorem leading?_three {a b c : Nat} (ha : a < 16) (hb : b < 64) (hc : c < 64)
    (hlow : a = 0 → 32 ≤ b) (hhigh : a = 13 → b < 32) (rest : Bytes) :
    leading? (UInt8.ofNat (a + 0xe0)) (UInt8.ofNat (b + 0x80) :: UInt8.ofNat (c + 0x80) :: rest)
      = some (Char.ofNat ((a * 64 + b) * 64 + c), 2) := by
  have hlead := @toNat_byte (a + 0xe0) (by omega)
  have hsecond := @toNat_byte (b + 0x80) (by omega)
  simp only [leading?, UInt8.lt_iff_toNat_lt, UInt8.le_iff_toNat_le, ← UInt8.toNat_inj, hlead,
    hsecond, UInt8.reduceToNat, isContinuation_byte hc, payload_byte hb, payload_byte hc]
  rw [if_neg (by omega), if_neg (by omega), if_neg (by omega), if_pos (by omega), if_pos]
  · have hvalue : (a + 0xe0) % 16 = a := by omega
    rw [hvalue]
  · simp only [Bool.and_true, Bool.and_eq_true, decide_eq_true_eq]
    constructor
    · split <;> simp only [UInt8.reduceToNat] <;> omega
    · split <;> simp only [UInt8.reduceToNat] <;> omega

theorem leading?_four {a b c d : Nat} (ha : a < 5) (hb : b < 64) (hc : c < 64) (hd : d < 64)
    (hlow : a = 0 → 16 ≤ b) (hhigh : a = 4 → b < 16) (rest : Bytes) :
    leading? (UInt8.ofNat (a + 0xf0))
        (UInt8.ofNat (b + 0x80) :: UInt8.ofNat (c + 0x80) :: UInt8.ofNat (d + 0x80) :: rest)
      = some (Char.ofNat (((a * 64 + b) * 64 + c) * 64 + d), 3) := by
  have hlead := @toNat_byte (a + 0xf0) (by omega)
  have hsecond := @toNat_byte (b + 0x80) (by omega)
  simp only [leading?, UInt8.lt_iff_toNat_lt, UInt8.le_iff_toNat_le, ← UInt8.toNat_inj, hlead,
    hsecond, UInt8.reduceToNat, isContinuation_byte hc, isContinuation_byte hd, payload_byte hb,
    payload_byte hc, payload_byte hd]
  rw [if_neg (by omega), if_neg (by omega), if_neg (by omega), if_neg (by omega),
    if_pos (by omega), if_pos]
  · have hvalue : (a + 0xf0) % 8 = a := by omega
    rw [hvalue]
  · simp only [Bool.and_true, Bool.and_eq_true, decide_eq_true_eq]
    constructor
    · split <;> simp only [UInt8.reduceToNat] <;> omega
    · split <;> simp only [UInt8.reduceToNat] <;> omega

/-- Reading a character back from its bytes, whatever follows. -/
theorem leading?_utf8EncodeChar (c : Char) (rest : Bytes) :
    ∃ b further, String.utf8EncodeChar c = b :: further
      ∧ leading? b (further ++ rest) = some (c, further.length) := by
  have hvalid : c.val.toNat < 0xd800 ∨ 0xdfff < c.val.toNat ∧ c.val.toNat < 0x110000 := c.valid
  have hchar : Char.ofNat c.val.toNat = c := Char.ofNat_toNat c
  simp only [String.utf8EncodeChar]
  generalize c.val.toNat = v at hvalid hchar
  subst hchar
  split
  · exact ⟨_, _, rfl, leading?_one (by omega) rest⟩
  · split
    · refine ⟨_, _, rfl, (leading?_two (by omega) (by omega) (by omega) rest).trans ?_⟩
      have hvalue : v / 64 % 32 * 64 + v % 64 = v := by omega
      rw [hvalue]
      rfl
    · split
      · refine ⟨_, _, rfl,
          (leading?_three (by omega) (by omega) (by omega) (by omega) (by omega) rest).trans ?_⟩
        have hvalue : (v / 4096 % 16 * 64 + v / 64 % 64) * 64 + v % 64 = v := by omega
        rw [hvalue]
        rfl
      · refine ⟨_, _, rfl, (leading?_four (by omega) (by omega) (by omega) (by omega) (by omega)
          (by omega) rest).trans ?_⟩
        have hvalue : ((v / 262144 % 8 * 64 + v / 4096 % 64) * 64 + v / 64 % 64) * 64 + v % 64 = v := by
          omega
        rw [hvalue]
        rfl

/-! ## Texts -/

theorem decodeStrictFrom_append (further rest : Bytes) :
    decodeStrictFrom further.length (further ++ rest) = decodeStrictFrom 0 rest := by
  induction further with
  | nil => rfl
  | cons b further ih => exact ih

theorem decodeStrictFrom_flatMap (cs : List Char) :
    decodeStrictFrom 0 (cs.flatMap String.utf8EncodeChar) = some cs := by
  induction cs with
  | nil => rfl
  | cons c cs ih =>
      obtain ⟨b, further, hbytes, hleading⟩ :=
        leading?_utf8EncodeChar c (cs.flatMap String.utf8EncodeChar)
      rw [List.flatMap_cons, hbytes, List.cons_append]
      simp only [decodeStrictFrom, hleading]
      rw [decodeStrictFrom_append, ih, Option.map_some]

/-- A text is read back from its bytes. -/
theorem decode?_encode (s : String) : decode? (encode s) = some s := by
  rw [decode?, encode, decodeStrictFrom_flatMap, Option.map_some, String.ofList_toList]

theorem encode_injective : Function.Injective encode := by
  intro s s' h
  have hread := decode?_encode s
  rw [h, decode?_encode] at hread
  exact (Option.some.inj hread).symm

/-- Only the characters of a single byte have bytes below 128 in them. -/
theorem exists_char_of_mem_encode {s : String} {b : UInt8} (h : b ∈ encode s) (hb : b.toNat < 0x80) :
    ∃ c ∈ s.toList, c.toNat = b.toNat := by
  obtain ⟨c, hc, hmem⟩ := List.mem_flatMap.mp h
  refine ⟨c, hc, ?_⟩
  simp only [String.utf8EncodeChar] at hmem
  change c.val.toNat = b.toNat
  generalize c.val.toNat = v at hmem
  split at hmem
  · rw [List.mem_singleton.mp hmem, toNat_byte (by omega)]
  -- Every byte of a longer sequence is at least 128.
  have hhigh : ∀ n, 0x80 ≤ n → n < 256 → b ≠ UInt8.ofNat n := by
    rintro n hn hn' rfl
    rw [toNat_byte hn'] at hb
    omega
  split at hmem
  · simp only [List.mem_cons, List.not_mem_nil, or_false] at hmem
    rcases hmem with heq | heq <;> exact absurd heq (hhigh _ (by omega) (by omega))
  · split at hmem <;> simp only [List.mem_cons, List.not_mem_nil, or_false] at hmem
    · rcases hmem with heq | heq | heq <;> exact absurd heq (hhigh _ (by omega) (by omega))
    · rcases hmem with heq | heq | heq | heq <;> exact absurd heq (hhigh _ (by omega) (by omega))

theorem length_encode (s : String) : (encode s).length = s.utf8ByteSize := by
  have hbytes : s.toByteArray = (encode s).toByteArray := by
    conv => lhs; rw [← String.ofList_toList (s := s)]
    rfl
  rw [String.utf8ByteSize, hbytes, List.size_toByteArray]

end LineScript.Text
