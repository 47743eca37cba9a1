/-
# Numbers with a sign

Scripts have no negative constants: a minus in front of a numeral negates the number. So what a number is
written as is read back in two steps, and for these to give the number itself, negation has to turn its sign
and nothing else, and reading has to treat both signs alike. Both are the case.

A number that is written without an exponent is written as a numeral, perhaps with a minus in front.
-/

import LineScript.Number.Written
import LineScript.Proofs.Doubles
import LineScript.Proofs.Lexemes

namespace LineScript.Number

open LineScript.Token (isDigit numeral decimal forall_mem_of_all)

/-! ## Negation -/

section Bits

open Float.Model (Format)
open Float.Model.UnpackedFloat

/-- A pattern with the other sign is taken apart into the negation. -/
theorem unpack_of_sign {a b : BitVec 64}
    (hmantissa : @unpackMantissa Format.binary64 b = @unpackMantissa Format.binary64 a)
    (hexponent : @unpackExponent Format.binary64 b = @unpackExponent Format.binary64 a)
    (hsign : Sign.ofBitVec (@unpackSign Format.binary64 b) =
      -Sign.ofBitVec (@unpackSign Format.binary64 a)) :
    unpack Format.binary64 b = (unpack Format.binary64 a).neg := by
  simp only [unpack, hmantissa, hexponent, hsign]
  split
  · split <;> rfl
  · split
    · split <;> rfl
    · rfl

/-- A double is negated by turning its first bit. -/
theorem neg_ofBits {a b : UInt64} (h : ¬IsUndefined a.toNat)
    (hmagnitude : b.toNat % 2 ^ 63 = a.toNat % 2 ^ 63)
    (hsign : b.toNat / 2 ^ 63 + a.toNat / 2 ^ 63 = 1) : -Float.ofBits a = Float.ofBits b := by
  have hneg : unpack Format.binary64 b.toBitVec = (unpack Format.binary64 a.toBitVec).neg := by
    apply unpack_of_sign
    · apply BitVec.eq_of_toNat_eq
      rw [toNat_unpackMantissa, toNat_unpackMantissa]
      change b.toNat % 2 ^ 52 = a.toNat % 2 ^ 52
      omega
    · apply BitVec.eq_of_toNat_eq
      rw [toNat_unpackExponent, toNat_unpackExponent]
      change b.toNat / 2 ^ 52 % 2048 = a.toNat / 2 ^ 52 % 2048
      omega
    · have hvalue : ∀ c : UInt64, ∀ v : BitVec 1, c.toNat / 2 ^ 63 = v.toNat →
          @unpackSign Format.binary64 c.toBitVec = v := by
        intro c v hc
        apply BitVec.eq_of_toNat_eq
        rw [toNat_unpackSign]
        exact hc
      obtain ⟨hb, ha⟩ | ⟨hb, ha⟩ : (b.toNat / 2 ^ 63 = 0 ∧ a.toNat / 2 ^ 63 = 1) ∨
          (b.toNat / 2 ^ 63 = 1 ∧ a.toNat / 2 ^ 63 = 0) := by omega
      · rw [hvalue b 0#1 hb, hvalue a 1#1 ha]
        rfl
      · rw [hvalue b 1#1 hb, hvalue a 0#1 ha]
        rfl
  calc -Float.ofBits a
      = Float.ofModel (.pack (unpack Format.binary64 (Float.ofBits a).toBits.toBitVec).neg) := rfl
    _ = Float.ofModel (.pack (unpack Format.binary64 a.toBitVec).neg) := by rw [toBits_ofBits h]
    _ = Float.ofBits b := by rw [← hneg]; rfl

end Bits

namespace Dyadic

theorem neg_withSign (negative : Bool) {magnitude : Nat} (h : magnitude < 2047 * 2 ^ 52) :
    -withSign negative magnitude = withSign (!negative) magnitude := by
  unfold withSign
  cases negative
  all_goals
    apply neg_ofBits
    all_goals
      simp only [IsUndefined, UInt64.toNat_ofNat', twoTo_eq, Bool.not_true, Bool.not_false,
        Bool.false_eq_true, if_true, if_false, Nat.add_zero]
      omega

theorem neg_pack (negative : Bool) {mantissa : Nat} {exponent : Int} (hmantissa : mantissa < 2 ^ 53)
    (hexponent : exponent ≤ 971) : -pack negative mantissa exponent = pack (!negative) mantissa exponent := by
  unfold pack
  split
  · rename_i hsmall
    exact neg_withSign negative (by rw [twoTo_eq] at hsmall; omega)
  · exact neg_withSign negative (by rw [twoTo_eq]; omega)

/-- A fraction is rounded to doubles of both signs alike. -/
theorem nearest?_not (negative : Bool) (num : Nat) {den : Nat} (hden : den ≠ 0) :
    nearest? (!negative) num den = (nearest? negative num den).map (- ·) := by
  have hquotient := scaled_fittingExponent_lt num hden
  have hround := roundDiv_le (scaled num den (fittingExponent num den)).1
    (scaled num den (fittingExponent num den)).2
  simp only [nearest?, twoTo_eq]
  split
  · exact congrArg some (neg_withSign negative (by decide)).symm
  · -- A mantissa that is rounded up to 54 bits is halved.
    split
    all_goals
      dsimp only
      split
      · rfl
      · exact congrArg some (neg_pack negative (by omega) (by omega)).symm

end Dyadic

/-! ## Numerals with a sign -/

/-- Characters with a minus in front, or none. -/
def signed (negative : Bool) (cs : List Char) : List Char := if negative then '-' :: cs else cs

theorem read?_signed {whole fraction : List Char} (hwhole : whole ≠ [])
    (hdigits : ∀ d ∈ whole ++ fraction, isDigit d = true) (negative : Bool) :
    read? (String.ofList (signed negative (numeral whole fraction))) =
      Dyadic.nearest? negative (decimal (whole ++ fraction)) (10 ^ fraction.length) := by
  cases negative with
  | false => exact Token.read?_numeral hwhole hdigits
  | true =>
      rw [← Token.unsigned?_numeral true hwhole hdigits]
      obtain ⟨c, rest, rfl⟩ := List.exists_cons_of_ne_nil hwhole
      have hcons : numeral (c :: rest) fraction = c :: numeral rest fraction := rfl
      rw [signed, if_pos rfl, hcons]
      unfold read?
      rw [String.toList_ofList]
      split
      rename_i signed negative cs hcs
      split at hcs
      · rename_i heq
        exact absurd (List.cons.inj heq).1 (by decide)
      · rename_i heq
        cases hcs
        cases heq
        rw [Token.named?_digit (hdigits c (by simp))]
      · rename_i hother
        exact absurd rfl (hother _)

/-- What is read with a minus is the negation of what is read without it, and turning the sign twice leads
back. -/
theorem nearest?_of_signed {num den : Nat} {x : Float} (hden : den ≠ 0)
    (h : Dyadic.nearest? true num den = some x) :
    Dyadic.nearest? false num den = some (-x) ∧ -(-x) = x := by
  have hfalse : Dyadic.nearest? false num den = some (-x) := by
    rw [← Bool.not_true, Dyadic.nearest?_not true num hden, h, Option.map_some]
  refine ⟨hfalse, Option.some.inj ?_⟩
  rw [← h, ← Bool.not_false, Dyadic.nearest?_not false num hden, hfalse, Option.map_some]

/-! ## Numbers without an exponent -/

/-- A number is written in positional form: it is finite, and there is no exponent. -/
def Positional (x : Float) : Prop := ∀ c ∈ ['e', 'I', 'N'], c ∉ (written x).toList

theorem isDigit_of_mem_significant {n : Nat} {c : Char} (h : c ∈ significant n) :
    isDigit c = true := by
  have hmem : c ∈ Nat.toDigits 10 n := by
    unfold significant at h
    exact List.mem_reverse.mp (List.dropWhile_sublist _ |>.mem (List.mem_reverse.mp h))
  have hdigit := Nat.isDigit_of_mem_toDigits (by decide) (by decide) hmem
  simp only [Char.isDigit, isDigit, Bool.and_eq_true, decide_eq_true_eq] at hdigit ⊢
  exact hdigit

theorem positional_eq_numeral (digits : List Char) (whole : Nat) :
    positional digits whole =
      numeral (digits.take whole ++ List.replicate (whole - digits.length) '0') (digits.drop whole) := by
  unfold positional numeral
  cases digits.drop whole <;> simp

/-- A decimal is written with an exponent, or as a numeral, or it is too small for any of its digits. -/
theorem Decimal.chars_cases (d : Decimal) :
    'e' ∈ d.chars .script ∨ d.chars .script = ['0', '.'] ∨
      ∃ whole fraction, whole ≠ [] ∧ (∀ c ∈ whole ++ fraction, isDigit c = true) ∧
        d.chars .script = numeral whole fraction := by
  have hdigits : ∀ c ∈ significant d.digits, isDigit c = true := fun c => isDigit_of_mem_significant
  have hzeros : ∀ count, ∀ c ∈ List.replicate count '0', isDigit c = true := by
    intro count c hc
    rw [List.eq_of_mem_replicate hc]
    decide
  unfold chars
  dsimp only
  split
  · exact .inl (List.mem_append_right _ List.mem_cons_self)
  · split
    · rename_i htop
      generalize hfraction : List.replicate _ '0' ++ significant d.digits = fraction
      have hall : ∀ c ∈ fraction, isDigit c = true := by
        rw [← hfraction]
        exact List.forall_mem_append.mpr ⟨hzeros _, hdigits⟩
      cases fraction with
      | nil => exact .inr (.inl rfl)
      | cons c fraction =>
          refine .inr (.inr ⟨['0'], c :: fraction, List.cons_ne_nil _ _, ?_, ?_⟩)
          · exact List.forall_mem_cons.mpr ⟨by decide, hall⟩
          · rw [numeral, if_neg (List.cons_ne_nil _ _)]
            rfl
    · rename_i htop
      refine .inr (.inr ⟨_, _, ?_, ?_, positional_eq_numeral _ _⟩)
      · have hlength : 0 < (d.exponent + (Nat.toDigits 10 d.digits).length - 1 + 1).toNat := by omega
        intro hnil
        have hzero := congrArg List.length hnil
        simp only [List.length_append, List.length_take, List.length_replicate, List.length_nil] at hzero
        omega
      · intro c hc
        rcases List.mem_append.mp hc with hc | hc
        · rcases List.mem_append.mp hc with hc | hc
          · exact hdigits c (List.mem_of_mem_take hc)
          · exact hzeros _ c hc
        · exact hdigits c (List.mem_of_mem_drop hc)

theorem read?_point (negative : Bool) :
    read? (String.ofList (signed negative ['0', '.'])) = some (Dyadic.withSign negative 0) := by
  cases negative <;> rfl

theorem ofFloat_withSign_zero (negative : Bool) :
    Dyadic.ofFloat (Dyadic.withSign negative 0) = .finite negative 0 (-1074) := by
  cases negative <;> decide

/-- A double is written in letters, or as its magnitude behind its sign. -/
theorem chars_cases (style : Style) (x : Float) :
    'N' ∈ chars style x ∨ 'I' ∈ chars style x ∨
      ∃ negative mantissa exponent, Dyadic.ofFloat x = .finite negative mantissa exponent ∧
        chars style x =
          signed negative (if mantissa = 0 then ['0'] else (shortest mantissa exponent).chars style) := by
  unfold chars
  split
  · exact .inl List.mem_cons_self
  · exact .inr (.inl (List.mem_cons_of_mem _ List.mem_cons_self))
  · rename_i negative mantissa exponent hparts
    exact .inr (.inr ⟨negative, mantissa, exponent, hparts, rfl⟩)

theorem mem_signed {negative : Bool} {c : Char} {cs : List Char} (h : c ∈ cs) :
    c ∈ signed negative cs := by
  unfold signed
  split
  · exact List.mem_cons_of_mem _ h
  · exact h

/-- A number in positional form is written as a numeral, perhaps with a minus, if it is read back at all. -/
theorem Positional.exists_written {x : Float} (h : Positional x) (hread : read? (written x) = some x) :
    ∃ negative whole fraction, whole ≠ [] ∧ (∀ c ∈ whole ++ fraction, isDigit c = true) ∧
      written x = String.ofList (signed negative (numeral whole fraction)) := by
  have hmarks : ∀ c ∈ ['e', 'I', 'N'], c ∉ chars .script x := by
    intro c hc
    rw [← String.toList_ofList (l := chars .script x)]
    exact h c hc
  unfold written at hread ⊢
  obtain hletter | hletter | ⟨negative, mantissa, exponent, hparts, hchars⟩ := chars_cases .script x
  · exact absurd hletter (hmarks 'N' (by decide))
  · exact absurd hletter (hmarks 'I' (by decide))
  · rw [hchars] at hmarks hread ⊢
    by_cases hzero : mantissa = 0
    · rw [if_pos hzero]
      exact ⟨negative, ['0'], [], by decide, forall_mem_of_all (by decide), rfl⟩
    · rw [if_neg hzero] at hmarks hread ⊢
      obtain hexponent | hpoint | ⟨whole, fraction, hwhole, hdigits, hnumeral⟩ :=
        (shortest mantissa exponent).chars_cases
      · exact absurd (mem_signed hexponent) (hmarks 'e' (by decide))
      · -- Without digits it would be read as a zero, which is written differently.
        rw [hpoint, read?_point] at hread
        have hparts' := ofFloat_withSign_zero negative
        rw [Option.some.inj hread, hparts] at hparts'
        cases hparts'
        exact absurd rfl hzero
      · rw [hnumeral]
        exact ⟨negative, whole, fraction, hwhole, hdigits, rfl⟩

end LineScript.Number
