/-
# Numbers through the three layouts

A number is stored in the narrowest of three layouts that keeps its value. Here that value
is shown to be kept: the bits that a layout assigns to a number are read as that number, and
so are the eight bytes of a double that fits neither of the narrower layouts. Infinities and
what is no number have one stored form each, which stands for them again.
-/

import LineScript.Proofs.Doubles
import LineScript.Wire.Layout

namespace LineScript.Wire

open LineScript.Number LineScript.Number.Dyadic

/-! ## One value in two forms -/

/-- Two pairs of mantissa and exponent with one value: one mantissa is the other one moved
by some places. -/
inductive SameValue : Nat → Int → Nat → Int → Prop
  | refined (mantissa : Nat) (exponent : Int) (places : Nat) :
      SameValue mantissa exponent (mantissa * 2 ^ places) (exponent - places)
  | coarsened (mantissa : Nat) (exponent : Int) (places : Nat) :
      SameValue (mantissa * 2 ^ places) (exponent - places) mantissa exponent

namespace SameValue

variable {mantissa mantissa' : Nat} {exponent exponent' : Int}

theorem refl (mantissa : Nat) (exponent : Int) : SameValue mantissa exponent mantissa exponent := by
  simpa using refined mantissa exponent 0

theorem zero (exponent exponent' : Int) : SameValue 0 exponent 0 exponent' := by
  obtain ⟨places, rfl | rfl⟩ :
      ∃ places : Nat, exponent' = exponent - places ∨ exponent = exponent' - places :=
    ⟨(exponent - exponent').natAbs, by omega⟩
  · simpa using refined 0 exponent places
  · simpa using coarsened 0 exponent' places

theorem isFraction_iff (h : SameValue mantissa exponent mantissa' exponent') {num den : Nat} :
    IsFraction num den mantissa exponent ↔ IsFraction num den mantissa' exponent' := by
  cases h with
  | refined _ _ places => exact (isFraction_shift_iff places).symm
  | coarsened _ _ places => exact isFraction_shift_iff places

theorem eq_zero_iff (h : SameValue mantissa exponent mantissa' exponent') :
    mantissa = 0 ↔ mantissa' = 0 := by
  cases h with
  | refined _ _ places => exact (mul_two_pow_eq_zero_iff _ places).symm
  | coarsened _ _ places => exact mul_two_pow_eq_zero_iff _ places

/-- The leading bit of a value stands where it stands in each of its forms. -/
theorem log2_eq (h : SameValue mantissa exponent mantissa' exponent') (hne : mantissa' ≠ 0) :
    (mantissa.log2 : Int) + exponent = mantissa'.log2 + exponent' := by
  have hne' : mantissa ≠ 0 := fun hzero => hne (h.eq_zero_iff.mp hzero)
  cases h with
  | refined _ _ places =>
      rw [log2_mul_two_pow places hne']
      omega
  | coarsened _ _ places =>
      rw [log2_mul_two_pow places hne]
      omega

/-- A double is read from each form of its value. -/
theorem nearest? (h : SameValue mantissa exponent mantissa' exponent')
    (hcanonical : Canonical mantissa' exponent') (negative : Bool) :
    (if 0 ≤ exponent then Dyadic.nearest? negative (mantissa * twoTo exponent.toNat) 1
      else Dyadic.nearest? negative mantissa (twoTo (-exponent).toNat))
      = some (pack negative mantissa' exponent') := by
  obtain ⟨places, hplaces | hplaces⟩ :
      ∃ places : Nat, exponent = places ∨ 0 < places ∧ exponent = -(places : Int) :=
    ⟨exponent.natAbs, by omega⟩
  · rw [if_pos (by omega), hplaces, Int.toNat_natCast, twoTo_eq]
    apply @nearest?_of_isFraction _ _ 0 _ _ _ hcanonical
    rw [← h.isFraction_iff, hplaces, isFraction_ofNat, Nat.pow_zero, Nat.one_mul]
  · rw [if_neg (by omega), hplaces.2, Int.neg_neg, Int.toNat_natCast, twoTo_eq]
    apply nearest?_of_isFraction _ _ hcanonical
    rw [← h.isFraction_iff, hplaces.2, isFraction_neg]

end SameValue

/-! ## The fields of a layout -/

namespace Layout

/-- A layout whose numbers are doubles. -/
structure Regular (l : Layout) : Prop where
  fractionBits_le : l.fractionBits ≤ 52
  bias_pos : 0 < l.bias
  bias_le : l.bias ≤ 1023
  leastExponent_eq : l.leastExponent = 1 - l.bias - l.fractionBits

theorem regular_half : half.Regular := by
  constructor <;> decide

theorem regular_single : single.Regular := by
  constructor <;> decide

variable {l : Layout}

/-- Reading the bits of a layout takes its three fields apart. -/
theorem fields_of_bits (negative : Bool) {field fraction : Nat} (hfield : field < 2 * l.bias + 2)
    (hfraction : fraction < 2 ^ l.fractionBits) {bits : Nat}
    (hbits : bits = l.signBit negative + field * 2 ^ l.fractionBits + fraction) :
    bits % 2 ^ l.fractionBits = fraction
      ∧ bits / 2 ^ l.fractionBits % (2 * l.bias + 2) = field
      ∧ decide (bits / 2 ^ l.fractionBits / (2 * l.bias + 2) % 2 = 1) = negative := by
  have hpos : 0 < 2 ^ l.fractionBits := Nat.two_pow_pos _
  have hrow : bits = (negative.toNat * (2 * l.bias + 2) + field) * 2 ^ l.fractionBits + fraction := by
    rw [hbits, signBit, twoTo_eq]
    cases negative <;> simp [Nat.add_mul]
  have hquotient : bits / 2 ^ l.fractionBits = negative.toNat * (2 * l.bias + 2) + field := by
    rw [hrow, Nat.mul_comm, Nat.mul_add_div hpos, Nat.div_eq_of_lt hfraction, Nat.add_zero]
  refine ⟨?_, ?_, ?_⟩
  · rw [hrow, Nat.mul_comm, Nat.mul_add_mod, Nat.mod_eq_of_lt hfraction]
  · rw [hquotient, Nat.mul_comm, Nat.mul_add_mod, Nat.mod_eq_of_lt hfield]
  · rw [hquotient, Nat.mul_comm, Nat.mul_add_div (by omega), Nat.div_eq_of_lt hfield, Nat.add_zero]
    cases negative <;> rfl

/-- The number of a finite pattern. -/
theorem number_finite (negative : Bool) {field fraction : Nat} (hfield : field < 2 * l.bias + 1)
    (hfraction : fraction < 2 ^ l.fractionBits) {mantissa : Nat} {exponent : Int}
    (hcanonical : Canonical mantissa exponent)
    (hvalue : SameValue (if field = 0 then fraction else 2 ^ l.fractionBits + fraction)
      (l.leastExponent + (if field = 0 then 0 else (field : Int) - 1)) mantissa exponent) :
    l.number (l.signBit negative + field * 2 ^ l.fractionBits + fraction)
      = pack negative mantissa exponent := by
  have hlt : field < 2 * l.bias + 2 := by omega
  obtain ⟨hlow, hmiddle, hhigh⟩ := fields_of_bits negative hlt hfraction rfl
  simp only [number, twoTo_eq l.fractionBits, hlow, hmiddle, hhigh]
  rw [if_neg (by omega), hvalue.nearest? hcanonical, Option.getD_some]

/-- The pattern behind the finite ones. -/
theorem number_last (negative : Bool) {fraction : Nat} (hfraction : fraction < 2 ^ l.fractionBits) :
    l.number (l.signBit negative + (2 * l.bias + 1) * 2 ^ l.fractionBits + fraction)
      = if fraction = 0 then withSign negative (2047 * twoTo 52)
        else withSign negative (2047 * twoTo 52 + twoTo 51 + 1) := by
  have hlt : 2 * l.bias + 1 < 2 * l.bias + 2 := by omega
  obtain ⟨hlow, hmiddle, hhigh⟩ := fields_of_bits negative hlt hfraction rfl
  simp only [number, twoTo_eq l.fractionBits, hlow, hmiddle, hhigh]
  rw [if_pos (by omega)]

/-- A number moved to the unit of a layout, without loss. -/
theorem sameValue_shifted {mantissa : Nat} {exponent last : Int} {shifted : Nat}
    (h : (if last ≤ exponent then some (mantissa * twoTo (exponent - last).toNat)
      else if mantissa % twoTo (last - exponent).toNat = 0
        then some (mantissa / twoTo (last - exponent).toNat) else none) = some shifted) :
    SameValue shifted last mantissa exponent := by
  simp only [twoTo_eq] at h
  split at h
  · rename_i hle
    cases h
    have hlast : last = exponent - (exponent - last).toNat := by omega
    conv => arg 2; rw [hlast]
    exact .coarsened mantissa exponent _
  · split at h <;> cases h
    rename_i hlt hmod
    have hmantissa := Nat.div_mul_cancel (Nat.dvd_of_mod_eq_zero hmod)
    have hexponent : exponent = last - (last - exponent).toNat := by omega
    conv => arg 3; rw [← hmantissa]
    conv => arg 4; rw [hexponent]
    exact .refined _ last _

/-- The bits that a layout assigns to a number are three fields with its value. -/
theorem fields_of_bits? (hl : l.Regular) {negative : Bool} {mantissa : Nat} {exponent : Int}
    {bits : Nat} (h : l.bits? negative mantissa exponent = some bits) :
    ∃ field fraction, bits = l.signBit negative + field * 2 ^ l.fractionBits + fraction
      ∧ field < 2 * l.bias + 1 ∧ fraction < 2 ^ l.fractionBits
      ∧ SameValue (if field = 0 then fraction else 2 ^ l.fractionBits + fraction)
        (l.leastExponent + (if field = 0 then 0 else (field : Int) - 1)) mantissa exponent := by
  have hpos : 0 < 2 ^ l.fractionBits := Nat.two_pow_pos _
  have hleast := hl.leastExponent_eq
  have hbias := hl.bias_pos
  simp only [bits?] at h
  split at h
  · rename_i hzero
    cases h
    refine ⟨0, 0, by omega, by omega, hpos, ?_⟩
    rw [hzero]
    exact .zero _ _
  · rename_i hne
    split at h
    · cases h
    · rename_i shifted hshifted
      have hvalue := sameValue_shifted hshifted
      have hlog := hvalue.log2_eq hne
      have hne' : shifted ≠ 0 := fun hzero => hne (hvalue.eq_zero_iff.mp hzero)
      split at h
      · cases h
      · rename_i htop
        cases h
        rw [twoTo_eq]
        refine ⟨_, _, rfl, ?_, Nat.mod_lt _ hpos, ?_⟩
        · split <;> omega
        · by_cases hsmall : shifted < 2 ^ l.fractionBits
          · -- Below the first normal number the unit is the least one.
            have hlast : max (exponent + mantissa.log2 - l.fractionBits) l.leastExponent
                = l.leastExponent := by
              have hlow := (Nat.log2_lt hne').mpr hsmall
              omega
            rw [hlast] at hvalue
            rw [if_pos hsmall, if_pos rfl, if_pos rfl, Nat.mod_eq_of_lt hsmall, Int.add_zero]
            exact hvalue
          · -- Otherwise the leading bit is left out of the fraction.
            have hhigh : shifted < 2 ^ (l.fractionBits + 1) := (Nat.log2_lt hne').mp (by omega)
            have hmantissa : 2 ^ l.fractionBits + shifted % 2 ^ l.fractionBits = shifted := by
              rw [Nat.mod_eq_sub_mod (by omega), Nat.mod_eq_of_lt (by omega)]
              omega
            have hexponent : l.leastExponent + ((max (exponent + mantissa.log2 - l.fractionBits)
                l.leastExponent - l.leastExponent + 1).toNat - 1)
                = max (exponent + mantissa.log2 - l.fractionBits) l.leastExponent := by omega
            rw [if_neg hsmall, if_neg (by omega), if_neg (by omega), hmantissa, hexponent]
            exact hvalue

/-- The bits that a layout assigns to a number are read as that number. -/
theorem number_bits? (hl : l.Regular) {negative : Bool} {mantissa : Nat} {exponent : Int} {bits : Nat}
    (hcanonical : Canonical mantissa exponent) (h : l.bits? negative mantissa exponent = some bits) :
    l.number bits = pack negative mantissa exponent := by
  obtain ⟨field, fraction, rfl, hfield, hfraction, hvalue⟩ := fields_of_bits? hl h
  exact number_finite negative hfield hfraction hcanonical hvalue

/-- A layout has a bit for the sign before its field and its fraction. -/
theorem bits?_lt (hl : l.Regular) {negative : Bool} {mantissa : Nat} {exponent : Int} {bits : Nat}
    (h : l.bits? negative mantissa exponent = some bits) :
    bits < 2 * (2 * l.bias + 2) * 2 ^ l.fractionBits := by
  obtain ⟨field, fraction, rfl, hfield, hfraction, -⟩ := fields_of_bits? hl h
  have hsign : l.signBit negative ≤ (2 * l.bias + 2) * 2 ^ l.fractionBits := by
    rw [signBit, twoTo_eq]
    split
    · exact Nat.le_refl _
    · exact Nat.zero_le _
  have hrow : (field + 1) * 2 ^ l.fractionBits ≤ (2 * l.bias + 2) * 2 ^ l.fractionBits :=
    Nat.mul_le_mul_right _ (by omega)
  rw [Nat.add_mul, Nat.one_mul] at hrow
  rw [Nat.mul_assoc, Nat.two_mul]
  omega

/-- The bits of a finite double are its bits in the widest layout. -/
theorem number_double {x : Float} {negative : Bool} {mantissa : Nat} {exponent : Int}
    (h : ofFloat x = .finite negative mantissa exponent) : double.number x.toBits.toNat = x := by
  have hcanonical := canonical_of_ofFloat h
  have hpack := pack_ofFloat h
  obtain ⟨sign, field, fraction, hbits, hfield, hfraction, hparts⟩ := ofFloat_eq x
  rw [hparts] at h
  have hsign : double.signBit sign = if sign then twoTo 63 else 0 := by
    cases sign <;> decide
  have hrow : x.toBits.toNat = double.signBit sign + field * 2 ^ double.fractionBits + fraction := by
    rw [hbits, hsign, show double.fractionBits = 52 from rfl]
    omega
  rw [hrow, ← hpack]
  split at h
  · split at h <;> cases h
  · have hfinite : field < 2 * double.bias + 1 := by
      rw [show double.bias = 1023 from rfl]
      omega
    split at h
    · rename_i hzero
      cases h
      refine number_finite negative hfinite hfraction hcanonical ?_
      rw [if_pos hzero, if_pos hzero, Int.add_zero]
      exact .refl _ _
    · rename_i hnormal
      cases h
      refine number_finite negative hfinite hfraction hcanonical ?_
      have hexponent : double.leastExponent + ((field : Int) - 1) = field - 1075 := by
        rw [show double.leastExponent = -1074 from rfl]
        omega
      rw [if_neg hnormal, if_neg hnormal, hexponent]
      exact .refl _ _

end Layout

end LineScript.Wire
