/-
# Doubles and their bits

A double is known by its 64 bits, with one pattern for what is no number. So taking a double
apart into sign, mantissa and exponent and packing these again gives the same double, and a
fraction that some double is equal to is read as exactly that double, whatever the numerator
and denominator it is given by. Reading never gives the negative zero for a positive sign,
which matters to stored programs: they do not tell the two zeros apart.
-/

import Mathlib
import LineScript.Number.Dyadic

namespace LineScript.Number

/-- Powers of two in the notation of the arithmetic tactics. -/
theorem twoTo_eq (n : Nat) : twoTo n = 2 ^ n := by
  simp [twoTo]

/-! ## The three parts of a bit pattern -/

section Bits

open Float.Model (Format)
open Float.Model.UnpackedFloat

theorem toNat_unpackMantissa (b : BitVec 64) :
    (@unpackMantissa Format.binary64 b).toNat = b.toNat % 2 ^ 52 := by
  simp [unpackMantissa, BitVec.extractLsb]

theorem toNat_unpackExponent (b : BitVec 64) :
    (@unpackExponent Format.binary64 b).toNat = b.toNat / 2 ^ 52 % 2048 := by
  simp [unpackExponent, BitVec.extractLsb, Nat.shiftRight_eq_div_pow]

theorem toNat_unpackSign (b : BitVec 64) :
    (@unpackSign Format.binary64 b).toNat = b.toNat / 2 ^ 63 := by
  have hlt := b.isLt
  simp only [unpackSign, BitVec.extractLsb, Nat.shiftRight_eq_div_pow, BitVec.toNat_cast,
    BitVec.extractLsb'_toNat]
  omega

theorem toNat_packComponents (s : Sign) (e : BitVec 11) (m : BitVec 52) :
    (packComponents Format.binary64 s e m).toNat
      = s.toBitVec.toNat * 2 ^ 63 + e.toNat * 2 ^ 52 + m.toNat := by
  unfold packComponents
  rw [BitVec.toNat_append, BitVec.toNat_append, ← Nat.shiftLeft_add_eq_or_of_lt m.isLt,
    ← Nat.shiftLeft_add_eq_or_of_lt e.isLt]
  simp only [Nat.shiftLeft_eq]
  omega

theorem toBitVec_ofBitVec (v : BitVec 1) : (Sign.ofBitVec v).toBitVec = v := by
  revert v
  decide

theorem packComponents_unpack (b : BitVec 64) :
    packComponents Format.binary64 (.ofBitVec (@unpackSign Format.binary64 b))
      (@unpackExponent Format.binary64 b) (@unpackMantissa Format.binary64 b) = b := by
  apply BitVec.eq_of_toNat_eq
  rw [toNat_packComponents, toBitVec_ofBitVec, toNat_unpackSign, toNat_unpackExponent,
    toNat_unpackMantissa]
  have hlt := b.isLt
  omega

theorem toNat_implicit (m : BitVec 52) : (1#1 ++ m).toNat = 2 ^ 52 + m.toNat := by
  rw [BitVec.toNat_append, ← Nat.shiftLeft_add_eq_or_of_lt m.isLt]
  simp [Nat.shiftLeft_eq]

theorem mantissaBits_binary64 : Format.binary64.mantissaBits = 53 := by
  decide

theorem pack_normal (s : Sign) {e : BitVec 11} (m : BitVec 52) (hfinite : e ≠ -1#11)
    (h : 0 < (1#1 ++ m).toNat) :
    pack Format.binary64
        (.finite s (1#1 ++ m).toNat (e.toNat - (Format.binary64.exponentBias + (52 : Nat))) h)
      = packComponents Format.binary64 s e m := by
  have hexponent : ((e.toNat : Int) - (Format.binary64.exponentBias + (52 : Nat))
      + Format.binary64.exponentBias + (52 : Nat)).toNat = e.toNat := by omega
  have hsmall : ¬ 2 ^ 11 ≤ e.toNat + 1 := by
    have hne : e.toNat ≠ 2047 := fun h => hfinite (BitVec.eq_of_toNat_eq h)
    have hlt := e.isLt
    omega
  have hlog : (1#1 ++ m).toNat.log2 + 1 = Format.binary64.mantissaBits := by
    have hlt := m.isLt
    have hvalue := toNat_implicit m
    have hupper : (1#1 ++ m).toNat.log2 < 53 := (Nat.log2_lt (by omega)).mpr (by omega)
    have hlower : 52 ≤ (1#1 ++ m).toNat.log2 := (Nat.le_log2 (by omega)).mpr (by omega)
    rw [mantissaBits_binary64]
    omega
  have hmantissa : BitVec.ofNat 52 (1#1 ++ m).toNat = m := by
    apply BitVec.eq_of_toNat_eq
    rw [toNat_implicit, BitVec.toNat_ofNat, Nat.add_mod_left, Nat.mod_eq_of_lt m.isLt]
  simp only [pack]
  rw [hexponent, if_neg hsmall, if_pos hlog, hmantissa, BitVec.ofNat_toNat, BitVec.setWidth_eq]

theorem pack_subnormal (s : Sign) {m : BitVec 52} (h : 0 < m.toNat) :
    pack Format.binary64
        (.finite s m.toNat (((0#11).toNat : Int) - (Format.binary64.exponentBias + (52 : Nat)) + 1) h)
      = packComponents Format.binary64 s 0#11 m := by
  have hexponent : (((0#11).toNat : Int) - (Format.binary64.exponentBias + (52 : Nat)) + 1
      + Format.binary64.exponentBias + (52 : Nat)).toNat = 1 := by
    rw [BitVec.toNat_ofNat]
    omega
  have hlog : ¬ m.toNat.log2 + 1 = Format.binary64.mantissaBits := by
    have hlt := (Nat.log2_lt (Nat.ne_of_gt h)).mpr m.isLt
    rw [mantissaBits_binary64]
    omega
  simp only [pack]
  rw [hexponent, if_neg (by decide), if_neg hlog, BitVec.ofNat_toNat, BitVec.setWidth_eq]

/-- Every pattern but those of what is no number survives being taken apart. -/
theorem pack_unpack {b : BitVec 64}
    (h : @unpackExponent Format.binary64 b = -1#11 → @unpackMantissa Format.binary64 b = 0#52) :
    pack Format.binary64 (unpack Format.binary64 b) = b := by
  have hcomponents := packComponents_unpack b
  simp only [unpack]
  split
  · rename_i hexponent
    rw [hexponent, h hexponent] at hcomponents
    rw [if_pos (h hexponent)]
    exact hcomponents
  · rename_i hexponent
    split
    · rename_i hzero
      rw [hzero] at hcomponents
      split
      · rename_i hmantissa
        rw [hmantissa] at hcomponents
        exact hcomponents
      · rw [hzero]
        exact (pack_subnormal _ _).trans hcomponents
    · exact (pack_normal _ _ hexponent _).trans hcomponents

theorem unpack_eq_notANumber {b : BitVec 64} (hexponent : @unpackExponent Format.binary64 b = -1#11)
    (hmantissa : @unpackMantissa Format.binary64 b ≠ 0#52) :
    unpack Format.binary64 b = .notANumber := by
  simp only [unpack]
  rw [if_pos hexponent, if_neg hmantissa]

/-- A valid pattern survives being taken apart, also the one of what is no number. -/
theorem model_pack_unpack (m : Float.Model) : Float.Model.pack m.unpack = m := by
  obtain ⟨bits, hvalid⟩ := m
  simp only [Float.Model.pack, Float.Model.unpack, Float.Model.mk.injEq]
  by_cases h : @unpackExponent Format.binary64 bits.toBitVec = -1#11 →
      @unpackMantissa Format.binary64 bits.toBitVec = 0#52
  · exact congrArg UInt64.ofBitVec (pack_unpack h)
  · obtain ⟨hexponent, hmantissa⟩ := Classical.not_imp.mp h
    rw [unpack_eq_notANumber hexponent hmantissa]
    exact congrArg UInt64.ofBitVec (hvalid.eq_packedNaN hexponent hmantissa).symm

end Bits

/-- The bits of what is no number. -/
def IsUndefined (bits : Nat) : Prop := bits / 2 ^ 52 % 2048 = 2047 ∧ bits % 2 ^ 52 ≠ 0

/-- A double is read back from its bits. -/
theorem ofBits_toBits (x : Float) : Float.ofBits x.toBits = x :=
  congrArg Float.ofModel (model_pack_unpack x.toModel)

theorem toBits_ofBits {bits : UInt64} (h : ¬IsUndefined bits.toNat) :
    (Float.ofBits bits).toBits = bits := by
  refine congrArg UInt64.ofBitVec (pack_unpack fun hexponent => ?_)
  apply BitVec.eq_of_toNat_eq
  have hfield := congrArg BitVec.toNat hexponent
  rw [toNat_unpackExponent] at hfield
  rw [toNat_unpackMantissa]
  exact Decidable.byContradiction fun hfraction => h ⟨hfield, hfraction⟩

/-- All patterns of what is no number stand for one double. -/
theorem ofBits_eq_ofBits {a b : UInt64} (ha : IsUndefined a.toNat) (hb : IsUndefined b.toNat) :
    Float.ofBits a = Float.ofBits b := by
  have hunpack : ∀ {c : UInt64}, IsUndefined c.toNat →
      Float.Model.UnpackedFloat.unpack .binary64 c.toBitVec = .notANumber := by
    intro c hc
    apply unpack_eq_notANumber
    · apply BitVec.eq_of_toNat_eq
      rw [toNat_unpackExponent]
      exact hc.1
    · intro hmantissa
      apply hc.2
      have hfraction := congrArg BitVec.toNat hmantissa
      rw [toNat_unpackMantissa] at hfraction
      exact hfraction
  simp only [Float.ofBits, Float.Model.ofBits, hunpack ha, hunpack hb]

theorem eq_zero_of_compare {u : Float.Model.UnpackedFloat}
    (h : u.beq (.zero .positive) = true) : ∃ sign, u = .zero sign := by
  cases u with
  | zero sign => exact ⟨sign, rfl⟩
  | notANumber => cases h
  | infinity sign => cases sign <;> cases h
  | finite sign mantissa exponent hpos => cases sign <;> cases h

/-- Two doubles compare equal to zero. -/
theorem beq_zero_iff (x : Float) : (x == 0) = true ↔ x = 0 ∨ x = -0 := by
  constructor
  · intro h
    obtain ⟨sign, hsign⟩ := @eq_zero_of_compare x.toModel.unpack h
    have hmodel := model_pack_unpack x.toModel
    rw [hsign] at hmodel
    have hx : x = Float.ofModel (Float.Model.pack (.zero sign)) := congrArg Float.ofModel hmodel.symm
    cases sign with
    | negative => exact .inr (hx.trans (by decide))
    | positive => exact .inl (hx.trans (by decide))
  · rintro (rfl | rfl) <;> decide

namespace Dyadic

/-! ## Mantissa and exponent -/

/-- The mantissas and exponents of doubles: 53 bits, or fewer at the least exponent. -/
def Canonical (mantissa : Nat) (exponent : Int) : Prop :=
  mantissa < 2 ^ 53 ∧ -1074 ≤ exponent ∧ exponent ≤ 971 ∧ (2 ^ 52 ≤ mantissa ∨ exponent = -1074)

theorem withSign_eq {x : Float} {negative : Bool} {magnitude : Nat}
    (h : magnitude + (if negative then twoTo 63 else 0) = x.toBits.toNat) :
    withSign negative magnitude = x := by
  rw [withSign, h, UInt64.ofNat_toNat, ofBits_toBits]

/-- The three parts of the bits of a double, as `ofFloat` reads them. -/
theorem ofFloat_eq (x : Float) :
    ∃ negative field fraction,
      x.toBits.toNat = field * 2 ^ 52 + fraction + (if negative then twoTo 63 else 0)
      ∧ field < 2048 ∧ fraction < 2 ^ 52
      ∧ ofFloat x =
        (if field = 2047 then (if fraction = 0 then .infinite negative else .undefined)
        else if field = 0 then .finite negative fraction (-1074)
        else .finite negative (2 ^ 52 + fraction) ((field : Int) - 1075)) := by
  have hlt := x.toBits.toNat_lt
  refine ⟨decide (2 ^ 63 ≤ x.toBits.toNat), x.toBits.toNat / 2 ^ 52 % 2048, x.toBits.toNat % 2 ^ 52,
    ?_, by omega, by omega, by simp only [ofFloat, twoTo_eq]⟩
  simp only [decide_eq_true_eq, twoTo_eq, Nat.reducePow]
  split <;> omega

theorem canonical_of_ofFloat {x : Float} {negative : Bool} {mantissa : Nat} {exponent : Int}
    (h : ofFloat x = .finite negative mantissa exponent) : Canonical mantissa exponent := by
  obtain ⟨sign, field, fraction, -, hfield, hfraction, hparts⟩ := ofFloat_eq x
  rw [hparts] at h
  unfold Canonical
  split at h
  · split at h <;> cases h
  · split at h <;> cases h <;> omega

/-- A finite double is packed from its own mantissa and exponent. -/
theorem pack_ofFloat {x : Float} {negative : Bool} {mantissa : Nat} {exponent : Int}
    (h : ofFloat x = .finite negative mantissa exponent) : pack negative mantissa exponent = x := by
  obtain ⟨sign, field, fraction, hbits, hfield, hfraction, hparts⟩ := ofFloat_eq x
  rw [hparts] at h
  split at h
  · split at h <;> cases h
  · split at h <;> cases h
    · rename_i hzero
      rw [pack, if_pos (by rw [twoTo_eq]; exact hfraction)]
      apply withSign_eq
      rw [hbits, hzero]
      omega
    · rw [pack, if_neg (by rw [twoTo_eq]; omega)]
      apply withSign_eq
      rw [hbits, twoTo_eq 52]
      omega

theorem withSign_of_infinite {x : Float} {negative : Bool} (h : ofFloat x = .infinite negative) :
    withSign negative (2047 * twoTo 52) = x := by
  obtain ⟨sign, field, fraction, hbits, hfield, hfraction, hparts⟩ := ofFloat_eq x
  rw [hparts] at h
  split at h
  · split at h <;> cases h
    apply withSign_eq
    rw [hbits, twoTo_eq 52]
    omega
  · split at h <;> cases h

theorem isUndefined_of_ofFloat {x : Float} (h : ofFloat x = .undefined) :
    IsUndefined x.toBits.toNat := by
  obtain ⟨sign, field, fraction, hbits, hfield, hfraction, hparts⟩ := ofFloat_eq x
  rw [hparts] at h
  simp only [IsUndefined, hbits, twoTo_eq, Nat.reducePow]
  split at h
  · split at h <;> cases h
    split <;> omega
  · split at h <;> cases h

/-- What is no number is any double of such a pattern. -/
theorem withSign_of_undefined {x : Float} (h : ofFloat x = .undefined) {magnitude : Nat}
    (hmagnitude : magnitude < 2 ^ 63) (hundefined : IsUndefined magnitude) :
    withSign false magnitude = x := by
  conv => rhs; rw [← ofBits_toBits x]
  apply ofBits_eq_ofBits _ (isUndefined_of_ofFloat h)
  have hsize : magnitude < UInt64.size := Nat.lt_trans hmagnitude (by decide)
  rw [if_neg Bool.false_ne_true, Nat.add_zero, UInt64.toNat_ofNat_of_lt' hsize]
  exact hundefined

/-! ## Fractions that are doubles -/

/-- The fraction `num / den` is `mantissa · 2 ^ exponent`. -/
def IsFraction (num den mantissa : Nat) (exponent : Int) : Prop :=
  (scaled num den exponent).1 = mantissa * (scaled num den exponent).2

theorem isFraction_ofNat {num den mantissa power : Nat} :
    IsFraction num den mantissa power ↔ num = mantissa * (den * 2 ^ power) := by
  simp only [IsFraction, scaled, twoTo_eq, Int.toNat_natCast]
  rw [if_pos (Int.natCast_nonneg power)]

theorem isFraction_neg {num den mantissa power : Nat} :
    IsFraction num den mantissa (-power) ↔ num * 2 ^ power = mantissa * den := by
  simp only [IsFraction, scaled, twoTo_eq, Int.neg_neg, Int.toNat_natCast]
  cases power with
  | zero => simp
  | succ power => rw [if_neg (by omega)]

/-- Halving the unit doubles the mantissa. -/
theorem isFraction_double_iff {num den mantissa : Nat} {exponent : Int} :
    IsFraction num den (mantissa * 2) (exponent - 1) ↔ IsFraction num den mantissa exponent := by
  obtain ⟨power, rfl | rfl⟩ :
      ∃ power : Nat, exponent = (power + 1 : Nat) ∨ exponent = -(power : Int) :=
    ⟨if 0 < exponent then (exponent - 1).toNat else (-exponent).toNat, by split <;> omega⟩
  · have hpred : ((power + 1 : Nat) : Int) - 1 = power := by omega
    rw [hpred, isFraction_ofNat, isFraction_ofNat, Nat.pow_succ]
    constructor <;> intro h <;> rw [h] <;> ac_rfl
  · have hpred : -(power : Int) - 1 = -(power + 1 : Nat) := by omega
    rw [hpred, isFraction_neg, isFraction_neg, Nat.pow_succ]
    have hleft : num * (2 ^ power * 2) = num * 2 ^ power * 2 := by ac_rfl
    have hright : mantissa * 2 * den = mantissa * den * 2 := by ac_rfl
    rw [hleft, hright, Nat.mul_right_cancel_iff (by decide)]

theorem isFraction_shift_iff {num den mantissa : Nat} {exponent : Int} (places : Nat) :
    IsFraction num den (mantissa * 2 ^ places) (exponent - places)
      ↔ IsFraction num den mantissa exponent := by
  induction places with
  | zero => simp
  | succ places ih =>
      have hmantissa : mantissa * 2 ^ (places + 1) = mantissa * 2 ^ places * 2 := by
        rw [Nat.pow_succ, Nat.mul_assoc]
      have hexponent : exponent - (places + 1 : Nat) = exponent - places - 1 := by omega
      rw [hmantissa, hexponent, isFraction_double_iff, ih]

theorem mul_two_pow_eq_zero_iff (n places : Nat) : n * 2 ^ places = 0 ↔ n = 0 := by
  have hpos := Nat.two_pow_pos places
  rw [Nat.mul_eq_zero]
  omega

theorem log2_mul_two_pow {n : Nat} (places : Nat) (h : n ≠ 0) :
    (n * 2 ^ places).log2 = n.log2 + places := by
  induction places with
  | zero => simp
  | succ places ih =>
      have hdouble : n * 2 ^ (places + 1) = 2 * (n * 2 ^ places) := by
        rw [Nat.pow_succ]
        ac_rfl
      have hne : n * 2 ^ places ≠ 0 := fun hzero => h ((mul_two_pow_eq_zero_iff n places).mp hzero)
      rw [hdouble, Nat.log2_two_mul hne, ih, Nat.add_assoc]

theorem IsFraction.num_eq_zero_iff {num mantissa power : Nat} {exponent : Int}
    (h : IsFraction num (2 ^ power) mantissa exponent) : num = 0 ↔ mantissa = 0 := by
  obtain ⟨places, rfl | rfl⟩ : ∃ places : Nat, exponent = places ∨ exponent = -(places : Int) :=
    ⟨exponent.natAbs, by omega⟩
  · rw [isFraction_ofNat, ← Nat.pow_add] at h
    rw [h, mul_two_pow_eq_zero_iff]
  · rw [isFraction_neg] at h
    rw [← mul_two_pow_eq_zero_iff num places, h, mul_two_pow_eq_zero_iff]

theorem IsFraction.log2_eq {num mantissa power : Nat} {exponent : Int}
    (h : IsFraction num (2 ^ power) mantissa exponent) (hne : mantissa ≠ 0) :
    (num.log2 : Int) - (2 ^ power).log2 = mantissa.log2 + exponent := by
  have hnum : num ≠ 0 := fun hnum => hne (h.num_eq_zero_iff.mp hnum)
  obtain ⟨places, rfl | rfl⟩ : ∃ places : Nat, exponent = places ∨ exponent = -(places : Int) :=
    ⟨exponent.natAbs, by omega⟩
  · rw [isFraction_ofNat, ← Nat.pow_add] at h
    rw [h, log2_mul_two_pow _ hne, Nat.log2_two_pow]
    omega
  · rw [isFraction_neg] at h
    have hlog := congrArg Nat.log2 h
    rw [log2_mul_two_pow _ hnum, log2_mul_two_pow _ hne] at hlog
    rw [Nat.log2_two_pow]
    omega

theorem IsFraction.div_eq {num den mantissa : Nat} {exponent : Int}
    (h : IsFraction num den mantissa exponent) (hden : 0 < den) :
    (scaled num den exponent).1 / (scaled num den exponent).2 = mantissa
      ∧ (scaled num den exponent).1 % (scaled num den exponent).2 = 0
      ∧ 0 < (scaled num den exponent).2 := by
  have hpos : 0 < (scaled num den exponent).2 := by
    unfold scaled
    split
    · exact Nat.mul_pos hden (by rw [twoTo_eq]; exact Nat.two_pow_pos _)
    · exact hden
  rw [IsFraction] at h
  rw [h]
  exact ⟨Nat.mul_div_cancel _ hpos, Nat.mul_mod_left _ _, hpos⟩

theorem fittingExponent_of_isFraction {num mantissa power : Nat} {exponent : Int}
    (h : IsFraction num (2 ^ power) mantissa exponent) (hne : mantissa ≠ 0)
    (hcanonical : Canonical mantissa exponent) : fittingExponent num (2 ^ power) = exponent := by
  obtain ⟨hupper, hleast, hmost, hnormal⟩ := hcanonical
  have hlog : mantissa.log2 < 53 := (Nat.log2_lt hne).mpr hupper
  have hpower : 0 < 2 ^ power := Nat.two_pow_pos power
  simp only [fittingExponent, h.log2_eq hne, twoTo_eq]
  by_cases hexponent : exponent = -1074
  · have hguess : max ((mantissa.log2 : Int) + exponent - 53) (-1074) = exponent := by omega
    rw [hguess, (h.div_eq hpower).1, if_neg (by omega)]
  · have hbits : mantissa.log2 = 52 := by
      have := (Nat.le_log2 hne).mpr (hnormal.resolve_right hexponent)
      omega
    have hguess : max ((mantissa.log2 : Int) + exponent - 53) (-1074) = exponent - 1 := by omega
    rw [hguess, ((isFraction_double_iff.mpr h).div_eq hpower).1, if_pos (by omega)]
    omega

/-- A fraction that a double is equal to is read as that double. -/
theorem nearest?_of_isFraction {num mantissa power : Nat} {exponent : Int} (negative : Bool)
    (h : IsFraction num (2 ^ power) mantissa exponent) (hcanonical : Canonical mantissa exponent) :
    nearest? negative num (2 ^ power) = some (pack negative mantissa exponent) := by
  by_cases hzero : mantissa = 0
  · subst hzero
    have hnum : num = 0 := h.num_eq_zero_iff.mpr rfl
    rw [hnum, nearest?, if_pos rfl, pack, if_pos (by rw [twoTo_eq]; decide)]
  · have hnum : num ≠ 0 := fun hnum => hzero (h.num_eq_zero_iff.mp hnum)
    obtain ⟨hdiv, hmod, hpos⟩ := h.div_eq (Nat.two_pow_pos power)
    have hround : roundDiv (scaled num (2 ^ power) exponent).1
        (scaled num (2 ^ power) exponent).2 = mantissa := by
      simp only [roundDiv, hdiv, hmod]
      rw [if_neg (by omega), if_neg (by omega)]
    simp only [nearest?, fittingExponent_of_isFraction h hzero hcanonical, hround]
    obtain ⟨hupper, hleast, hmost, hnormal⟩ := hcanonical
    have hne : mantissa ≠ twoTo 53 := by rw [twoTo_eq]; omega
    rw [if_neg hnum, if_neg hne]
    exact if_neg (by omega)

/-! ## The sign of what is read -/

theorem scaled_div_lt {num den places : Nat} {exponent : Int} (hden : den ≠ 0)
    (h : (num.log2 : Int) + 1 ≤ places + den.log2 + exponent) :
    (scaled num den exponent).1 / (scaled num den exponent).2 < 2 ^ places := by
  have hnum : num < 2 ^ (num.log2 + 1) := Nat.lt_log2_self
  have hlog : 2 ^ den.log2 ≤ den := Nat.log2_self_le hden
  simp only [scaled, twoTo_eq]
  split
  · rename_i hnonneg
    apply Nat.div_lt_of_lt_mul
    calc num < 2 ^ (num.log2 + 1) := hnum
      _ ≤ 2 ^ (den.log2 + exponent.toNat + places) := Nat.pow_le_pow_right (by decide) (by omega)
      _ = 2 ^ den.log2 * 2 ^ exponent.toNat * 2 ^ places := by rw [Nat.pow_add, Nat.pow_add]
      _ ≤ den * 2 ^ exponent.toNat * 2 ^ places :=
        Nat.mul_le_mul_right _ (Nat.mul_le_mul_right _ hlog)
  · rename_i hnegative
    apply Nat.div_lt_of_lt_mul
    calc num * 2 ^ (-exponent).toNat < 2 ^ (num.log2 + 1) * 2 ^ (-exponent).toNat :=
          Nat.mul_lt_mul_of_pos_right hnum (Nat.two_pow_pos _)
      _ = 2 ^ (num.log2 + 1 + (-exponent).toNat) := (Nat.pow_add _ _ _).symm
      _ ≤ 2 ^ (den.log2 + places) := Nat.pow_le_pow_right (by decide) (by omega)
      _ = 2 ^ den.log2 * 2 ^ places := Nat.pow_add _ _ _
      _ ≤ den * 2 ^ places := Nat.mul_le_mul_right _ hlog

/-- At the fitting exponent a fraction has at most 53 bits before the point. -/
theorem scaled_fittingExponent_lt (num : Nat) {den : Nat} (hden : den ≠ 0) :
    (scaled num den (fittingExponent num den)).1 / (scaled num den (fittingExponent num den)).2
      < 2 ^ 53 := by
  simp only [fittingExponent, twoTo_eq]
  split
  · exact scaled_div_lt hden (by omega)
  · rename_i hfits
    exact Nat.lt_of_not_le hfits

theorem roundDiv_le (num den : Nat) : roundDiv num den ≤ num / den + 1 := by
  simp only [roundDiv]
  split
  · exact Nat.le_refl _
  · split <;> omega

/-- A double that is packed with a positive sign is not the negative zero. -/
theorem pack_false_ne {mantissa : Nat} {exponent : Int} (hmantissa : mantissa < 2 ^ 53)
    (hexponent : exponent ≤ 971) : pack false mantissa exponent ≠ -0 := by
  have hpositive : ∀ magnitude < 2047 * 2 ^ 52, withSign false magnitude ≠ -0 := by
    intro magnitude hlt h
    have hmod : magnitude % 2 ^ 64 = magnitude := Nat.mod_eq_of_lt (by omega)
    have hbits : (withSign false magnitude).toBits = UInt64.ofNat magnitude := by
      apply toBits_ofBits
      simp only [IsUndefined, UInt64.toNat_ofNat', Bool.false_eq_true, if_false, Nat.add_zero, hmod]
      omega
    rw [h] at hbits
    have hnat := congrArg UInt64.toNat hbits
    rw [UInt64.toNat_ofNat', hmod] at hnat
    have hzero : (-0 : Float).toBits.toNat = 2 ^ 63 := by decide
    omega
  unfold pack
  split
  · rename_i hsmall
    exact hpositive _ (by rw [twoTo_eq] at hsmall; omega)
  · exact hpositive _ (by rw [twoTo_eq]; omega)

/-- What is read with a positive sign is not the negative zero. -/
theorem nearest?_false_ne {num den : Nat} {x : Float} (hden : den ≠ 0)
    (h : nearest? false num den = some x) : x ≠ -0 := by
  have hquotient := scaled_fittingExponent_lt num hden
  have hround := roundDiv_le (scaled num den (fittingExponent num den)).1
    (scaled num den (fittingExponent num den)).2
  simp only [nearest?, twoTo_eq] at h
  split at h
  · cases h
    decide
  · -- A mantissa that is rounded up to 54 bits is halved.
    split at h
    all_goals
      dsimp only at h
      split at h
      · cases h
      · cases h
        exact pack_false_ne (by omega) (by omega)

end Dyadic
end LineScript.Number
