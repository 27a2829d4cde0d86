import LayeredDrawing.Proofs.Number.Arithmetic

/-!
# Unpacked numbers and their bits

Every word of bits stands for a number in canonical form (`canonical_unpack`). The other way
round, a number in canonical form is kept by its bits if its exponent fits, which is a matter of
its value alone (`unpack_pack`); all others become infinite (`unpack_pack_of_le`).
-/

namespace LayeredDrawing.Unpacked

open Float.Model (Format UnpackedFloat)
open Float.Model.UnpackedFloat (Sign pack packComponents packedInfinity unpack)

variable (format : Format)

/-! ## Exponents -/

/-- The least power of two that is too great for a format. -/
def bound : ℚ := 2 ^ (2 ^ (format.exponentBits - 1) : ℕ)

theorem minExponent_eq :
    format.minExponent = 1 - format.exponentBias - format.mantissaBitsWithoutImplicit := by
  have hpow : 1 ≤ 2 ^ (format.exponentBits - 1) := Nat.one_le_two_pow
  rw [Format.minExponent, Format.exponentBias, Format.mantissaBits, Nat.cast_sub hpow]
  push_cast
  ring

theorem two_pow_exponentBits : 2 ^ format.exponentBits = 2 * format.exponentBias + 2 := by
  have hpow : 1 ≤ 2 ^ (format.exponentBits - 1) := Nat.one_le_two_pow
  have hsucc : 2 ^ format.exponentBits = 2 ^ (format.exponentBits - 1) * 2 := by
    rw [← pow_succ, Nat.sub_add_cancel format.he]
  rw [hsucc, Format.exponentBias]
  omega

theorem bound_eq : bound format = 2 ^ (format.exponentBias + 1 : ℤ) := by
  have hpow : 1 ≤ 2 ^ (format.exponentBits - 1) := Nat.one_le_two_pow
  have h : 2 ^ (format.exponentBits - 1) = format.exponentBias + 1 := by
    rw [Format.exponentBias]
    omega
  rw [bound, h, ← zpow_natCast]
  push_cast
  rfl

variable {format}

theorem minExponent_le_greatest (hb : 2 ≤ format.exponentBits) :
    format.minExponent ≤ format.exponentBias - format.mantissaBitsWithoutImplicit := by
  have hpow : 2 ^ 1 ≤ 2 ^ (format.exponentBits - 1) :=
    Nat.pow_le_pow_right two_pos (by omega)
  rw [minExponent_eq, Format.exponentBias]
  omega

/-- The exponent of a number in canonical form fits if its value does. -/
theorem exponent_le_iff {m : ℕ} {e : ℤ} (hb : 2 ≤ format.exponentBits)
    (hc : IsCanonical format m e) :
    (m : ℚ) * 2 ^ e < bound format ↔
      e ≤ format.exponentBias - format.mantissaBitsWithoutImplicit := by
  have hbits : (format.mantissaBits : ℤ) = format.mantissaBitsWithoutImplicit + 1 := by
    rw [Format.mantissaBits]
    push_cast
    ring
  rw [bound_eq]
  constructor
  · intro h
    rcases hc.full with hfull | rfl
    · have hlow : (2 : ℚ) ^ (format.mantissaBits - 1 + e : ℤ) ≤ m * 2 ^ e := by
        have hcast : (format.mantissaBits - 1 : ℤ) = ((format.mantissaBits - 1 : ℕ) : ℤ) := by
          have := two_le_mantissaBits format
          omega
        rw [two_zpow_add, hcast, zpow_natCast]
        refine mul_le_mul_of_nonneg_right ?_ (two_zpow_pos e).le
        exact_mod_cast hfull
      have := (zpow_lt_zpow_iff_right₀ one_lt_two).1 (hlow.trans_lt h)
      omega
    · exact minExponent_le_greatest hb
  · intro h
    calc (m : ℚ) * 2 ^ e < 2 ^ format.mantissaBits * 2 ^ e := by
          refine mul_lt_mul_of_pos_right ?_ (two_zpow_pos e)
          exact_mod_cast hc.lt
      _ = 2 ^ (format.mantissaBits + e) := by rw [two_zpow_add, zpow_natCast]
      _ ≤ 2 ^ (format.exponentBias + 1 : ℤ) := two_zpow_mono (by omega)

/-! ## Words of bits -/

theorem finite_congr {s : Sign} {m m' : ℕ} {e e' : ℤ} {hm : 0 < m} (h : m = m') (he : e = e') :
    UnpackedFloat.finite s m e hm = .finite s m' e' (h ▸ hm) := by
  subst h he
  rfl

theorem toNat_append_one (w : ℕ) (b : BitVec w) : (1#1 ++ b).toNat = 2 ^ w + b.toNat := by
  rw [BitVec.toNat_append, ← Nat.shiftLeft_add_eq_or_of_lt b.isLt, Nat.shiftLeft_eq]
  simp

theorem zero_ne_neg_one : 0#(format.exponentBits) ≠ -1#(format.exponentBits) := by
  have := format.he
  simpa using this.ne'

/-- Every word of bits stands for a number in canonical form. -/
theorem canonical_unpack (b : BitVec format.numBits) : Canonical format (unpack format b) := by
  have hlt := (Float.Model.UnpackedFloat.unpackMantissa b).isLt
  have hbits : format.mantissaBits = format.mantissaBitsWithoutImplicit + 1 := by
    rw [Format.mantissaBits, add_comm]
  have hmin := minExponent_eq format
  rw [unpack]
  split
  · split <;> trivial
  rename_i hones
  split
  · rename_i hzero
    split
    · trivial
    · refine ⟨?_, ?_, .inr ?_⟩
      · rw [hbits, pow_succ]
        omega
      · rw [hzero, BitVec.toNat_ofNat, Nat.zero_mod]
        omega
      · rw [hzero, BitVec.toNat_ofNat, Nat.zero_mod]
        omega
  · rename_i hzero
    have hpos : (Float.Model.UnpackedFloat.unpackExponent b).toNat ≠ 0 := fun h =>
      hzero (BitVec.eq_of_toNat_eq (by simpa using h))
    refine ⟨?_, ?_, .inl ?_⟩
    · rw [toNat_append_one, hbits, pow_succ]
      omega
    · omega
    · rw [toNat_append_one, hbits, Nat.add_sub_cancel]
      omega

/-- No word of bits stands for a number with a greater exponent. -/
theorem exponent_le_of_unpack (hb : 2 ≤ format.exponentBits) {b : BitVec format.numBits} {s : Sign}
    {m : ℕ} {e : ℤ} {hm : 0 < m} (h : unpack format b = .finite s m e hm) :
    e ≤ format.exponentBias - format.mantissaBitsWithoutImplicit := by
  have hbits := two_pow_exponentBits format
  rw [unpack] at h
  split at h
  · split at h <;> cases h
  rename_i hones
  split at h
  · rename_i hzero
    split at h
    · cases h
    · obtain ⟨-, -, rfl⟩ := UnpackedFloat.finite.inj h
      rw [hzero, BitVec.toNat_ofNat, Nat.zero_mod]
      have := minExponent_le_greatest hb
      rw [minExponent_eq] at this
      omega
  · obtain ⟨-, -, rfl⟩ := UnpackedFloat.finite.inj h
    have hlt := (Float.Model.UnpackedFloat.unpackExponent b).isLt
    have hne : (Float.Model.UnpackedFloat.unpackExponent b).toNat ≠
        2 ^ format.exponentBits - 1 := by
      rw [← BitVec.toNat_allOnes, ← BitVec.neg_one_eq_allOnes]
      exact fun h => hones (BitVec.eq_of_toNat_eq h)
    omega

open Float.Model.UnpackedFloat (unpackExponent_packComponents unpackMantissa_packComponents
  unpackSign_packComponents unpack_packedNaN unpack_packedZero Sign.ofBitVec_toBitVec)

@[simp] theorem unpack_packedInfinity (s : Sign) :
    unpack format (packedInfinity format s) = .infinity s := by
  simp [unpack, packedInfinity]

/-- A full mantissa is kept without its leading bit. -/
theorem unpack_packComponents_normal {s : Sign} {b m : ℕ} (hb : 0 < b)
    (hlt : b + 1 < 2 ^ format.exponentBits)
    (hm : 2 ^ format.mantissaBitsWithoutImplicit ≤ m)
    (hm' : m < 2 ^ (format.mantissaBitsWithoutImplicit + 1)) :
    unpack format (packComponents format s (.ofNat _ b) (.ofNat _ m)) =
      .finite s m (b - (format.exponentBias + format.mantissaBitsWithoutImplicit))
        ((Nat.two_pow_pos _).trans_le hm) := by
  have hbits : (BitVec.ofNat format.exponentBits b).toNat = b := by
    rw [BitVec.toNat_ofNat, Nat.mod_eq_of_lt (by omega)]
  have hones : BitVec.ofNat format.exponentBits b ≠ -1#(format.exponentBits) := by
    intro h
    have := congrArg BitVec.toNat h
    rw [hbits, BitVec.neg_one_eq_allOnes, BitVec.toNat_allOnes] at this
    omega
  have hzero : BitVec.ofNat format.exponentBits b ≠ 0#(format.exponentBits) := by
    intro h
    have := congrArg BitVec.toNat h
    rw [hbits, BitVec.toNat_ofNat, Nat.zero_mod] at this
    omega
  have hmantissa : (1#1 ++ BitVec.ofNat format.mantissaBitsWithoutImplicit m).toNat = m := by
    rw [toNat_append_one, BitVec.toNat_ofNat]
    rw [pow_succ] at hm'
    have hmod : m % 2 ^ format.mantissaBitsWithoutImplicit =
        m - 2 ^ format.mantissaBitsWithoutImplicit := by
      rw [Nat.mod_eq_sub_mod hm, Nat.mod_eq_of_lt (by omega)]
    omega
  simp only [unpack, unpackExponent_packComponents, unpackMantissa_packComponents,
    unpackSign_packComponents, Sign.ofBitVec_toBitVec, if_neg hones, if_neg hzero]
  exact finite_congr hmantissa (by rw [hbits])

/-- A mantissa that is not full has the least exponent. -/
theorem unpack_packComponents_subnormal {s : Sign} {m : ℕ} (hm : 0 < m)
    (hm' : m < 2 ^ format.mantissaBitsWithoutImplicit) :
    unpack format (packComponents format s 0#_ (.ofNat _ m)) =
      .finite s m format.minExponent hm := by
  have hmantissa : (BitVec.ofNat format.mantissaBitsWithoutImplicit m).toNat = m := by
    rw [BitVec.toNat_ofNat, Nat.mod_eq_of_lt hm']
  have hzero : BitVec.ofNat format.mantissaBitsWithoutImplicit m ≠ 0#_ := by
    intro h
    have := congrArg BitVec.toNat h
    rw [hmantissa, BitVec.toNat_ofNat, Nat.zero_mod] at this
    omega
  simp only [unpack, unpackExponent_packComponents, unpackMantissa_packComponents,
    unpackSign_packComponents, Sign.ofBitVec_toBitVec, if_neg zero_ne_neg_one, if_true,
    dif_neg hzero]
  refine finite_congr hmantissa ?_
  rw [minExponent_eq, BitVec.toNat_ofNat, Nat.zero_mod]
  omega

/-! ## Packing -/

variable {x : UnpackedFloat} (hb : 2 ≤ format.exponentBits) (hc : Canonical format x)

include hb hc

/-- **A number in canonical form is kept by its bits** if it is less than the bound of the
format. -/
theorem unpack_pack (hlt : |value x| < bound format) : unpack format (pack format x) = x := by
  cases x with
  | infinity s => exact unpack_packedInfinity s
  | notANumber => exact unpack_packedNaN
  | zero s => exact unpack_packedZero
  | finite s m e hm =>
    have hc : IsCanonical format m e := hc
    have hmin := hc.minExponent_le
    rw [value_finite, abs_mul, abs_signValue, one_mul, abs_of_nonneg
      (mul_nonneg m.cast_nonneg (two_zpow_pos e).le), exponent_le_iff hb hc] at hlt
    rw [minExponent_eq] at hmin
    have hbits := two_pow_exponentBits format
    have hfits : ¬ 2 ^ format.exponentBits ≤
        (e + format.exponentBias + format.mantissaBitsWithoutImplicit).toNat + 1 := by
      omega
    have hsucc : format.mantissaBits = format.mantissaBitsWithoutImplicit + 1 := by
      rw [Format.mantissaBits, add_comm]
    rw [pack]
    simp only [if_neg hfits]
    have hlog := (Nat.log2_lt hm.ne').2 hc.lt
    by_cases hfull : 2 ^ format.mantissaBitsWithoutImplicit ≤ m
    · have := (Nat.le_log2 hm.ne').2 hfull
      rw [if_pos (by omega), unpack_packComponents_normal (by omega) (by omega) hfull
        (hsucc ▸ hc.lt)]
      exact finite_congr rfl (by omega)
    · have := (Nat.log2_lt hm.ne').2 (not_le.1 hfull)
      have he : e = format.minExponent := hc.full.resolve_left (by
        rw [hsucc, Nat.add_sub_cancel]
        exact hfull)
      rw [if_neg (by omega), unpack_packComponents_subnormal hm (not_le.1 hfull)]
      exact finite_congr rfl he.symm

/-- A number that reaches the bound of the format becomes infinite. -/
theorem unpack_pack_of_le (hle : bound format ≤ |value x|) :
    ∃ s, unpack format (pack format x) = .infinity s ∧ |value x| = signValue s * value x := by
  have hpos : (0 : ℚ) < bound format := pow_pos two_pos _
  cases x with
  | infinity s => simp [value] at hle; linarith
  | notANumber => simp [value] at hle; linarith
  | zero s => simp at hle; linarith
  | finite s m e hm =>
    have hc : IsCanonical format m e := hc
    have hnn : (0 : ℚ) ≤ m * 2 ^ e := mul_nonneg m.cast_nonneg (two_zpow_pos e).le
    have hbits := two_pow_exponentBits format
    have hmin := hc.minExponent_le
    rw [minExponent_eq] at hmin
    rw [value_finite, abs_mul, abs_signValue, one_mul, abs_of_nonneg hnn] at hle ⊢
    have he : ¬ e ≤ format.exponentBias - format.mantissaBitsWithoutImplicit := by
      rw [← exponent_le_iff hb hc]
      exact not_lt.2 hle
    have hover : 2 ^ format.exponentBits ≤
        (e + format.exponentBias + format.mantissaBitsWithoutImplicit).toNat + 1 := by
      omega
    refine ⟨s, ?_, ?_⟩
    · rw [pack]
      simp only [if_pos hover]
      exact unpack_packedInfinity s
    · cases s <;> simp [signValue]

end LayeredDrawing.Unpacked
