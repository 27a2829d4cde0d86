import LayeredDrawing.Proofs.Number.Products
import Mathlib.Order.Monotone.Basic

/-!
# Numbers by their words

But for its sign bit, the word of a number counts the magnitudes of the format in their order, from
zero to the infinite one at the bound of the format (`strictMono_magnitudeAt`). The place of a
number in the total order is its word with the sign taken into account, and its place on the line is
a function of that (`level_eq_levelAt`). The one word that is no number follows those of the
positive numbers.

* `eq_of_level_eq`: **a number is known by its place and its sign.**
* `eq_or_lt_of_totalLE`: positive numbers are sorted by their places.
-/

namespace LayeredDrawing

open Float.Model (Format UnpackedFloat)
open Float.Model.UnpackedFloat (Sign unpack unpackExponent unpackMantissa unpackSign)

/-! ## Magnitudes -/

/-- The magnitude with a word, which holds the exponent before the mantissa. -/
def magnitudeAt (w : ℕ) : ℚ :=
  if w / 2 ^ 23 = 0 then (w % 2 ^ 23 : ℕ) * 2 ^ (-149 : ℤ)
  else (2 ^ 23 + w % 2 ^ 23 : ℕ) * 2 ^ ((w / 2 ^ 23 : ℕ) - 150 : ℤ)

/-- The next word has the next mantissa, or the next exponent with the least mantissa. -/
theorem magnitudeAt_lt_succ (w : ℕ) : magnitudeAt w < magnitudeAt (w + 1) := by
  by_cases hlast : w % 2 ^ 23 + 1 = 2 ^ 23
  · have hdiv : (w + 1) / 2 ^ 23 = w / 2 ^ 23 + 1 := by omega
    have hmod : (w + 1) % 2 ^ 23 = 0 := by omega
    rw [magnitudeAt, magnitudeAt, hdiv, hmod, if_neg (Nat.succ_ne_zero _)]
    have hmantissa : w % 2 ^ 23 = 2 ^ 23 - 1 := by omega
    split
    · rename_i hzero
      rw [hmantissa, hzero]
      norm_num
    · have hnext : (2 : ℚ) ^ (((w / 2 ^ 23 + 1 : ℕ) : ℤ) - 150) =
          2 * 2 ^ ((w / 2 ^ 23 : ℕ) - 150 : ℤ) := by
        rw [← zpow_one_add₀ two_ne_zero]
        congr 1
        omega
      have hpos := two_zpow_pos ((w / 2 ^ 23 : ℕ) - 150 : ℤ)
      rw [hmantissa, hnext]
      generalize (2 : ℚ) ^ ((w / 2 ^ 23 : ℕ) - 150 : ℤ) = p at hpos
      norm_num
      linarith
  · have hdiv : (w + 1) / 2 ^ 23 = w / 2 ^ 23 := by omega
    have hmod : (w + 1) % 2 ^ 23 = w % 2 ^ 23 + 1 := by omega
    rw [magnitudeAt, magnitudeAt, hdiv, hmod]
    split
    · exact mul_lt_mul_of_pos_right (by exact_mod_cast Nat.lt_succ_self _) (two_zpow_pos _)
    · refine mul_lt_mul_of_pos_right ?_ (two_zpow_pos _)
      exact_mod_cast Nat.lt_succ_self _

theorem strictMono_magnitudeAt : StrictMono magnitudeAt :=
  strictMono_nat_of_lt_succ magnitudeAt_lt_succ

/-- The place of a number with an order key. -/
def levelAt (k : ℤ) : ℚ := if 0 ≤ k then magnitudeAt k.toNat else -magnitudeAt (-k - 1).toNat

/-- Of two keys of one sign the greater one has the greater place. -/
theorem levelAt_lt {j k : ℤ} (h : j < k) (hs : 0 ≤ j ∨ k < 0) : levelAt j < levelAt k := by
  rw [levelAt, levelAt]
  rcases hs with hj | hk
  · rw [if_pos hj, if_pos (by omega)]
    exact strictMono_magnitudeAt (by omega)
  · rw [if_neg (by omega), if_neg (by omega)]
    exact neg_lt_neg (strictMono_magnitudeAt (by omega))

/-! ## Words -/

section Words

open Unpacked (HasSign signValue)

variable (b : BitVec Format.binary32.numBits)

theorem toNat_unpackMantissa :
    (@unpackMantissa Format.binary32 b).toNat = b.toNat % 2 ^ 23 := by
  simp [unpackMantissa]

theorem toNat_unpackExponent :
    (@unpackExponent Format.binary32 b).toNat = b.toNat / 2 ^ 23 % 2 ^ 8 := by
  simp only [unpackExponent, BitVec.toNat_cast, BitVec.extractLsb_toNat, Nat.shiftRight_eq_div_pow]

/-- The sign of a word. -/
def wordSign : Sign := Sign.ofBitVec (@unpackSign Format.binary32 b)

theorem wordSign_eq : wordSign b = if b.toNat < 2 ^ 31 then .positive else .negative := by
  have hlt : b.toNat < 2 ^ 32 := b.isLt
  have hbit : (@unpackSign Format.binary32 b).toNat = b.toNat / 2 ^ 31 := by
    simp only [unpackSign, BitVec.toNat_cast, BitVec.extractLsb_toNat, Nat.shiftRight_eq_div_pow]
    exact Nat.mod_eq_of_lt (by omega)
  rw [wordSign, Sign.ofBitVec]
  refine if_congr ?_ rfl rfl
  rw [← BitVec.toNat_inj, hbit, BitVec.toNat_ofNat]
  omega

/-- A word without its sign counts magnitudes. -/
theorem level_unpack (h : (unpack Format.binary32 b).isNaN = false) :
    Unpacked.level Format.binary32 (unpack Format.binary32 b) =
      signValue (wordSign b) * magnitudeAt (b.toNat % 2 ^ 31) := by
  have hexponent : b.toNat % 2 ^ 31 / 2 ^ 23 =
      (@unpackExponent Format.binary32 b).toNat := by
    rw [toNat_unpackExponent]
    omega
  have hmantissa : b.toNat % 2 ^ 31 % 2 ^ 23 =
      (@unpackMantissa Format.binary32 b).toNat := by
    rw [toNat_unpackMantissa]
    omega
  have hbias : (Format.binary32.exponentBias : ℤ) = 127 := rfl
  rw [magnitudeAt, hexponent, hmantissa]
  rw [unpack] at h ⊢
  split at h
  · rename_i hones
    split at h
    · rename_i hzero
      rw [if_pos hones, if_pos hzero, if_neg (by rw [hones]; decide), hones, hzero]
      exact congrArg (signValue (wordSign b) * ·) (by norm_num [Unpacked.bound])
    · cases h
  rename_i hones
  rw [if_neg hones]
  split at h
  · rename_i hleast
    rw [if_pos hleast, if_pos (by rw [hleast]; rfl)]
    split at h
    · rename_i hzero
      rw [dif_pos hzero, Unpacked.level_of_isFinite rfl, Unpacked.value_zero, hzero]
      simp
    · rename_i hzero
      rw [dif_neg hzero, Unpacked.level_of_isFinite rfl, Unpacked.value_finite, hleast, hbias]
      rfl
  · rename_i hleast
    have hne : (@unpackExponent Format.binary32 b).toNat ≠ 0 := fun e =>
      hleast (BitVec.eq_of_toNat_eq e)
    rw [if_neg hleast, if_neg hne,
      Unpacked.level_of_isFinite rfl, Unpacked.value_finite, Unpacked.toNat_append_one, hbias]
    rfl

theorem wordSign_of_hasSign {s : Sign} (h : (unpack Format.binary32 b).isNaN = false)
    (hs : HasSign s (unpack Format.binary32 b)) : wordSign b = s := by
  rw [unpack] at h hs
  split at h
  · rename_i hones
    split at h
    · rename_i hzero
      rwa [if_pos hones, if_pos hzero] at hs
    · cases h
  rename_i hones
  rw [if_neg hones] at hs
  split at h
  · rename_i hleast
    rw [if_pos hleast] at hs
    split at h
    · rename_i hzero
      rwa [dif_pos hzero] at hs
    · rename_i hzero
      rwa [dif_neg hzero] at hs
  · rename_i hleast
    rwa [if_neg hleast] at hs

/-- The words of numbers are at most those of the infinite ones. -/
theorem toNat_le_of_isNaN_eq_false (h : (unpack Format.binary32 b).isNaN = false) :
    b.toNat % 2 ^ 31 ≤ 0x7F800000 := by
  by_contra hlt
  have hones : @unpackExponent Format.binary32 b = -1#_ := by
    refine BitVec.eq_of_toNat_eq ((toNat_unpackExponent b).trans ?_)
    rw [show (-1#(Format.binary32.exponentBits)).toNat = 255 from rfl]
    omega
  have hzero : @unpackMantissa Format.binary32 b ≠ 0#_ := by
    intro e
    have := (toNat_unpackMantissa b).symm.trans (congrArg BitVec.toNat e)
    rw [BitVec.toNat_ofNat, Nat.zero_mod] at this
    omega
  rw [unpack] at h
  simp only [if_pos hones, if_neg hzero] at h
  cases h

end Words

/-! ## The order of the format -/

namespace Single

open Unpacked (HasSign signValue)

variable {x y : Float32}

theorem toBits_injective (h : x.toBits.toNat = y.toBits.toNat) : x = y := by
  obtain ⟨⟨bits, hx⟩⟩ := x
  obtain ⟨⟨bits', hy⟩⟩ := y
  obtain rfl : bits = bits' := UInt32.toNat_inj.1 h
  rfl

/-- Only one word is that of no number. -/
theorem toNat_toBits_of_not_isNumber (h : ¬ IsNumber x) : x.toBits.toNat = 0x7FC00000 := by
  have hvalid := x.toModel.valid.eq_packedNaN
  have h : (unpack Format.binary32 x.toBits.toBitVec).isNaN ≠ false := h
  rw [unpack] at h
  split at h
  · rename_i hones
    split at h
    · exact absurd rfl h
    · rename_i hzero
      exact congrArg BitVec.toNat (hvalid hones hzero)
  · split at h
    · split at h <;> exact absurd rfl h
    · exact absurd rfl h

/-- What is no number is one thing. -/
theorem eq_of_not_isNumber (hx : ¬ IsNumber x) (hy : ¬ IsNumber y) : x = y :=
  toBits_injective ((toNat_toBits_of_not_isNumber hx).trans
    (toNat_toBits_of_not_isNumber hy).symm)

theorem orderKey_eq (x : Float32) : orderKey x =
    if x.toBits.toNat < 2 ^ 31 then (x.toBits.toNat : ℤ) else 2 ^ 31 - 1 - x.toBits.toNat := by
  unfold orderKey
  simp only
  split_ifs <;> omega

theorem orderKey_injective (h : orderKey x = orderKey y) : x = y := by
  have hx := x.toBits.toNat_lt
  have hy := y.toBits.toNat_lt
  refine toBits_injective ?_
  rw [orderKey_eq, orderKey_eq] at h
  split_ifs at h <;> omega

theorem level_eq_levelAt (h : IsNumber x) : level x = levelAt (orderKey x) := by
  have hlt : x.toBits.toNat < 2 ^ 32 := x.toBits.toNat_lt
  have hlevel : level x = signValue (wordSign x.toBits.toBitVec) *
      magnitudeAt (x.toBits.toNat % 2 ^ 31) := level_unpack _ h
  have hsign : wordSign x.toBits.toBitVec =
      if x.toBits.toNat < 2 ^ 31 then .positive else .negative := wordSign_eq _
  rw [hlevel, hsign, orderKey_eq, levelAt]
  split
  · rw [if_pos (by omega), signValue, one_mul, Nat.mod_eq_of_lt ‹_›, Int.toNat_natCast]
  · rw [if_neg (by omega), signValue, neg_one_mul]
    congr 2
    omega

theorem orderKey_nonneg_iff {s : Sign} (h : IsNumber x) (hs : HasSign s x.toModel.unpack) :
    0 ≤ orderKey x ↔ s = .positive := by
  have hlt := x.toBits.toNat_lt
  have hsign : wordSign x.toBits.toBitVec = s := wordSign_of_hasSign _ h hs
  have hword : wordSign x.toBits.toBitVec =
      if x.toBits.toNat < 2 ^ 31 then .positive else .negative := wordSign_eq _
  rw [← hsign, hword, orderKey_eq]
  split
  · simp
  · simp
    omega

/-- **A number is known by its place and its sign.** -/
theorem eq_of_level_eq {s : Sign} (hx : IsNumber x) (hy : IsNumber y)
    (hsx : HasSign s x.toModel.unpack) (hsy : HasSign s y.toModel.unpack)
    (h : level x = level y) : x = y := by
  rw [level_eq_levelAt hx, level_eq_levelAt hy] at h
  have hsame : 0 ≤ orderKey x ↔ 0 ≤ orderKey y :=
    (orderKey_nonneg_iff hx hsx).trans (orderKey_nonneg_iff hy hsy).symm
  rcases lt_trichotomy (orderKey x) (orderKey y) with hlt | heq | hgt
  · exact absurd h (levelAt_lt hlt (by omega)).ne
  · exact orderKey_injective heq
  · exact absurd h (levelAt_lt hgt (by omega)).ne'

/-- A number other than zero is known by its place. -/
theorem eq_of_level_eq_of_ne_zero (hx : IsNumber x) (hy : IsNumber y) (h : level x = level y)
    (h0 : level x ≠ 0) : x = y := by
  obtain ⟨s, hs⟩ := Unpacked.exists_hasSign x.toModel.unpack
  obtain ⟨t, ht⟩ := Unpacked.exists_hasSign y.toModel.unpack
  have hnx := signValue_mul_level_nonneg hs
  have hny := signValue_mul_level_nonneg ht
  rw [← h] at hny
  have hst : s = t := by
    by_contra hne
    refine h0 ?_
    cases s <;> cases t <;> first
      | exact absurd rfl hne
      | (simp only [signValue] at hnx hny; linarith)
  exact eq_of_level_eq hx hy hs (hst ▸ ht) h

theorem orderKey_le_of_isNumber (h : IsNumber x) : orderKey x ≤ 0x7F800000 := by
  have hword : x.toBits.toNat % 2 ^ 31 ≤ 0x7F800000 := toNat_le_of_isNaN_eq_false _ h
  rw [orderKey_eq]
  split <;> omega

/-- A positive number that is sorted before another one is less, unless the two are one or the other
is no number. -/
theorem eq_or_lt_of_totalLE (hs : HasSign .positive x.toModel.unpack) (h : totalLE x y) :
    x = y ∨ x < y ∨ IsNumber x ∧ ¬ IsNumber y := by
  have hle : orderKey x ≤ orderKey y := of_decide_eq_true h
  by_cases hx : IsNumber x
  · by_cases hy : IsNumber y
    · rcases hle.eq_or_lt with heq | hlt
      · exact .inl (orderKey_injective heq)
      · have hnn := (orderKey_nonneg_iff hx hs).2 rfl
        rw [lt_iff_level hx hy, level_eq_levelAt hx, level_eq_levelAt hy]
        exact .inr (.inl (levelAt_lt hlt (.inl hnn)))
    · exact .inr (.inr ⟨hx, hy⟩)
  · -- nothing comes after what is no number
    refine .inl (eq_of_not_isNumber hx fun hy => ?_)
    have hword := toNat_toBits_of_not_isNumber hx
    have hbound := orderKey_le_of_isNumber hy
    rw [orderKey_eq, hword, if_pos (by norm_num)] at hle
    omega

end Single

end LayeredDrawing
