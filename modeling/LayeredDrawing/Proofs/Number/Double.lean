import LayeredDrawing.Json.Number
import LayeredDrawing.Proofs.Number.Packing

/-!
# Values of double-precision numbers

The numbers of an untyped document are double-precision numbers. One that is read from a text is
at first a product of an integer of 64 bits and a power of ten, both of them rounded
(`isNearest_ofNat`, `isNearest_power`). The product is finite if the exact one leaves room for
these two roundings below the greatest number of the format (`isFinite_mul_power`).
-/

namespace LayeredDrawing.Double

open Float.Model (Format UnpackedFloat)
open Json (Gathered)
open Unpacked (Canonical Rounds bound)

/-! ## Values -/

/-- The value of a finite number. -/
def value (x : Float) : ℚ := Unpacked.value x.toModel.unpack

/-- The double-precision value nearest to a number, if there were no greatest one. -/
abbrev round64 (q : ℚ) : ℚ := rounded Format.binary64 q

/-- The greatest number of the format. -/
def greatest : ℚ := (2 ^ 53 - 1) * 2 ^ 971

/-- A finite number that is nearest to a given one. -/
structure IsNearest (x : Float) (q : ℚ) : Prop where
  isFinite : x.isFinite = true
  value_eq : value x = round64 q

theorem isInf_eq_false {x : Float} (h : x.isFinite = true) : x.isInf = false := by
  have hx : x.toModel.unpack.isFinite = true := h
  show x.toModel.unpack.isInf = false
  cases hu : x.toModel.unpack <;> simp_all [UnpackedFloat.isFinite, UnpackedFloat.isInf]

theorem canonical (x : Float) : Canonical Format.binary64 x.toModel.unpack :=
  Unpacked.canonical_unpack _

theorem bound_binary64 : bound Format.binary64 = 2 ^ 1024 := rfl

theorem greatest_lt : greatest < 2 ^ 1024 := by
  have h : (2 : ℚ) ^ 1024 = 2 ^ 53 * 2 ^ 971 := by rw [← pow_add]
  rw [greatest, h]
  exact mul_lt_mul_of_pos_right (by norm_num) (by positivity)

theorem natCast_le_greatest {n : ℕ} (h : n ≤ 10 ^ 308) : (n : ℚ) ≤ greatest := by
  have hle : n ≤ (2 ^ 53 - 1) * 2 ^ 971 := h.trans (by decide +kernel)
  have hgreatest : greatest = (((2 ^ 53 - 1) * 2 ^ 971 : ℕ) : ℚ) := by
    rw [greatest, Nat.cast_mul, Nat.cast_pow]
    norm_num
  rw [hgreatest]
  exact_mod_cast hle

theorem round64_greatest : round64 greatest = greatest := by
  have h := rounded_of_lt Format.binary64 (n := 2 ^ 53 - 1) (e := 971) (by decide) (by decide)
  norm_num [greatest] at h ⊢
  exact h

theorem abs_round64_le {q : ℚ} (h : |q| ≤ greatest) : |round64 q| ≤ greatest :=
  abs_rounded_le round64_greatest h

/-- The result of an operation is finite if the exact one is in the range of the format. -/
theorem isNearest_of_rounds {u : UnpackedFloat} {q : ℚ} (h : Rounds Format.binary64 u q)
    (hq : |q| ≤ greatest) : IsNearest (.ofModel (.pack u)) q := by
  have hlt : |Unpacked.value u| < bound Format.binary64 := by
    rw [h.value_eq, bound_binary64]
    exact (abs_round64_le hq).trans_lt greatest_lt
  have hu : (Float.ofModel (.pack u)).toModel.unpack = u :=
    Unpacked.unpack_pack (by decide) h.canonical hlt
  refine ⟨?_, ?_⟩
  · show (Float.ofModel (.pack u)).toModel.unpack.isFinite = true
    rw [hu, h.isFinite]
  · rw [value, hu, h.value_eq]

theorem isNearest_mul {x y : Float} (hx : x.isFinite = true) (hy : y.isFinite = true)
    (h : |value x * value y| ≤ greatest) : IsNearest (x * y) (value x * value y) :=
  isNearest_of_rounds (Unpacked.rounds_mul hx hy (canonical x) (canonical y)) h

/-! ## Integers and powers of ten -/

theorem value_one : value (Float.ofBits 4607182418800017408) = 1 := by
  have h : (Float.ofBits 4607182418800017408).toModel.unpack =
      .finite .positive (2 ^ 52) (-52) (by decide) := by
    rfl
  rw [value, h, Unpacked.value_finite]
  norm_num [Unpacked.signValue]

theorem abs_natCast_le_greatest {n : ℕ} (h : n < Gathered.limit) : |(n : ℚ)| ≤ greatest := by
  rw [Nat.abs_cast]
  exact natCast_le_greatest (h.le.trans (by decide +kernel))

/-- An integer with at most 53 bits is kept. -/
theorem round64_natCast {n : ℕ} (h : n < 2 ^ 53) : round64 n = n := by
  have := rounded_of_lt Format.binary64 (n := n) (e := 0)
    (by rw [Nat.abs_cast]; exact_mod_cast h) (by decide)
  simpa using this

/-- The number of a machine word. -/
theorem isNearest_toFloat (n : UInt64) : IsNearest n.toFloat n.toNat := by
  have h := Unpacked.rounds_normalize Format.binary64 n.toNat 0 .positive
  simp only [zpow_zero, mul_one, Int.cast_natCast] at h
  exact isNearest_of_rounds h (abs_natCast_le_greatest n.toNat_lt)

theorem isNearest_ofNat {n : ℕ} (hn : n < Gathered.limit) : IsNearest (Float.ofNat n) n := by
  have hle := abs_natCast_le_greatest hn
  show IsNearest (Float.ofScientific n false 0) n
  rw [Float.ofScientific]
  split
  · rename_i h
    have hround : round64 n = n := round64_natCast h.1
    have hword : IsNearest n.toUInt64.toFloat n := by
      have hmod : n.toUInt64.toNat = n := by
        rw [UInt64.toNat_ofNat']
        exact Nat.mod_eq_of_lt hn
      have := isNearest_toFloat n.toUInt64
      rwa [hmod] at this
    have hone : (Float.ofBits 4607182418800017408).isFinite = true := by decide
    have hprod : value n.toUInt64.toFloat * value (Float.ofBits 4607182418800017408) = n := by
      rw [value_one, mul_one, hword.value_eq, hround]
    have := isNearest_mul hword.isFinite hone (by rwa [hprod])
    rw [hprod] at this
    exact this
  · rename_i h
    have hne : n ≠ 0 := by
      rintro rfl
      exact h (by norm_num)
    have h := Unpacked.rounds_ofScientific Format.binary64 hne (Nat.zero_le _)
    rw [pow_zero, mul_one] at h
    exact isNearest_of_rounds h hle

theorem isNearest_power {k : ℕ} (hk : k ≤ 308) : IsNearest (Gathered.power k) (10 ^ k) := by
  have hexp : boundedExponent 1 k = k := by
    rw [boundedExponent, min_eq_left (by omega), max_eq_right (by omega)]
  have h := Unpacked.rounds_ofScientific Format.binary64 one_ne_zero
    (k := k) (hk.trans (by decide))
  rw [Nat.cast_one, one_mul] at h
  have hle : |(10 : ℚ) ^ k| ≤ greatest := by
    have hpow : 10 ^ k ≤ 10 ^ 308 := pow_le_pow_right₀ (by norm_num) hk
    rw [abs_of_pos (by positivity)]
    exact_mod_cast natCast_le_greatest hpow
  have := isNearest_of_rounds h hle
  rw [← hexp] at this
  exact this

/-! ## Products -/

/-- A positive integer grows by no more than half a last place. -/
theorem round64_le_mul {q : ℚ} (h : 1 ≤ q) : round64 q ≤ q * (1 + 2 ^ (-53 : ℤ)) :=
  rounded_le_mul Format.binary64 (le_trans (by
    rw [show (1 : ℚ) = 2 ^ (0 : ℤ) from (zpow_zero 2).symm]
    exact two_zpow_mono (by decide)) h)

/-- **A product with a power of ten is finite** if the exact one leaves room for two roundings
below the greatest number. -/
theorem isFinite_mul_power {n k : ℕ} (hn : n < Gathered.limit) (hk : k ≤ 308)
    (h : (n : ℚ) * 10 ^ k ≤ (2 ^ 53 - 3 - 1 / 2) * 2 ^ 971) :
    (Float.ofNat n * Gathered.power k).isFinite = true := by
  have hx := isNearest_ofNat hn
  have hy := isNearest_power hk
  refine (isNearest_mul hx.isFinite hy.isFinite ?_).isFinite
  rw [hx.value_eq, hy.value_eq, abs_of_nonneg (mul_nonneg (rounded_nonneg _ n.cast_nonneg)
    (rounded_nonneg _ (by positivity)))]
  rcases Nat.eq_zero_or_pos n with rfl | hpos
  · rw [Nat.cast_zero, rounded_zero, zero_mul]
    norm_num [greatest]
  have hn1 : (1 : ℚ) ≤ n := by exact_mod_cast hpos
  calc round64 n * round64 (10 ^ k)
      ≤ (n * (1 + 2 ^ (-53 : ℤ))) * (10 ^ k * (1 + 2 ^ (-53 : ℤ))) :=
        mul_le_mul (round64_le_mul hn1) (round64_le_mul (one_le_pow₀ (by norm_num)))
          (rounded_nonneg _ (by positivity)) (by positivity)
    _ = n * 10 ^ k * (1 + 2 ^ (-53 : ℤ)) ^ 2 := by ring
    _ ≤ (2 ^ 53 - 3 - 1 / 2) * 2 ^ 971 * (1 + 2 ^ (-53 : ℤ)) ^ 2 :=
        mul_le_mul_of_nonneg_right h (by positivity)
    _ = (2 ^ 53 - 3 - 1 / 2) * (1 + 2 ^ (-53 : ℤ)) ^ 2 * 2 ^ 971 := mul_right_comm _ _ _
    _ ≤ greatest := mul_le_mul_of_nonneg_right (by norm_num) (by positivity)

end LayeredDrawing.Double
