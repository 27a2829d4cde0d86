import LayeredDrawing.Proofs.Number.Unpacked
import Mathlib

/-!
# Arithmetic of unpacked numbers is rounded correctly

Sums and products of finite numbers are computed exactly on their mantissas, and quotients with
as many places as rounding needs; the exact result is then rounded once. Operands in canonical
form have enough places for this: no exact mantissa ends above the last place of its number
(`le_targetExponent_mul`, `le_targetExponent_div`).

* `rounds_add`, `rounds_sub`, `rounds_mul`, `rounds_div`: **the operations give the number of the
  format that is nearest to the exact result.**
-/

namespace LayeredDrawing.Unpacked

open Float.Model (Format UnpackedFloat totalExponent)
open Float.Model.UnpackedFloat (Accuracy Sign accuracyOfFraction decreaseExponent divCore
  roundWithAccuracy)

variable {format : Format}

/-! ## Exact mantissas -/

section Exact

variable {m : ℕ} {e t : ℤ}

theorem decreaseExponent_eq (h : t ≤ e) :
    decreaseExponent m e t = (m * 2 ^ (e - t).toNat, t) := by
  have he : e - ((e - t).toNat : ℤ) = t := by omega
  rw [decreaseExponent, Nat.shiftLeft_eq, he]

theorem mul_pow_toNat (h : t ≤ e) :
    ((m * 2 ^ (e - t).toNat : ℕ) : ℚ) * 2 ^ t = m * 2 ^ e := by
  have he : e = (e - t).toNat + t := by omega
  conv_rhs => rw [he, two_zpow_add, zpow_natCast]
  push_cast
  ring

theorem log2_mul_two_pow (hm : m ≠ 0) (k : ℕ) : (m * 2 ^ k).log2 = m.log2 + k := by
  induction k with
  | zero => simp
  | succ k ih =>
    have hne : m * 2 ^ k ≠ 0 := mul_ne_zero hm (pow_ne_zero k two_ne_zero)
    rw [pow_succ, ← mul_assoc, mul_comm, Nat.log2_two_mul hne, ih, add_assoc]

theorem rounds_of_exact {s : Sign} (he : e ≤ format.targetExponent (totalExponent m e)) :
    Rounds format (roundWithAccuracy format s m e .exact) (signValue s * (m * 2 ^ e)) := by
  have hdiv : (m * 2 ^ e : ℚ) / 2 ^ e = m := mul_div_cancel_right₀ _ (two_zpow_pos e).ne'
  refine rounds_roundWithAccuracy ?_ ?_ ?_ he
  · exact mul_nonneg m.cast_nonneg (two_zpow_pos e).le
  · rw [hdiv, Int.floor_natCast]
  · rw [hdiv]
    exact Int.fract_natCast m

variable (format) in
/-- An exact number is rounded once its mantissa has been shifted to its last place. -/
theorem rounds_round {s : Sign} (hm : m ≠ 0) :
    Rounds format (UnpackedFloat.round format s m e) (signValue s * (m * 2 ^ e)) := by
  obtain ⟨t, ht⟩ : ∃ t, format.targetExponent (totalExponent m e) = t := ⟨_, rfl⟩
  rcases le_total e t with h | h
  · have hshift : decreaseExponent m e t = (m, e) := by
      have he : (e - t).toNat = 0 := by omega
      rw [decreaseExponent, he]
      simp
    rw [UnpackedFloat.round, ht]
    simp only [hshift]
    exact rounds_of_exact (ht ▸ h)
  · rw [UnpackedFloat.round, ht]
    simp only [decreaseExponent_eq h]
    have htotal : totalExponent (m * 2 ^ (e - t).toNat) t = totalExponent m e := by
      rw [totalExponent, totalExponent, log2_mul_two_pow hm]
      push_cast
      omega
    rw [← mul_pow_toNat h]
    exact rounds_of_exact (by rw [htotal, ht])

end Exact

variable (format) in
/-- An integer number of units in some place, rounded. -/
theorem rounds_normalize (n e : ℤ) (s : Sign) :
    Rounds format (UnpackedFloat.normalize format n e s) (n * 2 ^ e) := by
  rcases lt_trichotomy n 0 with h | rfl | h
  · have hn : UnpackedFloat.normalize format n e s =
        UnpackedFloat.round format .negative (-n).toNat e := by
      rw [UnpackedFloat.normalize, compare_lt_iff_lt.2 h]
    have hcast : (((-n).toNat : ℕ) : ℚ) = -n := by
      have : (((-n).toNat : ℕ) : ℤ) = -n := Int.toNat_of_nonneg (by omega)
      exact_mod_cast this
    have hr := rounds_round format (s := .negative) (e := e)
      (show (-n).toNat ≠ 0 by omega)
    rw [hcast] at hr
    rw [hn]
    simpa [signValue] using hr
  · refine ⟨rfl, trivial, ?_⟩
    rw [Int.cast_zero, zero_mul, rounded_zero]
    rfl
  · have hn : UnpackedFloat.normalize format n e s =
        UnpackedFloat.round format .positive n.toNat e := by
      rw [UnpackedFloat.normalize, compare_gt_iff_gt.2 h]
    have hcast : ((n.toNat : ℕ) : ℚ) = n := by
      have : ((n.toNat : ℕ) : ℤ) = n := Int.toNat_of_nonneg (by omega)
      exact_mod_cast this
    have hr := rounds_round format (s := .positive) (e := e)
      (show n.toNat ≠ 0 by omega)
    rw [hcast] at hr
    rw [hn]
    simpa [signValue] using hr

/-! ## Operands in canonical form -/

section Operations

variable {x y : UnpackedFloat}

/-- A number in canonical form is one of the format. -/
theorem rounded_value (h : Canonical format x) : rounded format (value x) = value x := by
  cases x with
  | finite s m e hm =>
    have hc : IsCanonical format m e := h
    have hint : (m : ℚ) * 2 ^ e = ((m : ℤ) : ℚ) * 2 ^ e := by rw [Int.cast_natCast]
    rw [value, rounded_signValue_mul, hint, rounded_of_lt format _ hc.minExponent_le]
    rw [Nat.abs_cast]
    exact_mod_cast hc.lt
  | infinity s => exact rounded_zero
  | notANumber => exact rounded_zero
  | zero s => exact rounded_zero

theorem rounds_self (hf : x.isFinite = true) (h : Canonical format x) :
    Rounds format x (value x) :=
  ⟨hf, h, (rounded_value h).symm⟩

theorem rounds_zero (s : Sign) : Rounds format (.zero s) 0 :=
  ⟨rfl, trivial, rounded_zero.symm⟩

theorem rounds_neg (hf : x.isFinite = true) (h : Canonical format x) :
    Rounds format x.neg (-value x) := by
  rcases exists_of_isFinite hf with ⟨s, rfl⟩ | ⟨s, m, e, hm, rfl⟩
  · rw [value_zero, neg_zero]
    exact rounds_zero (-s)
  · refine ⟨rfl, h, ?_⟩
    rw [rounded_neg, rounded_value h]
    show signValue (-s) * _ = _
    rw [signValue_neg, neg_mul]
    rfl

theorem cast_apply_mul_pow {s : Sign} {m : ℕ} {e t : ℤ} (h : t ≤ e) :
    (s.apply (m * 2 ^ (e - t).toNat : ℕ) : ℚ) * 2 ^ t = signValue s * (m * 2 ^ e) := by
  rw [cast_apply, Int.cast_natCast, mul_assoc, mul_pow_toNat h]

variable (hx : x.isFinite = true) (hy : y.isFinite = true) (cx : Canonical format x)
  (cy : Canonical format y)

include hx hy cx cy

theorem rounds_add : Rounds format (.add format x y) (value x + value y) := by
  rcases exists_of_isFinite hx with ⟨s, rfl⟩ | ⟨s, m, e, hm, rfl⟩
  · rw [value_zero, zero_add]
    rcases exists_of_isFinite hy with ⟨t, rfl⟩ | ⟨t, n, f, hn, rfl⟩
    · rw [value_zero, UnpackedFloat.add]
      split
      · exact rounds_zero s
      · exact rounds_zero .positive
    · exact rounds_self hy cy
  rcases exists_of_isFinite hy with ⟨t, rfl⟩ | ⟨t, n, f, hn, rfl⟩
  · rw [value_zero, add_zero]
    exact rounds_self hx cx
  have hsum : value (.finite s m e hm) + value (.finite t n f hn) =
      ((s.apply (m * 2 ^ (e - min e f).toNat : ℕ) +
        t.apply (n * 2 ^ (f - min e f).toNat : ℕ) : ℤ) : ℚ) * 2 ^ min e f := by
    rw [Int.cast_add, add_mul, cast_apply_mul_pow (min_le_left e f),
      cast_apply_mul_pow (min_le_right e f)]
    rfl
  rw [UnpackedFloat.add, decreaseExponent_eq (min_le_left e f),
    decreaseExponent_eq (min_le_right e f), hsum]
  exact rounds_normalize _ _ _ _

theorem rounds_sub : Rounds format (.sub format x y) (value x - value y) := by
  rcases exists_of_isFinite hx with ⟨s, rfl⟩ | ⟨s, m, e, hm, rfl⟩
  · rw [value_zero, zero_sub]
    rcases exists_of_isFinite hy with ⟨t, rfl⟩ | ⟨t, n, f, hn, rfl⟩
    · rw [value_zero, neg_zero, UnpackedFloat.sub]
      split
      · exact rounds_zero s
      · exact rounds_zero .positive
    · exact rounds_neg hy cy
  rcases exists_of_isFinite hy with ⟨t, rfl⟩ | ⟨t, n, f, hn, rfl⟩
  · rw [value_zero, sub_zero]
    exact rounds_self hx cx
  have hdiff : value (.finite s m e hm) - value (.finite t n f hn) =
      ((s.apply (m * 2 ^ (e - min e f).toNat : ℕ) -
        t.apply (n * 2 ^ (f - min e f).toNat : ℕ) : ℤ) : ℚ) * 2 ^ min e f := by
    rw [Int.cast_sub, sub_mul, cast_apply_mul_pow (min_le_left e f),
      cast_apply_mul_pow (min_le_right e f)]
    rfl
  rw [UnpackedFloat.sub, decreaseExponent_eq (min_le_left e f),
    decreaseExponent_eq (min_le_right e f), hdiff]
  exact rounds_normalize _ _ _ _

omit hx hy cx cy

/-- The product of two mantissas does not end above the last place of the product. -/
theorem le_targetExponent_mul {m n : ℕ} {e f : ℤ} (hm : m ≠ 0) (hn : n ≠ 0)
    (cm : IsCanonical format m e) (cn : IsCanonical format n f) :
    e + f ≤ format.targetExponent (totalExponent (m * n) (e + f)) := by
  have hp := two_le_mantissaBits format
  have hlog : m.log2 + n.log2 ≤ (m * n).log2 := by
    rw [Nat.le_log2 (mul_ne_zero hm hn), pow_add]
    exact Nat.mul_le_mul (Nat.log2_self_le hm) (Nat.log2_self_le hn)
  rw [Format.targetExponent, totalExponent]
  rcases cm.full with h | he
  · have := (Nat.le_log2 hm).2 h
    omega
  rcases cn.full with h | hf
  · have := (Nat.le_log2 hn).2 h
    omega
  have hmin : format.minExponent ≤ 0 := by
    have hpow : (0 : ℤ) < 2 ^ (format.exponentBits - 1) := by positivity
    rw [Format.minExponent]
    omega
  omega

include hx hy cx cy

theorem rounds_mul : Rounds format (.mul format x y) (value x * value y) := by
  rcases exists_of_isFinite hx with ⟨s, rfl⟩ | ⟨s, m, e, hm, rfl⟩
  · rw [value_zero, zero_mul]
    rcases exists_of_isFinite hy with ⟨t, rfl⟩ | ⟨t, n, f, hn, rfl⟩
    · exact rounds_zero (s * t)
    · exact rounds_zero (s * t)
  rcases exists_of_isFinite hy with ⟨t, rfl⟩ | ⟨t, n, f, hn, rfl⟩
  · rw [value_zero, mul_zero]
    exact rounds_zero (s * t)
  have hprod : value (.finite s m e hm) * value (.finite t n f hn) =
      signValue (s * t) * (((m * n : ℕ) : ℚ) * 2 ^ (e + f)) := by
    rw [value_finite, value_finite, signValue_mul, two_zpow_add]
    push_cast
    ring
  rw [hprod]
  exact rounds_of_exact (le_targetExponent_mul hm.ne' hn.ne' cx cy)

omit hx hy cx cy

/-- The places of a quotient that are computed do not end above its last one. -/
theorem le_targetExponent_div {m n : ℕ} {e f t : ℤ} (hm : m ≠ 0) (hn : n ≠ 0) (he : t ≤ e - f)
    (ht : t ≤ format.targetExponent (totalExponent m e - totalExponent n f)) :
    t ≤ format.targetExponent (totalExponent (m * 2 ^ (e - f - t).toNat / n) t) := by
  have hp := two_le_mantissaBits format
  rw [Format.targetExponent, totalExponent, totalExponent] at ht
  rcases le_or_gt t format.minExponent with h | h
  · exact h.trans (le_max_right _ _)
  have hle : 2 ^ (format.mantissaBits - 1) ≤ m * 2 ^ (e - f - t).toNat / n := by
    rw [Nat.le_div_iff_mul_le (Nat.pos_of_ne_zero hn)]
    calc 2 ^ (format.mantissaBits - 1) * n
        ≤ 2 ^ (format.mantissaBits - 1) * 2 ^ (n.log2 + 1) :=
          Nat.mul_le_mul_left _ Nat.lt_log2_self.le
      _ = 2 ^ (format.mantissaBits - 1 + (n.log2 + 1)) := (pow_add ..).symm
      _ ≤ 2 ^ (m.log2 + (e - f - t).toNat) := Nat.pow_le_pow_right two_pos (by omega)
      _ = 2 ^ m.log2 * 2 ^ (e - f - t).toNat := pow_add ..
      _ ≤ m * 2 ^ (e - f - t).toNat := Nat.mul_le_mul_right _ (Nat.log2_self_le hm)
  have hne : m * 2 ^ (e - f - t).toNat / n ≠ 0 := by
    have := Nat.two_pow_pos (format.mantissaBits - 1)
    omega
  have hlog := (Nat.le_log2 hne).2 hle
  rw [Format.targetExponent, totalExponent]
  omega

theorem describes_accuracyOfFraction {m n : ℕ} (hn : n ≠ 0) :
    Describes (accuracyOfFraction m n) (m / n) := by
  have hn' : (0 : ℚ) < n := by exact_mod_cast Nat.pos_of_ne_zero hn
  rw [accuracyOfFraction]
  split
  · rename_i hm
    show (m : ℚ) / n = 0
    rw [hm, Nat.cast_zero, zero_div]
  rename_i hm
  have hm' : (0 : ℚ) < m := by exact_mod_cast Nat.pos_of_ne_zero hm
  rcases lt_trichotomy (2 * m) n with h | h | h
  · have h' : 2 * (m : ℚ) < n := by exact_mod_cast h
    rw [compare_lt_iff_lt.2 h]
    refine ⟨div_pos hm' hn', ?_⟩
    rw [div_lt_iff₀ hn']
    linarith
  · have h' : 2 * (m : ℚ) = n := by exact_mod_cast h
    rw [compare_eq_iff_eq.2 h]
    show (m : ℚ) / n = 1 / 2
    rw [div_eq_iff hn'.ne']
    linarith
  · have h' : (n : ℚ) < 2 * m := by exact_mod_cast h
    rw [compare_gt_iff_gt.2 h]
    show 1 / 2 < (m : ℚ) / n
    rw [lt_div_iff₀ hn']
    linarith

include hx hy

theorem rounds_div (h0 : value y ≠ 0) : Rounds format (.div format x y) (value x / value y) := by
  rcases exists_of_isFinite hy with ⟨t, rfl⟩ | ⟨t, n, f, hn, rfl⟩
  · exact absurd (value_zero t) h0
  rcases exists_of_isFinite hx with ⟨s, rfl⟩ | ⟨s, m, e, hm, rfl⟩
  · rw [value_zero, zero_div]
    exact rounds_zero (s / t)
  obtain ⟨k, hk⟩ : ∃ k, min (e - f)
      (format.targetExponent (totalExponent m e - totalExponent n f)) = k := ⟨_, rfl⟩
  have hke : k ≤ e - f := hk ▸ min_le_left _ _
  have hkt : k ≤ format.targetExponent (totalExponent m e - totalExponent n f) :=
    hk ▸ min_le_right _ _
  have hdiv : UnpackedFloat.div format (.finite s m e hm) (.finite t n f hn) =
      roundWithAccuracy format (s / t) (m * 2 ^ (e - f - k).toNat / n) k
        (accuracyOfFraction (m * 2 ^ (e - f - k).toNat % n) n) := by
    rw [UnpackedFloat.div, divCore]
    simp only [hk, Nat.shiftLeft_eq]
  have hquot : (m * 2 ^ e : ℚ) / (n * 2 ^ f) / 2 ^ k =
      (m * 2 ^ (e - f - k).toNat : ℕ) / (n : ℕ) := by
    have hpow : (2 : ℚ) ^ e = 2 ^ (e - f - k).toNat * 2 ^ f * 2 ^ k := by
      rw [← zpow_natCast, ← two_zpow_add, ← two_zpow_add]
      congr 1
      omega
    have hf := (two_zpow_pos f).ne'
    have hk := (two_zpow_pos k).ne'
    rw [hpow]
    push_cast
    field_simp
  have hvalue : value (.finite s m e hm) / value (.finite t n f hn) =
      signValue (s / t) * ((m * 2 ^ e : ℚ) / (n * 2 ^ f)) := by
    rw [value_finite, value_finite, signValue_div, mul_div_mul_comm]
  rw [hdiv, hvalue]
  refine rounds_roundWithAccuracy ?_ ?_ ?_ (le_targetExponent_div hm.ne' hn.ne' hke hkt)
  · have := two_zpow_pos e
    have := two_zpow_pos f
    positivity
  · rw [hquot, Rat.floor_natCast_div_natCast, Int.natCast_div]
  · rw [hquot, Int.fract_div_natCast_eq_div_natCast_mod]
    exact describes_accuracyOfFraction hn.ne'

omit hy

theorem rounds_div_infinity (s : Sign) : Rounds format (.div format x (.infinity s)) 0 := by
  rcases exists_of_isFinite hx with ⟨t, rfl⟩ | ⟨t, m, e, hm, rfl⟩
  · exact rounds_zero (t / s)
  · exact rounds_zero (t / s)

end Operations

/-! ## Decimals -/

variable (format) in
/-- An integer with zeros behind it is read as a product, the first factor of which has spare
places. -/
theorem rounds_ofScientific {n k : ℕ} (hn : n ≠ 0) (hk : k ≤ 2 ^ format.exponentBits) :
    Rounds format (UnpackedFloat.ofScientific format n k) (n * 10 ^ k) := by
  have hread : UnpackedFloat.ofScientific format n k = roundWithAccuracy format .positive
      (n * 2 ^ format.mantissaBits * 10 ^ k) (-format.mantissaBits) .exact := by
    have h₁ : ¬ (k : ℤ) > 2 ^ format.exponentBits := not_lt.2 (by exact_mod_cast hk)
    have h₂ : ¬ (k : ℤ) < -(2 ^ format.exponentBits + n.log2) :=
      not_lt.2 ((neg_nonpos.2 (by positivity)).trans k.cast_nonneg)
    rw [UnpackedFloat.ofScientific, dif_neg hn, if_neg h₁, if_neg h₂, if_pos k.cast_nonneg,
      UnpackedFloat.mul, Int.toNat_natCast, Nat.shiftLeft_eq, add_zero]
    rfl
  have hle : -(format.mantissaBits : ℤ) ≤ format.targetExponent
      (totalExponent (n * 2 ^ format.mantissaBits * 10 ^ k) (-format.mantissaBits)) := by
    have hne : n * 2 ^ format.mantissaBits * 10 ^ k ≠ 0 := by positivity
    have hlog : format.mantissaBits ≤ (n * 2 ^ format.mantissaBits * 10 ^ k).log2 := by
      rw [Nat.le_log2 hne]
      calc 2 ^ format.mantissaBits ≤ n * 2 ^ format.mantissaBits :=
            Nat.le_mul_of_pos_left _ (Nat.pos_of_ne_zero hn)
        _ ≤ n * 2 ^ format.mantissaBits * 10 ^ k :=
            Nat.le_mul_of_pos_right _ (Nat.pow_pos (by norm_num))
    rw [Format.targetExponent, totalExponent]
    omega
  have hvalue : signValue .positive * (((n * 2 ^ format.mantissaBits * 10 ^ k : ℕ) : ℚ) *
      2 ^ (-format.mantissaBits : ℤ)) = n * 10 ^ k := by
    have hpow : (2 : ℚ) ^ format.mantissaBits * 2 ^ (-format.mantissaBits : ℤ) = 1 := by
      rw [← zpow_natCast, ← two_zpow_add, add_neg_cancel, zpow_zero]
    calc signValue .positive * (((n * 2 ^ format.mantissaBits * 10 ^ k : ℕ) : ℚ) *
          2 ^ (-format.mantissaBits : ℤ))
        = n * 10 ^ k * (2 ^ format.mantissaBits * 2 ^ (-format.mantissaBits : ℤ)) := by
          rw [signValue]
          push_cast
          ring
      _ = n * 10 ^ k := by rw [hpow, mul_one]
  rw [hread, ← hvalue]
  exact rounds_of_exact hle

end LayeredDrawing.Unpacked
