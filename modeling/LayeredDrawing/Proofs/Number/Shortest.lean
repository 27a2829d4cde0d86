import LayeredDrawing.Proofs.Json.Numbers
import Mathlib.Algebra.Order.Field.Power
import Mathlib.Data.Rat.Cast.Order
import Mathlib.Tactic.Linarith
import Mathlib.Tactic.Positivity
import Mathlib.Tactic.Ring

/-!
# Values of shortest decimals

A shortest decimal is found among the decimals that round to a number, so it is not further above
the number than half of a last place (`Decimal.value_shortest_le`).
-/

namespace LayeredDrawing.Decimal

open Float.Model (Format)

/-- The number that a decimal stands for. -/
def value (d : Decimal) : ℚ := d.significand * 10 ^ d.exponent

theorem value_normalize (d : Decimal) : d.normalize.value = d.value := by
  unfold normalize
  dsimp only
  split
  · rename_i h
    simp [value, h]
  · obtain ⟨k, hk⟩ := pow_trailingZeros_dvd d.significand
    generalize ((digits d.significand).reverse.takeWhile (· == '0')).length = zeros at hk ⊢
    have hpos : 0 < Nat.pow 10 zeros := Nat.pow_pos (by decide)
    have hdiv : d.significand / Nat.pow 10 zeros = k := by
      rw [hk, Nat.mul_div_cancel_left _ hpos]
    have hcast : (d.significand : ℚ) = 10 ^ zeros * k := by exact_mod_cast hk
    rw [value, value, hdiv, hcast, zpow_add₀ (by norm_num), zpow_natCast]
    ring

/-- A power with an exponent of either sign, with a denominator for a negative one. -/
theorem zpow_mul_pow_toNat {b : ℚ} (hb : b ≠ 0) (z : ℤ) :
    b ^ z * b ^ (-z).toNat = b ^ z.toNat := by
  rw [← zpow_natCast, ← zpow_natCast, ← zpow_add₀ hb]
  congr 1
  omega

namespace Interval

variable {i : Interval}

theorem le_of_contains {scale n : ℕ} (h : i.contains scale n) : n ≤ i.high * scale := by
  unfold contains at h
  split at h
  · simp only [Bool.and_eq_true, decide_eq_true_eq] at h
    exact h.2
  · simp only [Bool.and_eq_true, decide_eq_true_eq] at h
    exact h.2.le

/-- A decimal of a grid lies in the interval, whichever of two it is. -/
theorem contains_onGrid {tie : Tie} {exponent : ℤ} {d : Decimal}
    (h : i.onGrid tie exponent = some d) :
    d.exponent = exponent ∧ i.contains (Nat.pow 10 (-exponent).toNat)
      (d.significand * (i.unit * Nat.pow 10 exponent.toNat)) := by
  unfold onGrid at h
  dsimp only at h
  generalize hbelow : i.value * Nat.pow 10 (-exponent).toNat /
    (i.unit * Nat.pow 10 exponent.toNat) = below at h
  split at h
  · rename_i hlow hhigh
    obtain rfl := Option.some.inj h
    refine ⟨rfl, ?_⟩
    dsimp only
    split
    · exact hlow
    · exact hhigh
    · rcases Nat.mod_two_eq_zero_or_one below with hmod | hmod
      · rw [hmod]
        exact hlow
      · rw [hmod]
        exact hhigh
    · exact hhigh
  · rename_i hlow _
    obtain rfl := Option.some.inj h
    exact ⟨rfl, hlow⟩
  · rename_i _ hhigh
    obtain rfl := Option.some.inj h
    exact ⟨rfl, hhigh⟩
  · cases h

theorem value_le_of_onGrid {tie : Tie} {exponent : ℤ} {d : Decimal} (hunit : 0 < i.unit)
    (h : i.onGrid tie exponent = some d) : d.value ≤ i.high / i.unit := by
  obtain ⟨rfl, hcontains⟩ := contains_onGrid h
  have hle : (d.significand : ℚ) * (i.unit * 10 ^ d.exponent.toNat) ≤
      i.high * 10 ^ (-d.exponent).toNat := by
    exact_mod_cast le_of_contains hcontains
  have hscale : (0 : ℚ) < 10 ^ (-d.exponent).toNat := by positivity
  rw [le_div_iff₀ (by exact_mod_cast hunit), ← mul_le_mul_iff_of_pos_right hscale]
  calc d.value * i.unit * 10 ^ (-d.exponent).toNat
      = d.significand * (i.unit * (10 ^ d.exponent * 10 ^ (-d.exponent).toNat)) := by
        rw [Decimal.value]
        ring
    _ = d.significand * (i.unit * 10 ^ d.exponent.toNat) := by
        rw [zpow_mul_pow_toNat (by norm_num)]
    _ ≤ i.high * 10 ^ (-d.exponent).toNat := hle

/-- The upper end of the interval of a number is half of a last place above it. -/
theorem high_div_unit_around (format : Format) (mantissa : ℕ) (exponent : ℤ) :
    ((around format mantissa exponent).high / (around format mantissa exponent).unit : ℚ) =
      (mantissa + 1 / 2) * 2 ^ exponent := by
  have hpow := zpow_mul_pow_toNat (b := 2) two_ne_zero (exponent - 2)
  rw [neg_sub, zpow_sub₀ two_ne_zero] at hpow
  have hunit : (0 : ℚ) < 2 ^ (2 - exponent).toNat := by positivity
  unfold around
  dsimp only
  rw [div_eq_iff (by exact_mod_cast hunit.ne')]
  calc (((4 * mantissa + 2) * Nat.pow 2 (exponent - 2).toNat : ℕ) : ℚ)
      = (4 * mantissa + 2) * 2 ^ (exponent - 2).toNat := by norm_cast
    _ = (mantissa + 1 / 2) * 2 ^ exponent * 2 ^ (2 - exponent).toNat := by
        rw [← hpow]
        ring
    _ = (mantissa + 1 / 2) * 2 ^ exponent * (Nat.pow 2 (2 - exponent).toNat : ℕ) := by norm_cast

end Interval

/-- **A shortest decimal is at most half of a last place above its number.** -/
theorem value_shortest_le (tie : Tie) (format : Format) (mantissa : ℕ) (exponent : ℤ) :
    (shortest tie format mantissa exponent).value ≤ (mantissa + 1 / 2) * 2 ^ exponent := by
  unfold shortest
  dsimp only
  rw [value_normalize]
  cases hfound : (List.range 17).findSome? fun (n : ℕ) =>
      (Interval.around format mantissa exponent).onGrid tie
        ((Interval.around format mantissa exponent).magnitude - (n + 1)) with
  | none =>
    have : (0 : ℚ) < 2 ^ exponent := zpow_pos two_pos _
    rw [Option.getD_none, value, Nat.cast_zero, zero_mul]
    positivity
  | some d =>
    obtain ⟨n, -, hn⟩ := List.exists_of_findSome?_eq_some hfound
    rw [Option.getD_some, ← Interval.high_div_unit_around format]
    exact Interval.value_le_of_onGrid (Nat.pow_pos (by decide)) hn

end LayeredDrawing.Decimal
