import Mathlib.Algebra.Order.Floor.Ring
import Mathlib.Data.Int.Log
import Mathlib.Data.Rat.Floor
import Mathlib.Tactic.Linarith
import Mathlib.Tactic.NormNum
import Mathlib.Tactic.Ring

/-!
# Rounding to a binary format

A number is rounded in two steps. The magnitude of the number fixes the weight of the last place
of its mantissa (`lastPlace`), and the multiple of this weight that is nearest to the number is
the rounded one, an even multiple if two are equally near (`roundEven`, `rounded`). Rounding is
odd and monotone, and keeps the numbers of the format; a power of two even absorbs a sum that goes
beyond it by no more than half a last place (`abs_rounded_le_two_zpow`).
-/

namespace LayeredDrawing

open Float.Model (Format)

/-! ## The nearest integer -/

/-- The integer nearest to a number; the even one if two are equally near. -/
def roundEven (q : ℚ) : ℤ :=
  if Int.fract q < 1 / 2 then ⌊q⌋
  else if 1 / 2 < Int.fract q then ⌊q⌋ + 1
  else ⌊q⌋ + ⌊q⌋ % 2

section RoundEven

variable {q r : ℚ} {n : ℤ}

theorem roundEven_of_lt (h : Int.fract q < 1 / 2) : roundEven q = ⌊q⌋ := if_pos h

theorem roundEven_of_gt (h : 1 / 2 < Int.fract q) : roundEven q = ⌊q⌋ + 1 := by
  rw [roundEven, if_neg h.not_gt, if_pos h]

theorem roundEven_of_eq (h : Int.fract q = 1 / 2) : roundEven q = ⌊q⌋ + ⌊q⌋ % 2 := by
  rw [roundEven, if_neg h.not_lt, if_neg h.not_gt]

theorem floor_le_roundEven (q : ℚ) : ⌊q⌋ ≤ roundEven q := by
  rw [roundEven]
  split_ifs <;> omega

theorem roundEven_le_floor_add_one (q : ℚ) : roundEven q ≤ ⌊q⌋ + 1 := by
  rw [roundEven]
  split_ifs <;> omega

@[simp] theorem roundEven_intCast (n : ℤ) : roundEven n = n := by
  rw [roundEven_of_lt (by simp), Int.floor_intCast]

@[simp] theorem roundEven_zero : roundEven 0 = 0 := by
  simpa using roundEven_intCast 0

theorem roundEven_le (h : q ≤ n) : roundEven q ≤ n := by
  rcases h.lt_or_eq with h | rfl
  · have := Int.floor_lt.2 h
    have := roundEven_le_floor_add_one q
    omega
  · rw [roundEven_intCast]

theorem le_roundEven (h : n ≤ q) : n ≤ roundEven q :=
  (Int.le_floor.2 h).trans (floor_le_roundEven q)

theorem roundEven_mono (h : q ≤ r) : roundEven q ≤ roundEven r := by
  have hq := roundEven_le_floor_add_one q
  have hr := floor_le_roundEven r
  rcases (Int.floor_mono h).lt_or_eq with hlt | heq
  · omega
  have hfract : Int.fract q ≤ Int.fract r := by
    rw [Int.fract, Int.fract, heq]
    linarith
  -- With one floor for both, only the side of the middle counts.
  rcases lt_trichotomy (Int.fract q) (1 / 2) with h | h | h
  · rw [roundEven_of_lt h]
    omega
  · rcases hfract.lt_or_eq with h' | h'
    · rw [roundEven_of_gt (h.symm.trans_lt h')]
      omega
    · rw [roundEven_of_eq h, roundEven_of_eq (h' ▸ h), heq]
  · rw [roundEven_of_gt (h.trans_le hfract)]
    omega

theorem roundEven_le_add_half (q : ℚ) : (roundEven q : ℚ) ≤ q + 1 / 2 := by
  have hq : (⌊q⌋ : ℚ) + Int.fract q = q := Int.floor_add_fract q
  rcases lt_trichotomy (Int.fract q) (1 / 2) with h | h | h
  · rw [roundEven_of_lt h]
    linarith [Int.fract_nonneg q]
  · have hle : roundEven q ≤ ⌊q⌋ + 1 := roundEven_le_floor_add_one q
    have hle' : (roundEven q : ℚ) ≤ ⌊q⌋ + 1 := by exact_mod_cast hle
    linarith
  · rw [roundEven_of_gt h]
    push_cast
    linarith

theorem roundEven_neg (q : ℚ) : roundEven (-q) = -roundEven q := by
  by_cases hq : Int.fract q = 0
  · obtain ⟨n, rfl⟩ : ∃ n : ℤ, (n : ℚ) = q := ⟨⌊q⌋, by linarith [Int.self_sub_floor q]⟩
    rw [← Int.cast_neg, roundEven_intCast, roundEven_intCast]
  have hfract : Int.fract (-q) = 1 - Int.fract q := Int.fract_neg hq
  have hfloor : ⌊-q⌋ = -⌊q⌋ - 1 := by
    have h : ((⌊-q⌋ : ℤ) : ℚ) = ((-⌊q⌋ - 1 : ℤ) : ℚ) := by
      push_cast
      linarith [Int.self_sub_floor q, Int.self_sub_floor (-q)]
    exact_mod_cast h
  rcases lt_trichotomy (Int.fract q) (1 / 2) with h | h | h
  · rw [roundEven_of_lt h, roundEven_of_gt (by linarith), hfloor]
    omega
  · rw [roundEven_of_eq h, roundEven_of_eq (by linarith), hfloor]
    omega
  · rw [roundEven_of_gt h, roundEven_of_lt (by linarith), hfloor]
    omega

theorem roundEven_add_half (n : ℤ) : roundEven (n + 1 / 2) = n + n % 2 := by
  have hfloor : ⌊(n : ℚ) + 1 / 2⌋ = n := Int.floor_eq_iff.2 (by norm_num)
  have hfract : Int.fract ((n : ℚ) + 1 / 2) = 1 / 2 := by
    rw [Int.fract, hfloor]
    ring
  rw [roundEven_of_eq hfract, hfloor]

end RoundEven

/-! ## Formats -/

section Formats

variable (format : Format)

theorem two_le_mantissaBits : 2 ≤ format.mantissaBits := by
  have := format.hm
  have hbits : format.mantissaBits = 1 + format.mantissaBitsWithoutImplicit := rfl
  omega

/-- The exponent of the last place of the mantissa of a number. -/
def lastPlace (q : ℚ) : ℤ := format.targetExponent (Int.log 2 |q| + 1)

/-- The number of a format that is nearest to a number, if numbers have no greatest exponent. -/
def rounded (q : ℚ) : ℚ := roundEven (q / 2 ^ lastPlace format q) * 2 ^ lastPlace format q

theorem lastPlace_eq (q : ℚ) :
    lastPlace format q = max (Int.log 2 |q| + 1 - format.mantissaBits) format.minExponent := rfl

theorem minExponent_le_lastPlace (q : ℚ) : format.minExponent ≤ lastPlace format q :=
  le_max_right _ _

theorem two_zpow_pos (n : ℤ) : (0 : ℚ) < 2 ^ n := zpow_pos two_pos n

theorem two_zpow_mono {m n : ℤ} (h : m ≤ n) : (2 : ℚ) ^ m ≤ 2 ^ n :=
  zpow_le_zpow_right₀ one_le_two h

theorem two_zpow_add (m n : ℤ) : (2 : ℚ) ^ (m + n) = 2 ^ m * 2 ^ n :=
  zpow_add₀ two_ne_zero m n

/-- A number has no more places than its format. -/
theorem abs_lt_two_zpow (q : ℚ) : |q| < 2 ^ (format.mantissaBits + lastPlace format q) := by
  have h : |q| < 2 ^ (Int.log 2 |q| + 1) := Int.lt_zpow_succ_log_self one_lt_two |q|
  refine h.trans_le (two_zpow_mono ?_)
  rw [lastPlace_eq]
  omega

variable {format} {q r : ℚ} {n e : ℤ}

theorem lastPlace_mono (hq : q ≠ 0) (h : |q| ≤ |r|) : lastPlace format q ≤ lastPlace format r := by
  have := Int.log_mono_right (b := 2) (abs_pos.2 hq) h
  rw [lastPlace_eq, lastPlace_eq]
  omega

/-- The last place of a number with few places. -/
theorem lastPlace_le (hq : q ≠ 0) (h : |q| < 2 ^ (format.mantissaBits + e))
    (he : format.minExponent ≤ e) : lastPlace format q ≤ e := by
  have hlog : (2 : ℚ) ^ Int.log 2 |q| ≤ |q| := Int.zpow_log_le_self one_lt_two (abs_pos.2 hq)
  have := (zpow_lt_zpow_iff_right₀ one_lt_two).1 (hlog.trans_lt h)
  rw [lastPlace_eq]
  omega

/-- A multiple of the weight of the last place is kept. -/
theorem rounded_of_eq (h : lastPlace format q ≤ e) (hq : q = n * 2 ^ e) : rounded format q = q := by
  obtain ⟨k, hk⟩ := Int.eq_ofNat_of_zero_le (sub_nonneg.2 h)
  have hint : q / 2 ^ lastPlace format q = ((n * 2 ^ k : ℤ) : ℚ) := by
    have he : e = k + lastPlace format q := by omega
    rw [div_eq_iff (two_zpow_pos _).ne']
    conv_lhs => rw [hq, he, two_zpow_add, zpow_natCast]
    push_cast
    ring
  rw [rounded, hint, roundEven_intCast, ← hint, div_mul_cancel₀ _ (two_zpow_pos _).ne']

@[simp] theorem rounded_zero : rounded format 0 = 0 := by
  simp [rounded]

variable (format) in
/-- The numbers of a format are kept. -/
theorem rounded_of_lt (hn : |n| < 2 ^ format.mantissaBits) (he : format.minExponent ≤ e) :
    rounded format (n * 2 ^ e) = n * 2 ^ e := by
  rcases eq_or_ne n 0 with rfl | hne
  · simp
  · refine rounded_of_eq (lastPlace_le ?_ ?_ he) rfl
    · exact mul_ne_zero (Int.cast_ne_zero.2 hne) (two_zpow_pos e).ne'
    · rw [abs_mul, abs_of_pos (two_zpow_pos e), two_zpow_add]
      refine mul_lt_mul_of_pos_right ?_ (two_zpow_pos e)
      exact_mod_cast hn

variable (format) in
theorem rounded_two_zpow (he : format.minExponent ≤ e) :
    rounded format (2 ^ e) = 2 ^ e := by
  have h : (1 : ℤ) < 2 ^ format.mantissaBits :=
    one_lt_pow₀ one_lt_two (by have := two_le_mantissaBits format; omega)
  simpa using rounded_of_lt format (n := 1) (by simpa using h) he

/-- Twice a number of a format is one of the format. -/
theorem rounded_two_mul (h : rounded format q = q) : rounded format (2 * q) = 2 * q := by
  rcases eq_or_ne q 0 with rfl | hq
  · simp
  have hdouble : 2 * q = roundEven (q / 2 ^ lastPlace format q) *
      2 ^ (lastPlace format q + 1) := by
    rw [zpow_add_one₀ two_ne_zero, ← mul_assoc, ← rounded, h, mul_comm]
  refine rounded_of_eq (lastPlace_le (mul_ne_zero two_ne_zero hq) ?_ ?_) hdouble
  · rw [abs_mul, abs_two, ← add_assoc, zpow_add_one₀ two_ne_zero, mul_comm]
    exact mul_lt_mul_of_pos_right (abs_lt_two_zpow format q) two_pos
  · have := minExponent_le_lastPlace format q
    omega

theorem rounded_neg (q : ℚ) : rounded format (-q) = -rounded format q := by
  have h : lastPlace format (-q) = lastPlace format q := by rw [lastPlace, abs_neg, lastPlace]
  rw [rounded, rounded, h, neg_div, roundEven_neg, Int.cast_neg, neg_mul]

variable (format) in
theorem rounded_nonneg (h : 0 ≤ q) : 0 ≤ rounded format q := by
  have hint : (0 : ℤ) ≤ roundEven (q / 2 ^ lastPlace format q) :=
    le_roundEven (by simpa using div_nonneg h (two_zpow_pos _).le)
  exact mul_nonneg (Int.cast_nonneg hint) (two_zpow_pos _).le

/-- Rounding does not leave the binade of a number but for its upper end. -/
theorem rounded_le_two_zpow (q : ℚ) :
    rounded format q ≤ 2 ^ (format.mantissaBits + lastPlace format q) := by
  have hlt := (le_abs_self q).trans_lt (abs_lt_two_zpow format q)
  have hint : roundEven (q / 2 ^ lastPlace format q) ≤ 2 ^ format.mantissaBits := by
    refine roundEven_le ?_
    rw [div_le_iff₀ (two_zpow_pos _), Int.cast_pow, Int.cast_ofNat, ← zpow_natCast, ← two_zpow_add]
    exact hlt.le
  rw [rounded, two_zpow_add, zpow_natCast]
  refine mul_le_mul_of_nonneg_right ?_ (two_zpow_pos _).le
  exact_mod_cast hint

/-- Rounding does not leave the binade of a number downwards. -/
theorem two_zpow_le_rounded (h : 0 < q) (hmin : format.minExponent < lastPlace format q) :
    2 ^ (format.mantissaBits - 1 + lastPlace format q) ≤ rounded format q := by
  have hlog : (2 : ℚ) ^ Int.log 2 q ≤ q := Int.zpow_log_le_self one_lt_two h
  have hp := two_le_mantissaBits format
  have he : format.mantissaBits - 1 + lastPlace format q = Int.log 2 q := by
    rw [lastPlace_eq, abs_of_pos h] at *
    omega
  have hint : (2 : ℤ) ^ (format.mantissaBits - 1) ≤ roundEven (q / 2 ^ lastPlace format q) := by
    refine le_roundEven ?_
    rw [le_div_iff₀ (two_zpow_pos _), Int.cast_pow, Int.cast_ofNat, ← zpow_natCast, ← two_zpow_add,
      Nat.cast_sub (by omega), Nat.cast_one, he]
    exact hlog
  have hcast : ((2 : ℚ) ^ (format.mantissaBits - 1 : ℤ)) =
      ((2 ^ (format.mantissaBits - 1) : ℤ) : ℚ) := by
    rw [Int.cast_pow, Int.cast_ofNat, ← zpow_natCast, Nat.cast_sub (by omega), Nat.cast_one]
  rw [rounded, two_zpow_add, hcast]
  refine mul_le_mul_of_nonneg_right ?_ (two_zpow_pos _).le
  exact_mod_cast hint

/-- Rounding is monotone. -/
theorem rounded_mono (h : q ≤ r) : rounded format q ≤ rounded format r := by
  have hpos : ∀ {q r : ℚ}, 0 < q → q ≤ r → rounded format q ≤ rounded format r := by
    intro q r hq h
    have hr := hq.trans_le h
    have hplace : lastPlace format q ≤ lastPlace format r :=
      lastPlace_mono hq.ne' (by rwa [abs_of_pos hq, abs_of_pos hr])
    rcases hplace.lt_or_eq with hlt | heq
    · -- A power of two lies between the numbers.
      calc rounded format q ≤ 2 ^ (format.mantissaBits + lastPlace format q) :=
            rounded_le_two_zpow q
        _ ≤ 2 ^ (format.mantissaBits - 1 + lastPlace format r) := two_zpow_mono (by omega)
        _ ≤ rounded format r :=
            two_zpow_le_rounded hr ((minExponent_le_lastPlace format q).trans_lt hlt)
    · rw [rounded, rounded, heq]
      refine mul_le_mul_of_nonneg_right ?_ (two_zpow_pos _).le
      exact_mod_cast roundEven_mono (div_le_div_of_nonneg_right h (two_zpow_pos _).le)
  rcases lt_or_ge 0 q with hq | hq
  · exact hpos hq h
  rcases le_or_gt 0 r with hr | hr
  · have hq' : 0 ≤ rounded format (-q) := rounded_nonneg format (neg_nonneg.2 hq)
    rw [rounded_neg] at hq'
    exact (neg_nonneg.1 hq').trans (rounded_nonneg format hr)
  · have := hpos (neg_pos.2 hr) (neg_le_neg h)
    rw [rounded_neg, rounded_neg] at this
    exact neg_le_neg_iff.1 this

theorem abs_rounded (q : ℚ) : |rounded format q| = rounded format |q| := by
  rcases le_total 0 q with h | h
  · rw [abs_of_nonneg h, abs_of_nonneg (rounded_nonneg format h)]
  · have := rounded_nonneg format (neg_nonneg.2 h)
    rw [abs_of_nonpos h, rounded_neg, abs_of_nonpos]
    rw [rounded_neg] at this
    exact neg_nonneg.1 this

/-- No number is rounded across one that is kept. -/
theorem abs_rounded_le (hr : rounded format r = r) (h : |q| ≤ r) : |rounded format q| ≤ r := by
  rw [abs_rounded, ← hr]
  exact rounded_mono h

/-- Half a last place beyond a power of two is rounded off. -/
theorem rounded_two_zpow_add (he : format.minExponent + format.mantissaBits ≤ e + 1) :
    rounded format (2 ^ e + 2 ^ (e - format.mantissaBits)) = 2 ^ e := by
  have hp := two_le_mantissaBits format
  have hsmall : (2 : ℚ) ^ (e - format.mantissaBits) < 2 ^ e :=
    (zpow_lt_zpow_iff_right₀ one_lt_two).2 (by omega)
  have hpos : (0 : ℚ) < 2 ^ e + 2 ^ (e - format.mantissaBits) :=
    add_pos (two_zpow_pos _) (two_zpow_pos _)
  have hlog : Int.log 2 ((2 : ℚ) ^ e + 2 ^ (e - format.mantissaBits)) = e := by
    refine le_antisymm ?_ ?_
    · refine Int.lt_add_one_iff.1 ((Int.lt_zpow_iff_log_lt one_lt_two hpos).1 ?_)
      rw [Nat.cast_ofNat, zpow_add_one₀ two_ne_zero]
      linarith
    · refine (Int.zpow_le_iff_le_log one_lt_two hpos).1 ?_
      rw [Nat.cast_ofNat]
      linarith [two_zpow_pos (e - format.mantissaBits)]
  have hplace : lastPlace format (2 ^ e + 2 ^ (e - format.mantissaBits)) =
      e + 1 - format.mantissaBits := by
    rw [lastPlace_eq, abs_of_pos hpos, hlog]
    omega
  obtain ⟨k, hk⟩ : ∃ k, format.mantissaBits = k + 2 := ⟨format.mantissaBits - 2, by omega⟩
  have hwhole : (2 : ℚ) ^ e = 2 ^ (k + 1) * 2 ^ (e + 1 - format.mantissaBits : ℤ) := by
    rw [← zpow_natCast, ← two_zpow_add]
    congr 1
    push_cast
    omega
  have hhalf : (2 : ℚ) ^ (e - format.mantissaBits) = 1 / 2 * 2 ^ (e + 1 - format.mantissaBits) := by
    rw [show e - format.mantissaBits = -1 + (e + 1 - format.mantissaBits) by ring, two_zpow_add]
    norm_num
  have hdiv : ((2 : ℚ) ^ e + 2 ^ (e - format.mantissaBits)) /
      2 ^ (e + 1 - format.mantissaBits : ℤ) = ((2 ^ (k + 1) : ℤ) : ℚ) + 1 / 2 := by
    rw [hwhole, hhalf, ← add_mul, mul_div_cancel_right₀ _ (two_zpow_pos _).ne']
    push_cast
    rfl
  have heven : (2 : ℤ) ^ (k + 1) % 2 = 0 := by
    rw [pow_succ]
    omega
  rw [rounded, hplace, hdiv, roundEven_add_half, heven, add_zero, hwhole]
  push_cast
  rfl

variable (format) in
/-- A number with a full mantissa grows by no more than half a last place of it. -/
theorem rounded_le_mul (h : 2 ^ (format.minExponent + format.mantissaBits - 1) ≤ q) :
    rounded format q ≤ q * (1 + 2 ^ (-format.mantissaBits : ℤ)) := by
  have hq : 0 < q := (two_zpow_pos _).trans_le h
  have hlog : (2 : ℚ) ^ Int.log 2 q ≤ q := Int.zpow_log_le_self one_lt_two hq
  have hmin : format.minExponent + format.mantissaBits - 1 ≤ Int.log 2 q := by
    refine (Int.zpow_le_iff_le_log one_lt_two hq).1 ?_
    rw [Nat.cast_ofNat]
    exact h
  have hplace : lastPlace format q = Int.log 2 q + -format.mantissaBits + 1 := by
    rw [lastPlace_eq, abs_of_pos hq]
    omega
  have hhalf : (2 : ℚ) ^ lastPlace format q =
      2 * (2 ^ Int.log 2 q * 2 ^ (-format.mantissaBits : ℤ)) := by
    rw [hplace, zpow_add_one₀ two_ne_zero, two_zpow_add, mul_comm]
  have hpos := two_zpow_pos (lastPlace format q)
  have hsmall : (2 : ℚ) ^ Int.log 2 q * 2 ^ (-format.mantissaBits : ℤ) ≤
      q * 2 ^ (-format.mantissaBits : ℤ) :=
    mul_le_mul_of_nonneg_right hlog (two_zpow_pos _).le
  calc rounded format q
      ≤ (q / 2 ^ lastPlace format q + 1 / 2) * 2 ^ lastPlace format q :=
        mul_le_mul_of_nonneg_right (roundEven_le_add_half _) hpos.le
    _ = q + 2 ^ Int.log 2 q * 2 ^ (-format.mantissaBits : ℤ) := by
        rw [add_mul, div_mul_cancel₀ _ hpos.ne', hhalf]
        ring
    _ ≤ q * (1 + 2 ^ (-format.mantissaBits : ℤ)) := by
        rw [mul_add, mul_one]
        linarith

variable (format) in
/-- A power of two absorbs half a last place. -/
theorem abs_rounded_le_two_zpow (he : format.minExponent + format.mantissaBits ≤ e + 1)
    (h : |q| ≤ 2 ^ e + 2 ^ (e - format.mantissaBits)) : |rounded format q| ≤ 2 ^ e := by
  rw [abs_rounded, ← rounded_two_zpow_add he]
  exact rounded_mono h

end Formats

end LayeredDrawing
