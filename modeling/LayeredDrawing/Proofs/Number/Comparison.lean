import LayeredDrawing.Proofs.Number.Packing

/-!
# Comparison of unpacked numbers

Unpacked numbers are compared by sign, then by exponent, then by mantissa. In canonical form a
mantissa is full or the exponent is the least one, so of two positive numbers the one with the
greater exponent is the greater (`magnitude_lt`). Finite numbers are thus compared by their values
(`compare_value`), and all that are numbers by their places on a line that ends at the bound of the
format, with the infinite ones at its ends (`compare_level`). Infinite operands of a sum decide it
unless they are opposite, and differences are sums (`sub_eq_add_neg`).
-/

namespace LayeredDrawing.Unpacked

open Float.Model (Format UnpackedFloat)
open Float.Model.UnpackedFloat (Sign)

variable {format : Format}

/-! ## Magnitudes -/

section Magnitudes

variable {m n : ℕ} {e f : ℤ}

theorem value_pos (hm : 0 < m) (e : ℤ) : (0 : ℚ) < m * 2 ^ e :=
  mul_pos (by exact_mod_cast hm) (two_zpow_pos e)

/-- The number with the smaller exponent is the smaller one. -/
theorem magnitude_lt (cm : IsCanonical format m e) (cn : IsCanonical format n f) (h : e < f) :
    (m * 2 ^ e : ℚ) < n * 2 ^ f := by
  have hp := two_le_mantissaBits format
  have hfull : 2 ^ (format.mantissaBits - 1) ≤ n := by
    have := cm.minExponent_le
    exact cn.full.resolve_right (by omega)
  have hm : (m : ℚ) < 2 ^ format.mantissaBits := by exact_mod_cast cm.lt
  have hn : (2 : ℚ) ^ (format.mantissaBits - 1) ≤ n := by exact_mod_cast hfull
  calc (m * 2 ^ e : ℚ) < 2 ^ format.mantissaBits * 2 ^ e :=
        mul_lt_mul_of_pos_right hm (two_zpow_pos e)
    _ = 2 ^ (format.mantissaBits - 1) * 2 ^ (e + 1) := by
        rw [← zpow_natCast, ← zpow_natCast, ← two_zpow_add, ← two_zpow_add]
        congr 1
        omega
    _ ≤ n * 2 ^ f := mul_le_mul hn (two_zpow_mono (by omega)) (two_zpow_pos _).le n.cast_nonneg

theorem compare_magnitude (cm : IsCanonical format m e) (cn : IsCanonical format n f) :
    (compare e f).then (compare m n) = compare (m * 2 ^ e : ℚ) (n * 2 ^ f) := by
  rcases lt_trichotomy e f with h | rfl | h
  · rw [compare_lt_iff_lt.2 h, compare_lt_iff_lt.2 (magnitude_lt cm cn h)]
    rfl
  · rw [compare_eq_iff_eq.2 rfl, Ordering.eq_then]
    have hpos := two_zpow_pos e
    rcases lt_trichotomy m n with h | rfl | h
    · have hlt : (m : ℚ) < n := by exact_mod_cast h
      rw [compare_lt_iff_lt.2 h, compare_lt_iff_lt.2 (mul_lt_mul_of_pos_right hlt hpos)]
    · rw [compare_eq_iff_eq.2 rfl, compare_eq_iff_eq.2 rfl]
    · have hgt : (n : ℚ) < m := by exact_mod_cast h
      rw [compare_gt_iff_gt.2 h, compare_gt_iff_gt.2 (mul_lt_mul_of_pos_right hgt hpos)]
  · rw [compare_gt_iff_gt.2 h, compare_gt_iff_gt.2 (magnitude_lt cn cm h)]
    rfl

end Magnitudes

/-! ## The result of a comparison -/

section Results

variable {p q : ℚ}

theorem some_compare_of_lt (h : p < q) : some Ordering.lt = some (compare p q) :=
  congrArg some (compare_lt_iff_lt.2 h).symm

theorem some_compare_of_gt (h : q < p) : some Ordering.gt = some (compare p q) :=
  congrArg some (compare_gt_iff_gt.2 h).symm

theorem some_compare_of_eq (h : p = q) : some Ordering.eq = some (compare p q) :=
  congrArg some (compare_eq_iff_eq.2 h).symm

theorem swap_compare (p q : ℚ) : some (compare p q).swap = some (compare (-p) (-q)) := by
  rcases lt_trichotomy p q with h | h | h
  · rw [compare_lt_iff_lt.2 h]
    exact some_compare_of_gt (neg_lt_neg h)
  · rw [compare_eq_iff_eq.2 h]
    exact some_compare_of_eq (congrArg Neg.neg h)
  · rw [compare_gt_iff_gt.2 h]
    exact some_compare_of_lt (neg_lt_neg h)

end Results

/-! ## Places on the line -/

/-- The place of a number on the line: its value, or the bound of the format if it is infinite. -/
def level (format : Format) : UnpackedFloat → ℚ
  | .infinity s => signValue s * bound format
  | x => value x

theorem bound_pos (format : Format) : 0 < bound format := pow_pos two_pos _

variable {x y : UnpackedFloat}

theorem exists_infinity_or_isFinite (h : x.isNaN = false) :
    (∃ s, x = .infinity s) ∨ x.isFinite = true := by
  cases x with
  | infinity s => exact .inl ⟨s, rfl⟩
  | notANumber => cases h
  | zero s => exact .inr rfl
  | finite s m e hm => exact .inr rfl

/-- What is no number is not compared. -/
theorem isNaN_eq_false_of_compare {p : Ordering → Bool} (h : (x.compare y).any p = true) :
    x.isNaN = false ∧ y.isNaN = false := by
  cases x <;> cases y <;> first | exact ⟨rfl, rfl⟩ | cases h

theorem level_of_isFinite (h : x.isFinite = true) : level format x = value x := by
  cases x with
  | infinity s => cases h
  | notANumber => rfl
  | zero s => rfl
  | finite s m e hm => rfl

/-- Finite numbers are compared by their values. -/
theorem compare_value (hx : x.isFinite = true) (hy : y.isFinite = true)
    (cx : Canonical format x) (cy : Canonical format y) :
    x.compare y = some (compare (value x) (value y)) := by
  rcases exists_of_isFinite hx with ⟨s, rfl⟩ | ⟨s, m, e, hm, rfl⟩
  · rcases exists_of_isFinite hy with ⟨t, rfl⟩ | ⟨t, n, f, hn, rfl⟩
    · exact some_compare_of_eq rfl
    · have hpos := value_pos hn f
      cases t with
      | positive => exact some_compare_of_lt (by simpa [signValue] using hpos)
      | negative => exact some_compare_of_gt (by simpa [signValue] using hpos)
  have hpos := value_pos hm e
  rcases exists_of_isFinite hy with ⟨t, rfl⟩ | ⟨t, n, f, hn, rfl⟩
  · cases s with
    | positive => exact some_compare_of_gt (by simpa [signValue] using hpos)
    | negative => exact some_compare_of_lt (by simpa [signValue] using hpos)
  have hpos' := value_pos hn f
  have hc := compare_magnitude cx cy
  rw [value_finite, value_finite]
  cases s with
  | positive =>
    rw [signValue, one_mul]
    cases t with
    | positive =>
      rw [signValue, one_mul]
      exact congrArg some hc
    | negative => exact some_compare_of_gt (by rw [signValue]; linarith)
  | negative =>
    rw [signValue, neg_one_mul]
    cases t with
    | positive => exact some_compare_of_lt (by rw [signValue]; linarith)
    | negative =>
      rw [signValue, neg_one_mul]
      show some ((compare e f).then (compare m n)).swap = _
      rw [hc, swap_compare]

theorem infinity_compare (s : Sign) (fy : y.isFinite = true) (hb' : |value y| < bound format) :
    (UnpackedFloat.infinity s).compare y = some (compare (signValue s * bound format) (value y)) := by
  rw [abs_lt] at hb'
  cases s with
  | positive =>
    have hc : (UnpackedFloat.infinity .positive).compare y = some .gt := by
      cases y <;> first | rfl | cases fy
    rw [hc]
    exact some_compare_of_gt (by rw [signValue]; linarith)
  | negative =>
    have hc : (UnpackedFloat.infinity .negative).compare y = some .lt := by
      cases y <;> first | rfl | cases fy
    rw [hc]
    exact some_compare_of_lt (by rw [signValue]; linarith)

theorem compare_infinity (s : Sign) (fx : x.isFinite = true) (bx : |value x| < bound format) :
    x.compare (.infinity s) = some (compare (value x) (signValue s * bound format)) := by
  rw [abs_lt] at bx
  cases s with
  | positive =>
    have hc : x.compare (.infinity .positive) = some .lt := by
      cases x <;> first | rfl | cases fx
    rw [hc]
    exact some_compare_of_lt (by rw [signValue]; linarith)
  | negative =>
    have hc : x.compare (.infinity .negative) = some .gt := by
      cases x <;> first | rfl | cases fx
    rw [hc]
    exact some_compare_of_gt (by rw [signValue]; linarith)

/-- **Numbers are compared by their places.** -/
theorem compare_level (hx : x.isNaN = false) (hy : y.isNaN = false) (cx : Canonical format x)
    (cy : Canonical format y) (bx : |value x| < bound format) (hb' : |value y| < bound format) :
    x.compare y = some (compare (level format x) (level format y)) := by
  have hb := bound_pos format
  rcases exists_infinity_or_isFinite hx with ⟨s, rfl⟩ | fx
  · rcases exists_infinity_or_isFinite hy with ⟨t, rfl⟩ | fy
    · cases s <;> cases t
      · exact some_compare_of_eq rfl
      · exact some_compare_of_lt (by simp only [level, signValue]; linarith)
      · exact some_compare_of_gt (by simp only [level, signValue]; linarith)
      · exact some_compare_of_eq rfl
    · rw [level_of_isFinite fy]
      exact infinity_compare s fy hb'
  · rw [level_of_isFinite fx]
    rcases exists_infinity_or_isFinite hy with ⟨t, rfl⟩ | fy
    · exact compare_infinity t fx bx
    · rw [level_of_isFinite fy]
      exact compare_value fx fy cx cy

/-! ## Infinite operands and differences -/

theorem infinity_add (s : Sign) (fy : y.isFinite = true) :
    UnpackedFloat.add format (.infinity s) y = .infinity s := by
  cases y <;> first | rfl | cases fy

theorem add_infinity (s : Sign) (fx : x.isFinite = true) :
    UnpackedFloat.add format x (.infinity s) = .infinity s := by
  cases x <;> first | rfl | cases fx

theorem infinity_add_self (s : Sign) :
    UnpackedFloat.add format (.infinity s) (.infinity s) = .infinity s := by
  cases s <;> rfl

theorem infinity_add_neg (s : Sign) :
    UnpackedFloat.add format (.infinity s) (.infinity (-s)) = .notANumber := by
  cases s <;> rfl

theorem isNaN_eq_false_of_add (h : (UnpackedFloat.add format x y).isNaN = false) :
    x.isNaN = false ∧ y.isNaN = false := by
  cases x <;> cases y <;> first | exact ⟨rfl, rfl⟩ | cases h

theorem isNaN_eq_false_of_div (h : (UnpackedFloat.div format x y).isNaN = false) :
    x.isNaN = false := by
  cases x with
  | notANumber => cases h
  | infinity _ | zero _ | finite _ _ _ _ => rfl

theorem infinity_div {m : ℕ} {e : ℤ} {hm : 0 < m} (s : Sign) :
    UnpackedFloat.div format (.infinity s) (.finite .positive m e hm) = .infinity s := by
  cases s <;> rfl

theorem neg_apply (s : Sign) (n : ℤ) : (-s).apply n = -s.apply n := by
  cases s
  · exact (neg_neg n).symm
  · rfl

/-- A difference is a sum. -/
theorem sub_eq_add_neg : UnpackedFloat.sub format x y = UnpackedFloat.add format x y.neg := by
  cases x with
  | finite s m e hm =>
    cases y with
    | finite t n f hn =>
      simp only [UnpackedFloat.sub, UnpackedFloat.add, UnpackedFloat.neg, neg_apply]
      rfl
    | infinity _ | notANumber | zero _ => rfl
  | infinity _ | notANumber | zero _ => cases y <;> rfl

theorem value_neg (x : UnpackedFloat) : value x.neg = -value x := by
  cases x with
  | finite s m e hm =>
    show signValue (-s) * _ = _
    rw [signValue_neg, neg_mul]
    rfl
  | infinity _ | notANumber | zero _ => exact neg_zero.symm

theorem level_neg (x : UnpackedFloat) : level format x.neg = -level format x := by
  cases x with
  | infinity s =>
    show signValue (-s) * _ = _
    rw [signValue_neg, neg_mul]
    rfl
  | finite s m e hm => exact value_neg (.finite s m e hm)
  | notANumber | zero _ => exact neg_zero.symm

end LayeredDrawing.Unpacked
