import LayeredDrawing.Proofs.Number.Words

/-!
# The middle of a number and itself

The mean of one number is computed by adding it to zero and dividing by one, and the middle of two
numbers by halving their sum. Neither changes the place of a number as long as the sum is in the
range of the format, since twice a number of the format is one of the format (`rounded_two_mul`). A
sum beyond the range is infinite, and so are then its half and all that is computed from it; what is
no number stays so; and the zero with the negative sign becomes the other one.

* `settled_settled`: **the middle of a mean of one number and itself is its own middle.**
-/

namespace LayeredDrawing

/-- The middle of the mean of one number and itself. -/
def Scalar.settled {α : Type} [Scalar α] (x : α) : α :=
  let mean := (Scalar.zero + x) / Scalar.ofNat 1
  Scalar.half (mean + mean)

namespace Single

open Float.Model (Format UnpackedFloat)
open Unpacked (signValue)

variable {x : Float32} {p q r : ℚ}

/-! ## Places of sums and halves -/

theorem clamped_of_abs_lt (h : |clamped q| < 2 ^ 128) : clamped q = round32 q := by
  obtain ⟨hlow, hhigh⟩ := abs_lt.1 h
  have hmin : -2 ^ 128 < min (2 ^ 128) (round32 q) :=
    (lt_max_iff.1 hlow).resolve_left (lt_irrefl _)
  have hmax := (max_lt_iff.1 hhigh).2
  exact clamped_of_lt (abs_lt.2 ⟨(lt_min_iff.1 hmin).2,
    (min_lt_iff.1 hmax).resolve_left (lt_irrefl _)⟩)

/-- Half of the sum of a number and itself is the number, or infinite. -/
theorem Summed.half_eq_or (h : Summed p p r) (hhalf : Halved r q)
    (hround : |p| < 2 ^ 128 → round32 p = p) : q = p ∨ |q| = 2 ^ 128 := by
  cases hhalf with
  | infinite hr => exact .inr hr
  | finite hr =>
    cases h with
    | above _ _ _ => norm_num at hr
    | below _ _ _ => norm_num at hr
    | finite hp _ =>
      have hdouble : round32 (p + p) = p + p := by
        rw [← two_mul]
        exact rounded_two_mul (hround hp)
      have hhalf : (p + p) / 2 = p := by ring
      rw [clamped_of_abs_lt hr, hdouble, hhalf, hround hp]
      exact .inl rfl

/-- An infinite number is half of the sum of itself and itself. -/
theorem Summed.half_eq_of_abs_eq (h : Summed q q r) (hhalf : Halved r p) (hq : |q| = 2 ^ 128) :
    p = q := by
  have hr : r = q := by
    cases h with
    | finite hlt _ => exact absurd hq hlt.ne
    | above h _ _ => rcases h with rfl | rfl <;> rfl
    | below h _ _ => rcases h with rfl | rfl <;> rfl
  subst hr
  cases hhalf with
  | finite hlt => exact absurd hq hlt.ne
  | infinite _ => rfl

/-- A number at zero is a zero. -/
theorem exists_zero_of_level_eq_zero (hx : IsNumber x) (h : level x = 0) :
    ∃ s, x.toModel.unpack = .zero s := by
  rcases hx.infinity_or_isFinite with ⟨s, hs⟩ | fx
  · rw [level_infinity hs] at h
    cases s <;> norm_num [signValue] at h
  rcases Unpacked.exists_of_isFinite fx with hz | ⟨s, m, e, hm, hs⟩
  · exact hz
  · have hpos := Unpacked.value_pos hm e
    rw [level, hs, Unpacked.level_of_isFinite rfl, Unpacked.value_finite] at h
    cases s <;> simp only [signValue] at h <;> linarith

/-- Zero added to a number leaves it in its place. -/
theorem level_zero_add (hx : IsNumber x) :
    IsNumber (Scalar.zero + x) ∧ level (Scalar.zero + x) = level x := by
  have hzero : level Scalar.zero = 0 := level_zero
  rcases summed_add (x := Scalar.zero) isNumber_zero hx with ⟨hn, hs⟩ | ⟨-, hopposite, habs⟩
  · rw [hzero] at hs
    exact ⟨hn, hs.unique (summed_zero hx).symm (by norm_num) (abs_level_le x)⟩
  · rw [hzero] at hopposite
    rw [neg_eq_zero.1 hopposite.symm] at habs
    norm_num at habs

/-- Division by one leaves a number in its place. -/
theorem level_div_one (hx : IsNumber x) :
    IsNumber (x / Scalar.ofNat 1) ∧ level (x / Scalar.ofNat 1) = level x := by
  obtain ⟨fone, hone⟩ := value_ofNat (n := 1) (by norm_num)
  rw [Nat.cast_one] at hone
  rcases hx.infinity_or_isFinite with ⟨s, hs⟩ | fx
  · have hdiv : x / Scalar.ofNat 1 = ofUnpacked (.div Format.binary32 x.toModel.unpack
        (Float32.ofNat 1).toModel.unpack) := rfl
    obtain ⟨m, e, hm, hunpack⟩ := exists_unpack_of_value_pos fone (by rw [hone]; norm_num)
    rw [hs, hunpack, Unpacked.infinity_div] at hdiv
    rw [level_infinity hs]
    exact isNumber_and_level_infinity hdiv
  · have hround : round32 (value x) = value x := Unpacked.rounded_value (canonical x)
    have hdiv := isNearest_div fx fone (by rw [hone]; norm_num)
    rw [hone, div_one] at hdiv
    obtain ⟨fdiv, hvalue⟩ := hdiv.finite (by rw [hround]; exact abs_value_lt x)
    refine ⟨isNumber_of_isFinite fdiv, (level_of_isFinite fdiv).trans ?_⟩
    rw [level_of_isFinite fx, ← hround]
    exact hvalue

/-! ## Middles -/

section Settled

open Scalar (settled)

theorem isNumber_of_settled (h : IsNumber (settled x)) : IsNumber x := by
  have hmean := (isNumber_of_add (isNumber_of_half h)).1
  have hsum : IsNumber (Scalar.zero + x) :=
    Unpacked.isNaN_eq_false_of_div (isNaN_eq_false_of_isNumber hmean)
  exact (isNumber_of_add hsum).2

/-- The middle of a number and itself is half of a sum. -/
theorem exists_summed_settled (hx : IsNumber x) : IsNumber (settled x) ∧
    ∃ r, Summed (level x) (level x) r ∧ Halved r (level (settled x)) := by
  obtain ⟨hzero, ezero⟩ := level_zero_add hx
  obtain ⟨hmean, emean⟩ := level_div_one hzero
  rw [ezero] at emean
  rcases summed_add hmean hmean with ⟨hn, hs⟩ | ⟨-, hopposite, habs⟩
  · obtain ⟨hhalf, hh⟩ := halved_half hn
    rw [emean] at hs
    exact ⟨hhalf, _, hs, hh⟩
  · rw [self_eq_neg.1 hopposite] at habs
    norm_num at habs

/-- The next middle is in the place of the first one. -/
theorem level_settled_settled (hx : IsNumber x) :
    level (settled (settled x)) = level (settled x) := by
  obtain ⟨hn, r, hs, hh⟩ := exists_summed_settled hx
  obtain ⟨-, r', hs', hh'⟩ := exists_summed_settled hn
  rcases hs.half_eq_or hh (round32_level hx) with heq | habs
  · rw [heq] at hs' hh
    obtain rfl := hs'.unique hs (abs_level_le x) (abs_level_le x)
    rw [heq]
    exact hh'.unique hh hs.abs_result_le
  · exact hs'.half_eq_of_abs_eq hh' habs

/-- The middle of a zero and itself is positive. -/
theorem settled_of_level_eq_zero (hx : IsNumber x) (h : level x = 0) :
    settled x = Scalar.zero := by
  obtain ⟨s, hs⟩ := exists_zero_of_level_eq_zero hx h
  have hzero : Scalar.zero + x = Scalar.zero := by
    show ofUnpacked (.add Format.binary32 (Float32.ofNat 0).toModel.unpack x.toModel.unpack) = _
    rw [hs, unpack_ofNat_zero]
    cases s <;> rfl
  rw [settled, hzero]
  decide +kernel

/-- **Middles settle after one step**, bit by bit and whatever the number. -/
theorem settled_settled (x : Float32) : settled (settled x) = settled x := by
  by_cases hx : IsNumber x
  · by_cases hzero : level x = 0
    · rw [settled_of_level_eq_zero hx hzero]
      exact settled_of_level_eq_zero isNumber_zero level_zero
    · obtain ⟨hn, r, hs, hh⟩ := exists_summed_settled hx
      have hne : level (settled x) ≠ 0 := by
        intro e
        rcases hs.half_eq_or hh (round32_level hx) with heq | habs
        · exact hzero (heq.symm.trans e)
        · rw [e] at habs
          norm_num at habs
      have hlevel := level_settled_settled hx
      exact eq_of_level_eq_of_ne_zero (exists_summed_settled hn).1 hn hlevel (by rwa [hlevel])
  · have hn : ¬ IsNumber (settled x) := fun h => hx (isNumber_of_settled h)
    exact eq_of_not_isNumber (fun h => hn (isNumber_of_settled h)) hn

end Settled

end Single

end LayeredDrawing
