import LayeredDrawing.Proofs.Number.Comparison
import LayeredDrawing.Proofs.Number.Magnitude

/-!
# Rounded operations keep the order

Rounding is monotone, and so are sums, differences and halves that are rounded once, beyond the
range of the format as well: an infinite result stands at an end of the line, and only the sum of
opposite infinities is no number. An operation whose result is a number therefore keeps the order
of its operands, whatever their magnitudes.

* `summed_add`, `halved_half`: the place of a sum and of a half, by the places of the operands.
* `add_mono`, `sub_anti`, `half_mono`: **the operations keep the order.**
* `le_larger_add`, `smaller_sub_le`: a number that is pushed by a distance goes in its direction.
-/

namespace LayeredDrawing.Single

open Float.Model (Format UnpackedFloat)
open Unpacked (Canonical Rounds signValue bound)

/-! ## Numbers and their places -/

/-- It is finite or infinite. -/
def IsNumber (x : Float32) : Prop := x.isNaN = false

instance (x : Float32) : Decidable (IsNumber x) := inferInstanceAs (Decidable (x.isNaN = false))

/-- The place of a number on a line that ends at the bound of the format. -/
def level (x : Float32) : ℚ := Unpacked.level Format.binary32 x.toModel.unpack

variable {x y z : Float32}

theorem IsNumber.infinity_or_isFinite (h : IsNumber x) :
    (∃ s, x.toModel.unpack = .infinity s) ∨ x.isFinite = true :=
  Unpacked.exists_infinity_or_isFinite h

theorem isNumber_of_isFinite (h : x.isFinite = true) : IsNumber x := by
  have h : x.toModel.unpack.isFinite = true := h
  show x.toModel.unpack.isNaN = false
  cases hx : x.toModel.unpack with
  | notANumber => rw [hx] at h; cases h
  | infinity _ | zero _ | finite _ _ _ _ => rfl

theorem level_of_isFinite (h : x.isFinite = true) : level x = value x :=
  Unpacked.level_of_isFinite h

theorem level_infinity {s : UnpackedFloat.Sign} (h : x.toModel.unpack = .infinity s) :
    level x = signValue s * 2 ^ 128 := by
  rw [level, h]
  rfl

theorem abs_value_lt (x : Float32) : |value x| < 2 ^ 128 := by
  have hc := canonical x
  rw [value]
  cases hx : x.toModel.unpack with
  | infinity _ | notANumber | zero _ => simp [Unpacked.value]
  | finite s m e hm =>
    rw [hx] at hc
    have hnn : (0 : ℚ) ≤ m * 2 ^ e := (Unpacked.value_pos hm e).le
    rw [Unpacked.value_finite, abs_mul, Unpacked.abs_signValue, one_mul, abs_of_nonneg hnn]
    exact (Unpacked.exponent_le_iff (by decide) hc).2
      (Unpacked.exponent_le_of_unpack (by decide) hx)

theorem abs_level_le (x : Float32) : |level x| ≤ 2 ^ 128 := by
  rw [level]
  cases hx : x.toModel.unpack with
  | infinity s =>
    show |signValue s * 2 ^ 128| ≤ 2 ^ 128
    rw [abs_mul, Unpacked.abs_signValue, one_mul, abs_of_pos (by norm_num)]
  | notANumber | zero _ | finite _ _ _ _ =>
    have := abs_value_lt x
    rw [value, hx] at this
    exact this.le

theorem compare_eq (hx : IsNumber x) (hy : IsNumber y) :
    x.toModel.unpack.compare y.toModel.unpack = some (compare (level x) (level y)) :=
  Unpacked.compare_level hx hy (canonical x) (canonical y) (abs_value_lt x) (abs_value_lt y)

theorem le_iff_level (hx : IsNumber x) (hy : IsNumber y) : x ≤ y ↔ level x ≤ level y := by
  show decide (x.toModel ≤ y.toModel) = true ↔ _
  rw [decide_eq_true_iff]
  show (x.toModel.unpack.compare y.toModel.unpack).any (·.isLE) = true ↔ _
  rw [compare_eq hx hy, Option.any_some, Ordering.isLE_iff_ne_gt]
  exact compare_le_iff_le

theorem lt_iff_level (hx : IsNumber x) (hy : IsNumber y) : x < y ↔ level x < level y := by
  show decide (x.toModel < y.toModel) = true ↔ _
  rw [decide_eq_true_iff]
  show (x.toModel.unpack.compare y.toModel.unpack == some .lt) = true ↔ _
  rw [compare_eq hx hy, beq_iff_eq, Option.some.injEq, compare_lt_iff_lt]

theorem beq_iff_level (hx : IsNumber x) (hy : IsNumber y) :
    (x == y) = true ↔ level x = level y := by
  show (x.toModel.unpack.compare y.toModel.unpack == some .eq) = true ↔ _
  rw [compare_eq hx hy, beq_iff_eq, Option.some.injEq, compare_eq_iff_eq]

theorem isNumber_of_le (h : x ≤ y) : IsNumber x ∧ IsNumber y := by
  have h : decide (x.toModel ≤ y.toModel) = true := h
  rw [decide_eq_true_iff] at h
  exact Unpacked.isNaN_eq_false_of_compare h

theorem le_trans (hxy : x ≤ y) (hyz : y ≤ z) : x ≤ z := by
  obtain ⟨hx, hy⟩ := isNumber_of_le hxy
  obtain ⟨-, hz⟩ := isNumber_of_le hyz
  exact (le_iff_level hx hz).2
    (((le_iff_level hx hy).1 hxy).trans ((le_iff_level hy hz).1 hyz))

theorem le_refl (hx : IsNumber x) : x ≤ x := (le_iff_level hx hx).2 le_rfl

theorem le_of_lt (hx : IsNumber x) (hy : IsNumber y) (h : x < y) : x ≤ y :=
  (le_iff_level hx hy).2 ((lt_iff_level hx hy).1 h).le

theorem le_of_not_lt (hx : IsNumber x) (hy : IsNumber y) (h : ¬ y < x) : x ≤ y := by
  rw [lt_iff_level hy hx, not_lt] at h
  exact (le_iff_level hx hy).2 h

instance instTransLe :
    Trans (fun x y : Float32 => x ≤ y) (fun x y => x ≤ y) (fun x y => x ≤ y) := ⟨le_trans⟩

/-! ## The greater and the lesser of two numbers -/

theorem right_le_larger (hy : IsNumber y) : y ≤ larger x y := by
  rw [larger]
  split
  · exact le_refl hy
  rename_i hx
  have hx : IsNumber x := Bool.eq_false_iff.2 hx
  split
  · exact le_refl hy
  · rename_i hle
    rw [le_iff_level hx hy, not_le] at hle
    exact (le_iff_level hy hx).2 hle.le

theorem left_le_larger (hx : IsNumber x) : x ≤ larger x y := by
  rw [larger, if_neg (Bool.eq_false_iff.1 hx)]
  split
  · assumption
  · exact le_refl hx

theorem smaller_le_right (hy : IsNumber y) : smaller x y ≤ y := by
  rw [smaller]
  split
  · exact le_refl hy
  rename_i hx
  have hx : IsNumber x := Bool.eq_false_iff.2 hx
  split
  · exact le_refl hy
  · rename_i hle
    rw [le_iff_level hy hx, not_le] at hle
    exact (le_iff_level hx hy).2 hle.le

/-! ## Results of operations -/

/-- A number rounded and held to the line. -/
def clamped (q : ℚ) : ℚ := max (-2 ^ 128) (min (2 ^ 128) (round32 q))

theorem clamped_mono {p q : ℚ} (h : p ≤ q) : clamped p ≤ clamped q :=
  max_le_max le_rfl (min_le_min le_rfl (rounded_mono h))

theorem abs_clamped_le (q : ℚ) : |clamped q| ≤ 2 ^ 128 := by
  refine abs_le.2 ⟨le_max_left _ _, max_le ?_ (min_le_left _ _)⟩
  norm_num

theorem clamped_of_lt {q : ℚ} (h : |round32 q| < 2 ^ 128) : clamped q = round32 q := by
  rw [abs_lt] at h
  rw [clamped, min_eq_right h.2.le, max_eq_right h.1.le]

/-- The places of numbers within the line are numbers of the format. -/
theorem round32_level (hx : IsNumber x) (hlt : |level x| < 2 ^ 128) :
    round32 (level x) = level x := by
  rcases hx.infinity_or_isFinite with ⟨s, hs⟩ | fx
  · rw [level_infinity hs, abs_mul, Unpacked.abs_signValue, one_mul, abs_of_pos (by norm_num)]
      at hlt
    exact absurd hlt (lt_irrefl _)
  · rw [level_of_isFinite fx]
    exact Unpacked.rounded_value (canonical x)

theorem unpack_infinity (s : UnpackedFloat.Sign) :
    (ofUnpacked (.infinity s)).toModel.unpack = .infinity s :=
  Unpacked.unpack_packedInfinity s

theorem not_isNumber_notANumber : ¬ IsNumber (ofUnpacked .notANumber) := by
  have h : (ofUnpacked .notANumber).toModel.unpack = .notANumber :=
    UnpackedFloat.unpack_packedNaN
  intro hn
  have hn : (ofUnpacked .notANumber).toModel.unpack.isNaN = false := hn
  rw [h] at hn
  cases hn

theorem isNaN_eq_false_of_isNumber {u : UnpackedFloat} (h : IsNumber (ofUnpacked u)) :
    u.isNaN = false := by
  cases u with
  | notANumber => exact absurd h not_isNumber_notANumber
  | infinity _ | zero _ | finite _ _ _ _ => rfl

theorem isNumber_infinity (s : UnpackedFloat.Sign) : IsNumber (ofUnpacked (.infinity s)) := by
  show (ofUnpacked (.infinity s)).toModel.unpack.isNaN = false
  rw [unpack_infinity]
  rfl

/-- A result that is rounded correctly is a number at the place of the rounded value. -/
theorem level_of_rounds {u : UnpackedFloat} {q : ℚ} (h : Rounds Format.binary32 u q) :
    IsNumber (ofUnpacked u) ∧ level (ofUnpacked u) = clamped q := by
  rcases lt_or_ge |round32 q| (2 ^ 128) with hlt | hle
  · obtain ⟨hfinite, hvalue⟩ := (isNearest_of_rounds h).finite hlt
    refine ⟨isNumber_of_isFinite hfinite, ?_⟩
    rw [level_of_isFinite hfinite, hvalue, clamped_of_lt hlt]
  · have hle' : bound Format.binary32 ≤ |Unpacked.value u| := by rwa [h.value_eq, bound_binary32]
    obtain ⟨s, hs, habs⟩ := Unpacked.unpack_pack_of_le (by decide) h.canonical hle'
    have hs : (ofUnpacked u).toModel.unpack = .infinity s := hs
    refine ⟨?_, ?_⟩
    · show (ofUnpacked u).toModel.unpack.isNaN = false
      rw [hs]
      rfl
    · rw [h.value_eq] at habs
      have hround : round32 q = signValue s * |round32 q| := by
        rw [habs, ← mul_assoc]
        cases s <;> simp [signValue]
      rw [level_infinity hs, clamped, hround]
      cases s with
      | positive =>
        rw [signValue, one_mul, one_mul, min_eq_left hle, max_eq_right (by norm_num)]
      | negative =>
        rw [signValue, neg_one_mul, neg_one_mul]
        have : -|round32 q| ≤ -2 ^ 128 := neg_le_neg hle
        rw [min_eq_right (by linarith), max_eq_left this]

/-! ## Sums -/

/-- The place of a sum that is a number, by the places of its terms: the exact sum is rounded if
both are finite, and an infinite term decides if the other is not the opposite one. -/
inductive Summed : ℚ → ℚ → ℚ → Prop
  | finite {p q : ℚ} (hp : |p| < 2 ^ 128) (hq : |q| < 2 ^ 128) : Summed p q (clamped (p + q))
  | above {p q : ℚ} (h : p = 2 ^ 128 ∨ q = 2 ^ 128) (hp : p ≠ -2 ^ 128) (hq : q ≠ -2 ^ 128) :
    Summed p q (2 ^ 128)
  | below {p q : ℚ} (h : p = -2 ^ 128 ∨ q = -2 ^ 128) (hp : p ≠ 2 ^ 128) (hq : q ≠ 2 ^ 128) :
    Summed p q (-2 ^ 128)

section Sums

variable {p q r p' q' r' : ℚ}

theorem Summed.symm (h : Summed p q r) : Summed q p r := by
  cases h with
  | finite hp hq => exact add_comm p q ▸ .finite hq hp
  | above h hp hq => exact .above h.symm hq hp
  | below h hp hq => exact .below h.symm hq hp

theorem Summed.abs_result_le (h : Summed p q r) : |r| ≤ 2 ^ 128 := by
  cases h with
  | finite _ _ => exact abs_clamped_le _
  | above _ _ _ => exact (abs_of_pos (by norm_num)).le
  | below _ _ _ => exact (abs_neg _).trans_le (abs_of_pos (by norm_num)).le

theorem summed_infinite (s : UnpackedFloat.Sign) (hq : |q| < 2 ^ 128) :
    Summed (signValue s * 2 ^ 128) q (signValue s * 2 ^ 128) := by
  rw [abs_lt] at hq
  cases s with
  | positive =>
    rw [signValue, one_mul]
    exact .above (.inl rfl) (by norm_num) hq.1.ne'
  | negative =>
    rw [signValue, neg_one_mul]
    exact .below (.inl rfl) (by norm_num) hq.2.ne

theorem summed_infinite_self (s : UnpackedFloat.Sign) :
    Summed (signValue s * 2 ^ 128) (signValue s * 2 ^ 128) (signValue s * 2 ^ 128) := by
  cases s with
  | positive =>
    rw [signValue, one_mul]
    exact .above (.inl rfl) (by norm_num) (by norm_num)
  | negative =>
    rw [signValue, neg_one_mul]
    exact .below (.inl rfl) (by norm_num) (by norm_num)

/-- Greater terms have no smaller sum. -/
theorem Summed.mono (h : Summed p q r) (h' : Summed p' q' r') (hp : p ≤ p') (hq : q ≤ q')
    (bp : |p'| ≤ 2 ^ 128) (bq : |q'| ≤ 2 ^ 128) : r ≤ r' := by
  have hr := abs_le.1 h.abs_result_le
  have hr' := abs_le.1 h'.abs_result_le
  rw [abs_le] at bp bq
  cases h with
  | below _ _ _ => exact hr'.1
  | above h _ _ =>
    -- the greater terms have an infinite one among them as well
    cases h' with
    | above _ _ _ => exact le_rfl
    | finite hp' hq' =>
      rw [abs_lt] at hp' hq'
      rcases h with rfl | rfl
      · exact absurd hp (not_le.2 hp'.2)
      · exact absurd hq (not_le.2 hq'.2)
    | below _ hp' hq' =>
      rcases h with rfl | rfl
      · exact absurd (le_antisymm bp.2 hp) hp'
      · exact absurd (le_antisymm bq.2 hq) hq'
  | finite hp₀ hq₀ =>
    rw [abs_lt] at hp₀ hq₀
    cases h' with
    | finite _ _ => exact clamped_mono (add_le_add hp hq)
    | above _ _ _ => exact hr.2
    | below h _ _ =>
      rcases h with rfl | rfl
      · exact absurd hp (not_le.2 hp₀.1)
      · exact absurd hq (not_le.2 hq₀.1)

/-- Terms have one sum. -/
theorem Summed.unique (h : Summed p q r) (h' : Summed p q r') (hp : |p| ≤ 2 ^ 128)
    (hq : |q| ≤ 2 ^ 128) : r = r' :=
  le_antisymm (h.mono h' le_rfl le_rfl hp hq) (h'.mono h le_rfl le_rfl hp hq)

/-- A number is the sum of itself and zero. -/
theorem summed_zero (hx : IsNumber x) : Summed (level x) 0 (level x) := by
  have hzero : |(0 : ℚ)| < 2 ^ 128 := by norm_num
  rcases hx.infinity_or_isFinite with ⟨s, hs⟩ | fx
  · rw [level_infinity hs]
    exact summed_infinite s hzero
  · have hround : round32 (value x) = value x := Unpacked.rounded_value (canonical x)
    have hlt := abs_value_lt x
    rw [level_of_isFinite fx]
    have h := Summed.finite hlt hzero
    rwa [add_zero, clamped_of_lt (by rwa [hround]), hround] at h

end Sums

theorem isNumber_of_add (h : IsNumber (x + y)) : IsNumber x ∧ IsNumber y :=
  Unpacked.isNaN_eq_false_of_add (isNaN_eq_false_of_isNumber h)

theorem isNumber_and_level_infinity {s : UnpackedFloat.Sign} (h : z = ofUnpacked (.infinity s)) :
    IsNumber z ∧ level z = signValue s * 2 ^ 128 :=
  h ▸ ⟨isNumber_infinity s, level_infinity (unpack_infinity s)⟩

/-- The sum of two numbers is a number, unless they are opposite infinities. -/
theorem summed_add (hx : IsNumber x) (hy : IsNumber y) :
    IsNumber (x + y) ∧ Summed (level x) (level y) (level (x + y)) ∨
      ¬ IsNumber (x + y) ∧ level x = -level y ∧ |level y| = 2 ^ 128 := by
  have hadd : x + y = ofUnpacked (.add Format.binary32 x.toModel.unpack y.toModel.unpack) := rfl
  rcases hx.infinity_or_isFinite with ⟨s, hs⟩ | fx
  · rcases hy.infinity_or_isFinite with ⟨t, ht⟩ | fy
    · rw [level_infinity hs, level_infinity ht]
      by_cases hst : s = t
      · subst hst
        rw [hs, ht, Unpacked.infinity_add_self] at hadd
        obtain ⟨hn, hl⟩ := isNumber_and_level_infinity hadd
        exact .inl ⟨hn, hl ▸ summed_infinite_self s⟩
      · obtain rfl : t = -s := by
          cases s <;> cases t <;> first | rfl | exact absurd rfl hst
        rw [hs, ht, Unpacked.infinity_add_neg] at hadd
        refine .inr ⟨hadd ▸ not_isNumber_notANumber, ?_, ?_⟩
        · rw [Unpacked.signValue_neg, neg_mul, neg_neg]
        · rw [abs_mul, Unpacked.abs_signValue, one_mul, abs_of_pos (by norm_num)]
    · rw [hs, Unpacked.infinity_add s fy] at hadd
      obtain ⟨hn, hl⟩ := isNumber_and_level_infinity hadd
      rw [hl, level_infinity hs, level_of_isFinite fy]
      exact .inl ⟨hn, summed_infinite s (abs_value_lt y)⟩
  · rcases hy.infinity_or_isFinite with ⟨t, ht⟩ | fy
    · rw [ht, Unpacked.add_infinity t fx] at hadd
      obtain ⟨hn, hl⟩ := isNumber_and_level_infinity hadd
      rw [hl, level_infinity ht, level_of_isFinite fx]
      exact .inl ⟨hn, (summed_infinite t (abs_value_lt x)).symm⟩
    · obtain ⟨hn, hl⟩ := level_of_rounds (Unpacked.rounds_add fx fy (canonical x) (canonical y))
      rw [hadd, hl, level_of_isFinite fx, level_of_isFinite fy]
      exact .inl ⟨hn, .finite (abs_value_lt x) (abs_value_lt y)⟩

theorem unpack_neg (x : Float32) : (-x).toModel.unpack = x.toModel.unpack.neg := by
  have hb : (2 : ℕ) ≤ Format.binary32.exponentBits := by decide
  refine Unpacked.unpack_pack hb ?_ ?_
  · have hc := canonical x
    revert hc
    cases x.toModel.unpack <;> exact fun h => h
  · rw [Unpacked.value_neg, abs_neg]
    exact abs_value_lt x

theorem level_neg (x : Float32) : level (-x) = -level x := by
  rw [level, unpack_neg, Unpacked.level_neg]
  rfl

theorem isNumber_neg : IsNumber (-x) ↔ IsNumber x := by
  show (-x).toModel.unpack.isNaN = false ↔ x.toModel.unpack.isNaN = false
  rw [unpack_neg]
  cases x.toModel.unpack <;> exact Iff.rfl

theorem sub_eq_add_neg (x y : Float32) : x - y = x + -y := by
  show ofUnpacked (.sub Format.binary32 x.toModel.unpack y.toModel.unpack) =
    ofUnpacked (.add Format.binary32 x.toModel.unpack (-y).toModel.unpack)
  rw [unpack_neg, Unpacked.sub_eq_add_neg]

/-! ## Sums and differences keep the order -/

section Monotone

variable {a b c d g : Float32}

theorem summed_of_isNumber (h : IsNumber (a + b)) :
    Summed (level a) (level b) (level (a + b)) := by
  obtain ⟨ha, hb⟩ := isNumber_of_add h
  rcases summed_add ha hb with ⟨-, hs⟩ | ⟨hn, -, -⟩
  · exact hs
  · exact absurd h hn

theorem isNumber_of_sub (h : IsNumber (a - b)) : IsNumber a ∧ IsNumber b := by
  rw [sub_eq_add_neg] at h
  obtain ⟨ha, hb⟩ := isNumber_of_add h
  exact ⟨ha, isNumber_neg.1 hb⟩

theorem add_mono (hab : a ≤ b) (hcd : c ≤ d) (h : IsNumber (a + c)) (h' : IsNumber (b + d)) :
    a + c ≤ b + d := by
  obtain ⟨ha, hc⟩ := isNumber_of_add h
  obtain ⟨hb, hd⟩ := isNumber_of_add h'
  exact (le_iff_level h h').2 ((summed_of_isNumber h).mono (summed_of_isNumber h')
    ((le_iff_level ha hb).1 hab) ((le_iff_level hc hd).1 hcd) (abs_level_le b) (abs_level_le d))

theorem neg_anti (hab : a ≤ b) : -b ≤ -a := by
  obtain ⟨ha, hb⟩ := isNumber_of_le hab
  rw [le_iff_level (isNumber_neg.2 hb) (isNumber_neg.2 ha), level_neg, level_neg]
  exact neg_le_neg ((le_iff_level ha hb).1 hab)

theorem sub_anti (hab : a ≤ b) (h : IsNumber (c - a)) (h' : IsNumber (c - b)) :
    c - b ≤ c - a := by
  rw [sub_eq_add_neg] at h h' ⊢
  rw [sub_eq_add_neg]
  exact add_mono (le_refl (isNumber_of_add h).1) (neg_anti hab) h' h

/-! ## Distances -/

theorem isNumber_zero : IsNumber 0 :=
  isNumber_of_isFinite (value_ofNat (n := 0) (by norm_num)).1

theorem level_zero : level 0 = 0 := by
  obtain ⟨hfinite, hvalue⟩ := value_ofNat (n := 0) (by norm_num)
  exact (level_of_isFinite hfinite).trans (by rw [hvalue, Nat.cast_zero])

theorem nonneg_iff (hx : IsNumber x) : 0 ≤ x ↔ 0 ≤ level x := by
  rw [le_iff_level isNumber_zero hx, level_zero]

theorem le_add_of_nonneg (hg : 0 ≤ g) (h : IsNumber (a + g)) : a ≤ a + g := by
  obtain ⟨ha, hg'⟩ := isNumber_of_add h
  exact (le_iff_level ha h).2 ((summed_zero ha).mono (summed_of_isNumber h) le_rfl
    ((nonneg_iff hg').1 hg) (abs_level_le a) (abs_level_le g))

/-- Distances have a sum. -/
theorem add_nonneg (ha : 0 ≤ a) (hb : 0 ≤ b) : 0 ≤ a + b := by
  have hna := (isNumber_of_le ha).2
  have hnb := (isNumber_of_le hb).2
  have hla := (nonneg_iff hna).1 ha
  have hlb := (nonneg_iff hnb).1 hb
  rcases summed_add hna hnb with ⟨h, -⟩ | ⟨-, hopposite, habs⟩
  · exact le_trans ha (le_add_of_nonneg hb h)
  · have hzero : level b = 0 := by linarith
    rw [hzero] at habs
    norm_num at habs

/-- A number pushed to the right by a distance goes to the right. If the two have no sum, the
number is at the left end of the line. -/
theorem le_larger_add (ha : IsNumber a) (hg : 0 ≤ g) (h : IsNumber (larger c (a + g))) :
    a ≤ larger c (a + g) := by
  have hng := (isNumber_of_le hg).2
  rcases summed_add ha hng with ⟨hsum, -⟩ | ⟨-, hopposite, habs⟩
  · exact le_trans (le_add_of_nonneg hg hsum) (right_le_larger hsum)
  · rw [abs_of_nonneg ((nonneg_iff hng).1 hg)] at habs
    rw [le_iff_level ha h, hopposite, habs]
    exact (abs_le.1 (abs_level_le _)).1

/-- A number pushed to the left by a distance goes to the left. -/
theorem smaller_sub_le (ha : IsNumber a) (hg : 0 ≤ g) (h : IsNumber (smaller c (a - g))) :
    smaller c (a - g) ≤ a := by
  have hng := (isNumber_of_le hg).2
  have hlg := (nonneg_iff hng).1 hg
  rw [sub_eq_add_neg] at h ⊢
  rcases summed_add ha (isNumber_neg.2 hng) with ⟨hsum, hs⟩ | ⟨-, hopposite, habs⟩
  · refine le_trans (smaller_le_right hsum) ((le_iff_level hsum ha).2 ?_)
    rw [level_neg] at hs
    exact hs.mono (summed_zero ha) le_rfl (by linarith) (abs_level_le a) (by norm_num)
  · rw [level_neg, abs_neg, abs_of_nonneg hlg] at habs
    rw [le_iff_level h ha, hopposite, level_neg, neg_neg, habs]
    exact (abs_le.1 (abs_level_le _)).2

/-- The greatest of zero and other numbers is a distance. -/
theorem largest_nonneg (xs : List Float32) : 0 ≤ Scalar.largest xs := by
  have hstep : ∀ (acc : Float32), 0 ≤ acc → 0 ≤ xs.foldl larger acc := by
    induction xs with
    | nil => exact fun acc h => h
    | cons x xs ih =>
      exact fun acc h => ih _ (le_trans h (left_le_larger (isNumber_of_le h).2))
  exact hstep 0 (le_refl isNumber_zero)

end Monotone

/-! ## Halves -/

section Halves

variable {a b : Float32} {p r p' r' : ℚ}

theorem isNumber_of_half (h : IsNumber (Scalar.half a)) : IsNumber a :=
  Unpacked.isNaN_eq_false_of_div (isNaN_eq_false_of_isNumber h)

/-- A finite number above zero has a mantissa and the positive sign. -/
theorem exists_unpack_of_value_pos (hf : a.isFinite = true) (h : 0 < value a) :
    ∃ m e hm, a.toModel.unpack = .finite .positive m e hm := by
  rw [value] at h
  have hf : a.toModel.unpack.isFinite = true := hf
  rcases Unpacked.exists_of_isFinite hf with ⟨s, hs⟩ | ⟨s, m, e, hm, hs⟩
  · rw [hs] at h
    exact absurd h (lt_irrefl 0)
  · cases s with
    | positive => exact ⟨m, e, hm, hs⟩
    | negative =>
      rw [hs, Unpacked.value_finite, signValue, neg_one_mul] at h
      have := Unpacked.value_pos hm e
      linarith

/-- The place of a half: a finite number is rounded, and an infinite one stays. -/
inductive Halved : ℚ → ℚ → Prop
  | finite {p : ℚ} (hp : |p| < 2 ^ 128) : Halved p (round32 (p / 2))
  | infinite {p : ℚ} (hp : |p| = 2 ^ 128) : Halved p p

theorem abs_round32_half_le (hp : |p| < 2 ^ 128) : |round32 (p / 2)| ≤ 2 ^ 127 := by
  refine abs_round32_le ?_
  rw [abs_div, abs_two]
  linarith

theorem Halved.abs_result_le (h : Halved p r) : |r| ≤ 2 ^ 128 := by
  cases h with
  | finite hp => exact (abs_round32_half_le hp).trans (by norm_num)
  | infinite hp => exact hp.le

/-- A greater number has no smaller half. -/
theorem Halved.mono (h : Halved p r) (h' : Halved p' r') (hp : p ≤ p') (bp : |p'| ≤ 2 ^ 128) :
    r ≤ r' := by
  have hr := abs_le.1 h.abs_result_le
  have hr' := abs_le.1 h'.abs_result_le
  rw [abs_le] at bp
  cases h with
  | finite hlt =>
    cases h' with
    | finite _ => exact rounded_mono (by linarith)
    | infinite h =>
      rw [abs_lt] at hlt
      rcases (abs_eq (by norm_num)).1 h with rfl | rfl
      · exact hr.2
      · exact absurd hp (not_le.2 hlt.1)
  | infinite h =>
    rcases (abs_eq (by norm_num)).1 h with rfl | rfl
    · -- the greater number is the same end of the line
      obtain rfl : p' = 2 ^ 128 := le_antisymm bp.2 hp
      cases h' with
      | finite hlt => exact absurd (abs_lt.1 hlt).2 (lt_irrefl _)
      | infinite _ => exact le_rfl
    · exact hr'.1

/-- A number has one half. -/
theorem Halved.unique (h : Halved p r) (h' : Halved p r') (hp : |p| ≤ 2 ^ 128) : r = r' :=
  le_antisymm (h.mono h' le_rfl hp) (h'.mono h le_rfl hp)

theorem Halved.nonneg (h : Halved p r) (hp : 0 ≤ p) : 0 ≤ r := by
  cases h with
  | finite _ => exact rounded_nonneg _ (div_nonneg hp two_pos.le)
  | infinite _ => exact hp

/-- The half of a distance that the format holds is no greater. -/
theorem Halved.le_self (h : Halved p r) (hp : 0 ≤ p) (hround : |p| < 2 ^ 128 → round32 p = p) :
    r ≤ p := by
  cases h with
  | infinite _ => exact le_rfl
  | finite hlt =>
    calc round32 (p / 2) ≤ round32 p := rounded_mono (by linarith)
      _ = p := hround hlt

theorem halved_half (ha : IsNumber a) :
    IsNumber (Scalar.half a) ∧ Halved (level a) (level (Scalar.half a)) := by
  rcases ha.infinity_or_isFinite with ⟨s, hs⟩ | fa
  · obtain ⟨ftwo, htwo⟩ := value_ofNat (n := 2) (by norm_num)
    obtain ⟨m, e, hm, htwo⟩ := exists_unpack_of_value_pos ftwo (by rw [htwo]; norm_num)
    have hdiv : Scalar.half a = ofUnpacked (.div Format.binary32 a.toModel.unpack
        (Float32.ofNat 2).toModel.unpack) := rfl
    rw [hs, htwo, Unpacked.infinity_div] at hdiv
    obtain ⟨hn, hl⟩ := isNumber_and_level_infinity hdiv
    rw [hl, level_infinity hs]
    refine ⟨hn, .infinite ?_⟩
    rw [abs_mul, Unpacked.abs_signValue, one_mul, abs_of_pos (by norm_num)]
  · obtain ⟨ftwo, htwo⟩ := value_ofNat (n := 2) (by norm_num)
    have hdiv := isNearest_div fa ftwo (by rw [htwo]; norm_num)
    rw [htwo, Nat.cast_ofNat] at hdiv
    have hlt := abs_value_lt a
    obtain ⟨fhalf, hvalue⟩ := hdiv.finite ((abs_round32_half_le hlt).trans_lt (by norm_num))
    have hl : level (Scalar.half a) = round32 (value a / 2) :=
      (level_of_isFinite fhalf).trans hvalue
    rw [level_of_isFinite fa, hl]
    exact ⟨isNumber_of_isFinite fhalf, .finite hlt⟩

theorem half_mono (hab : a ≤ b) : Scalar.half a ≤ Scalar.half b := by
  obtain ⟨ha, hb⟩ := isNumber_of_le hab
  obtain ⟨hna, hha⟩ := halved_half ha
  obtain ⟨hnb, hhb⟩ := halved_half hb
  exact (le_iff_level hna hnb).2
    (hha.mono hhb ((le_iff_level ha hb).1 hab) (abs_level_le b))

theorem half_nonneg (ha : 0 ≤ a) : 0 ≤ Scalar.half a := by
  have hn := (isNumber_of_le ha).2
  obtain ⟨hnhalf, hhalf⟩ := halved_half hn
  exact (nonneg_iff hnhalf).2 (hhalf.nonneg ((nonneg_iff hn).1 ha))

theorem half_le_self (ha : 0 ≤ a) : Scalar.half a ≤ a := by
  have hn := (isNumber_of_le ha).2
  obtain ⟨hnhalf, hhalf⟩ := halved_half hn
  have hle := (nonneg_iff hn).1 ha
  exact (le_iff_level hnhalf hn).2 (hhalf.le_self hle (round32_level hn))

end Halves

end LayeredDrawing.Single
