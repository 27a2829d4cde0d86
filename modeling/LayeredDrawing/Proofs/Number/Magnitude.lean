import LayeredDrawing.Proofs.Number.Single

/-!
# How large rounded results become

`Within b x` says that a number is finite and not greater than `b` in magnitude. A single sum may
double such a bound, but a bound that is a power of two absorbs every term smaller by 24 places
(`Within.add_small`), so that a sum of any number of small terms keeps it (`within_foldl_add`).
The mean of numbers never exceeds their bound, however many there are (`within_mean`).
-/

namespace LayeredDrawing

open Single

/-- A finite number with a bound on its magnitude. -/
structure Within (b : ℚ) (x : Float32) : Prop where
  isFinite : x.isFinite = true
  abs_le : |value x| ≤ b

section Rounded

variable {x y : Float32} {q b : ℚ}

theorem Within.mono {c : ℚ} (h : Within b x) (hbc : b ≤ c) : Within c x :=
  ⟨h.isFinite, h.abs_le.trans hbc⟩

theorem Within.two_pow_mono {m n : ℕ} (h : Within (2 ^ m) x) (hmn : m ≤ n) : Within (2 ^ n) x :=
  h.mono (pow_le_pow_right₀ one_le_two hmn)

theorem two_pow_lt {m : ℕ} (hm : m ≤ 127) : (2 : ℚ) ^ m < 2 ^ 128 :=
  pow_lt_pow_right₀ one_lt_two (by omega)

/-- The result of an operation has the bound of its rounded value. -/
theorem within_of_isNearest {m : ℕ} (hm : m ≤ 127) (h : IsNearest x q) (hb : b ≤ 2 ^ m)
    (hq : |round32 q| ≤ b) : Within b x := by
  obtain ⟨hfinite, hvalue⟩ := h.finite ((hq.trans hb).trans_lt (two_pow_lt hm))
  exact ⟨hfinite, hvalue ▸ hq⟩

/-- Products of small integers and powers of two are kept. -/
theorem round32_natCast_mul {i : ℕ} (hi : i ≤ 2 ^ 24) (m : ℕ) :
    round32 (i * 2 ^ m) = i * 2 ^ m := by
  rcases hi.lt_or_eq with hi | rfl
  · have := rounded_of_lt Float.Model.Format.binary32 (n := i) (e := m)
      (by rw [Nat.abs_cast]; exact_mod_cast hi) (by show (-149 : ℤ) ≤ m; omega)
    simpa using this
  · have := rounded_two_zpow Float.Model.Format.binary32 (e := 24 + m)
      (by show (-149 : ℤ) ≤ 24 + m; omega)
    rw [two_zpow_add, zpow_natCast] at this
    exact_mod_cast this

theorem round32_two_pow (m : ℕ) : round32 (2 ^ m) = 2 ^ m := by
  simpa using round32_natCast_mul (i := 1) (by norm_num) m

theorem abs_round32_le {m : ℕ} (h : |q| ≤ 2 ^ m) : |round32 q| ≤ 2 ^ m :=
  abs_rounded_le (round32_two_pow m) h

/-- A power of two absorbs what is smaller by 24 places. -/
theorem abs_round32_le_of_small {m j : ℕ} (hj : j + 24 ≤ m) (h : |q| ≤ 2 ^ m + 2 ^ j) :
    |round32 q| ≤ 2 ^ m := by
  have hle : (2 : ℚ) ^ j ≤ 2 ^ ((m : ℤ) - 24) := by
    rw [← zpow_natCast]
    exact two_zpow_mono (by omega)
  have := abs_rounded_le_two_zpow Float.Model.Format.binary32 (e := m) (q := q)
    (by show (-149 : ℤ) + 24 ≤ m + 1; omega)
    (by
      rw [zpow_natCast]
      show |q| ≤ 2 ^ m + 2 ^ ((m : ℤ) - 24)
      linarith)
  rwa [zpow_natCast] at this

end Rounded

/-! ## Operations -/

section Operations

variable {x y : Float32} {m j : ℕ}

theorem Within.add_small (hm : m ≤ 127) (hj : j + 24 ≤ m) (hx : Within (2 ^ m) x)
    (hy : Within (2 ^ j) y) : Within (2 ^ m) (x + y) := by
  refine within_of_isNearest hm (isNearest_add hx.isFinite hy.isFinite) le_rfl
    (abs_round32_le_of_small hj ?_)
  exact (abs_add_le _ _).trans (add_le_add hx.abs_le hy.abs_le)

theorem Within.small_add (hm : m ≤ 127) (hj : j + 24 ≤ m) (hx : Within (2 ^ j) x)
    (hy : Within (2 ^ m) y) : Within (2 ^ m) (x + y) := by
  refine within_of_isNearest hm (isNearest_add hx.isFinite hy.isFinite) le_rfl
    (abs_round32_le_of_small hj ?_)
  rw [add_comm]
  exact (abs_add_le _ _).trans (add_le_add hy.abs_le hx.abs_le)

theorem Within.sub_small (hm : m ≤ 127) (hj : j + 24 ≤ m) (hx : Within (2 ^ m) x)
    (hy : Within (2 ^ j) y) : Within (2 ^ m) (x - y) := by
  refine within_of_isNearest hm (isNearest_sub hx.isFinite hy.isFinite) le_rfl
    (abs_round32_le_of_small hj ?_)
  exact (abs_sub _ _).trans (add_le_add hx.abs_le hy.abs_le)

theorem Within.small_sub (hm : m ≤ 127) (hj : j + 24 ≤ m) (hx : Within (2 ^ j) x)
    (hy : Within (2 ^ m) y) : Within (2 ^ m) (x - y) := by
  refine within_of_isNearest hm (isNearest_sub hx.isFinite hy.isFinite) le_rfl
    (abs_round32_le_of_small hj ?_)
  rw [abs_sub_comm]
  exact (abs_sub _ _).trans (add_le_add hy.abs_le hx.abs_le)

theorem Within.add (hm : m + 1 ≤ 127) (hx : Within (2 ^ m) x) (hy : Within (2 ^ m) y) :
    Within (2 ^ (m + 1)) (x + y) := by
  refine within_of_isNearest hm (isNearest_add hx.isFinite hy.isFinite) le_rfl (abs_round32_le ?_)
  rw [pow_succ, mul_two]
  exact (abs_add_le _ _).trans (add_le_add hx.abs_le hy.abs_le)

theorem Within.sub (hm : m + 1 ≤ 127) (hx : Within (2 ^ m) x) (hy : Within (2 ^ m) y) :
    Within (2 ^ (m + 1)) (x - y) := by
  refine within_of_isNearest hm (isNearest_sub hx.isFinite hy.isFinite) le_rfl (abs_round32_le ?_)
  rw [pow_succ, mul_two]
  exact (abs_sub _ _).trans (add_le_add hx.abs_le hy.abs_le)

theorem Within.mul (hm : m + j ≤ 127) (hx : Within (2 ^ m) x) (hy : Within (2 ^ j) y) :
    Within (2 ^ (m + j)) (x * y) := by
  refine within_of_isNearest hm (isNearest_mul hx.isFinite hy.isFinite) le_rfl (abs_round32_le ?_)
  rw [abs_mul, pow_add]
  exact mul_le_mul hx.abs_le hy.abs_le (abs_nonneg _) (pow_pos two_pos m).le

theorem within_ofNat (hm : m ≤ 127) {n : ℕ} (hn : n ≤ 2 ^ m) :
    Within (2 ^ m) (Float32.ofNat n) := by
  refine within_of_isNearest hm (isNearest_ofNat n) le_rfl (abs_round32_le ?_)
  rw [Nat.abs_cast]
  exact_mod_cast hn

theorem value_ofNat {n : ℕ} (hn : n ≤ 2 ^ 24) :
    (Float32.ofNat n).isFinite = true ∧ value (Float32.ofNat n) = n := by
  have h := isNearest_ofNat n
  rw [← round32_natCast hn]
  refine h.finite ?_
  rw [round32_natCast hn, Nat.abs_cast]
  exact_mod_cast hn.trans_lt (by norm_num)

/-- Half of a number is below half of its bound. -/
theorem Within.half (hm : m ≤ 127) (hx : Within (2 ^ (m + 1)) x) :
    Within (2 ^ m) (Scalar.half x) := by
  obtain ⟨hfinite, htwo⟩ := value_ofNat (n := 2) (by norm_num)
  have hdiv := isNearest_div hx.isFinite hfinite (by rw [htwo]; norm_num)
  refine within_of_isNearest hm hdiv le_rfl (abs_round32_le ?_)
  rw [htwo, abs_div, Nat.abs_cast, div_le_iff₀ (by norm_num)]
  have := hx.abs_le
  rwa [pow_succ] at this

theorem within_zero {b : ℚ} (hb : 0 ≤ b) : Within b (Scalar.zero : Float32) := by
  obtain ⟨hfinite, hzero⟩ := value_ofNat (n := 0) (by norm_num)
  refine ⟨hfinite, ?_⟩
  show |value (Float32.ofNat 0)| ≤ b
  rwa [hzero, Nat.cast_zero, abs_zero]

theorem Within.larger {b : ℚ} (hx : Within b x) (hy : Within b y) : Within b (larger x y) := by
  rw [Single.larger]
  split
  · exact hy
  · split
    · exact hy
    · exact hx

theorem Within.smaller {b : ℚ} (hx : Within b x) (hy : Within b y) : Within b (smaller x y) := by
  rw [Single.smaller]
  split
  · exact hy
  · split
    · exact hy
    · exact hx

end Operations

/-! ## Lists -/

section Lists

variable {m j : ℕ} {b : ℚ} {xs : List Float32}

theorem within_largest (hxs : ∀ x ∈ xs, Within (2 ^ m) x) :
    Within (2 ^ m) (Scalar.largest xs) :=
  List.foldlRecOn xs _ (within_zero (pow_pos two_pos m).le) fun _ hx y hy => hx.larger (hxs y hy)

theorem within_least? (hxs : ∀ x ∈ xs, Within b x) {y : Float32} (hy : Scalar.least? xs = some y) :
    Within b y := by
  cases xs with
  | nil => cases hy
  | cons x xs =>
    obtain ⟨hx, hxs⟩ := List.forall_mem_cons.1 hxs
    obtain rfl := Option.some.inj hy
    exact List.foldlRecOn xs _ hx fun _ hz y hy => hz.smaller (hxs y hy)

/-- The sum of any number of small terms. -/
theorem within_sum (hm : m ≤ 127) (hj : j + 24 ≤ m) (hxs : ∀ x ∈ xs, Within (2 ^ j) x) :
    Within (2 ^ m) (Scalar.sum xs) := by
  refine List.foldlRecOn xs _ ⟨by decide, ?_⟩ fun _ hx y hy => hx.add_small hm hj (hxs y hy)
  have hzero : (Scalar.emptySum : Float32).toModel.unpack = .zero .negative := by rfl
  rw [value, hzero, Unpacked.value_zero, abs_zero]
  exact (pow_pos two_pos m).le

/-- Sums grow with the number of their terms until they absorb further ones. -/
theorem within_foldl_add (hm : m + 24 ≤ 127) (hxs : ∀ x ∈ xs, Within (2 ^ m) x) {i : ℕ}
    (hi : i ≤ 2 ^ 24) {acc : Float32} (hacc : Within (i * 2 ^ m) acc) :
    Within ((min (i + xs.length) (2 ^ 24) : ℕ) * 2 ^ m) (xs.foldl (· + ·) acc) := by
  induction xs generalizing i acc with
  | nil =>
    rw [List.length_nil, add_zero, min_eq_left hi]
    exact hacc
  | cons x xs ih =>
    obtain ⟨hx, hxs⟩ := List.forall_mem_cons.1 hxs
    rw [List.foldl_cons, List.length_cons]
    rcases hi.lt_or_eq with hi | rfl
    · have hstep : Within ((i + 1 : ℕ) * 2 ^ m) (acc + x) := by
        refine within_of_isNearest hm (isNearest_add hacc.isFinite hx.isFinite) ?_
          (abs_rounded_le (round32_natCast_mul hi m) ?_)
        · rw [pow_add, mul_comm]
          refine mul_le_mul_of_nonneg_left ?_ (pow_pos two_pos m).le
          exact_mod_cast hi
        · refine (abs_add_le _ _).trans ((add_le_add hacc.abs_le hx.abs_le).trans (le_of_eq ?_))
          push_cast
          ring
      have := ih hxs hi hstep
      rwa [Nat.succ_add] at this
    · have hbound : ((2 ^ 24 : ℕ) : ℚ) * 2 ^ m = 2 ^ (m + 24) := by
        push_cast
        ring
      have hstep : Within ((2 ^ 24 : ℕ) * 2 ^ m) (acc + x) := by
        rw [hbound] at hacc ⊢
        exact hacc.add_small hm le_rfl hx
      have := ih hxs le_rfl hstep
      rw [min_eq_right (by omega)] at this ⊢
      exact this

/-- The mean of numbers is not greater than their bound. -/
theorem within_mean (hm : m + 24 ≤ 127) (hxs : ∀ x ∈ xs, Within (2 ^ m) x) {y : Float32}
    (hy : Scalar.mean? xs = some y) : Within (2 ^ m) y := by
  obtain ⟨hne, rfl⟩ : xs ≠ [] ∧
      xs.foldl (· + ·) Scalar.zero / Float32.ofNat xs.length = y := by
    cases xs with
    | nil => cases hy
    | cons x xs => exact ⟨List.cons_ne_nil x xs, Option.some.inj hy⟩
  have hzero : Within ((0 : ℕ) * 2 ^ m) (Scalar.zero : Float32) := within_zero (by simp)
  have hsum := within_foldl_add hm hxs (Nat.zero_le _) hzero
  rw [zero_add] at hsum
  have hcount := isNearest_ofNat xs.length
  rcases lt_or_ge |round32 xs.length| (2 ^ 128) with h | h
  · obtain ⟨hfinite, hvalue⟩ := hcount.finite h
    have hle : ((min xs.length (2 ^ 24) : ℕ) : ℚ) ≤ value (Float32.ofNat xs.length) := by
      rw [hvalue, ← round32_natCast (min_le_right xs.length (2 ^ 24))]
      refine rounded_mono ?_
      exact_mod_cast min_le_left _ _
    have hpos : (0 : ℚ) < value (Float32.ofNat xs.length) := by
      refine lt_of_lt_of_le ?_ hle
      have := List.length_pos_iff.2 hne
      exact_mod_cast lt_min this (by norm_num)
    refine within_of_isNearest (by omega) (isNearest_div hsum.isFinite hfinite hpos.ne') le_rfl
      (abs_round32_le ?_)
    rw [abs_div, abs_of_pos hpos, div_le_iff₀ hpos, mul_comm]
    exact hsum.abs_le.trans (mul_le_mul_of_nonneg_right hle (pow_pos two_pos m).le)
  · obtain ⟨s, hs⟩ := hcount.infinite h
    have hzero : |round32 0| ≤ (0 : ℚ) := by rw [round32, rounded_zero, abs_zero]
    exact (within_of_isNearest (Nat.zero_le _) (isNearest_div_infinity hsum.isFinite hs)
      (pow_pos two_pos 0).le hzero).mono (pow_pos two_pos m).le

end Lists

end LayeredDrawing
