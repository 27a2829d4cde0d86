import LayeredDrawing.Proofs.Number.Rounding

/-!
# Rounding of unpacked numbers

The arithmetic of a binary format works on unpacked numbers: a sign, a mantissa and an exponent. A
mantissa that is shifted to the right keeps two bits of what it loses, whether that is at least
half of a last place and whether it is anything else (`Represents`). These are enough to round to
the nearest even mantissa (`roundedMantissa_eq`), so that a mantissa shifted to the last place of
the number it stands for is the rounded number, in the one form that the format has for it
(`rounds_roundWithAccuracy`).
-/

namespace LayeredDrawing.Unpacked

open Float.Model (Format UnpackedFloat totalExponent)
open Float.Model.UnpackedFloat (Accuracy ExtendedMantissa Sign roundWithAccuracy shiftToExponent
  shiftToTargetExponent)

/-! ## Mantissas with two more bits -/

/-- The mantissa is that of a number, and the bits tell what the number has beyond it. -/
structure Represents (em : ExtendedMantissa) (q : ℚ) : Prop where
  floor : ⌊q⌋ = em.mantissa
  roundBit : em.roundBit = true ↔ 1 / 2 ≤ Int.fract q
  stickyBit : em.stickyBit = true ↔ Int.fract q ≠ 0 ∧ Int.fract q ≠ 1 / 2

/-- What a comparison tells about a fraction. -/
def Describes : Accuracy → ℚ → Prop
  | .exact, f => f = 0
  | .inexact .lt, f => 0 < f ∧ f < 1 / 2
  | .inexact .eq, f => f = 1 / 2
  | .inexact .gt, f => 1 / 2 < f

variable {em : ExtendedMantissa} {q : ℚ}

theorem represents_ofMantissaAndAccuracy {m : ℕ} {a : Accuracy} (hm : ⌊q⌋ = m)
    (ha : Describes a (Int.fract q)) :
    Represents (.ofMantissaAndAccuracy m a) q := by
  match a, ha with
  | .exact, h =>
    have h : Int.fract q = 0 := h
    constructor <;> simp [ExtendedMantissa.ofMantissaAndAccuracy, hm, h]
  | .inexact .lt, h =>
    obtain ⟨h₁, h₂⟩ : 0 < Int.fract q ∧ Int.fract q < 1 / 2 := h
    constructor <;> simp [ExtendedMantissa.ofMantissaAndAccuracy, hm]
    · linarith
    · exact ⟨h₁.ne', by linarith⟩
  | .inexact .eq, h =>
    have h : Int.fract q = 1 / 2 := h
    constructor <;> simp [ExtendedMantissa.ofMantissaAndAccuracy, hm, h]
  | .inexact .gt, h =>
    have h : 1 / 2 < Int.fract q := h
    constructor <;> simp [ExtendedMantissa.ofMantissaAndAccuracy, hm]
    · linarith
    · exact ⟨by linarith, by linarith⟩

theorem Represents.shiftRightOne (h : Represents em q) : Represents em.shiftRightOne (q / 2) := by
  have hfloor : ⌊q / 2⌋ = ((em.mantissa / 2 : ℕ) : ℤ) := by
    have := Int.floor_div_natCast q 2
    rw [h.floor] at this
    exact_mod_cast this
  have hfract : Int.fract (q / 2) = ((em.mantissa % 2 : ℕ) + Int.fract q) / 2 := by
    have hq : (⌊q⌋ : ℚ) = em.mantissa := by exact_mod_cast h.floor
    have hm : ((em.mantissa / 2 : ℕ) : ℚ) * 2 + (em.mantissa % 2 : ℕ) = em.mantissa := by
      exact_mod_cast Nat.div_add_mod' em.mantissa 2
    have hq' : (⌊q / 2⌋ : ℚ) = (em.mantissa / 2 : ℕ) := by rw [hfloor, Int.cast_natCast]
    rw [Int.fract, Int.fract, hq, hq']
    linarith
  have h0 := Int.fract_nonneg q
  have h1 := Int.fract_lt_one q
  have hsticky : em.shiftRightOne.stickyBit = true ↔ Int.fract q ≠ 0 := by
    show (em.roundBit || em.stickyBit) = true ↔ _
    rw [Bool.or_eq_true, h.roundBit, h.stickyBit]
    constructor
    · rintro (h | ⟨h, -⟩)
      · linarith
      · exact h
    · intro h
      rcases eq_or_ne (Int.fract q) (1 / 2) with e | e
      · exact .inl e.ge
      · exact .inr ⟨h, e⟩
  have hround : em.shiftRightOne.roundBit = true ↔ em.mantissa % 2 = 1 := by
    show (em.mantissa % 2 != 0) = true ↔ _
    rw [bne_iff_ne]
    omega
  refine ⟨hfloor, ?_, ?_⟩
  · rw [hround, hfract]
    rcases Nat.mod_two_eq_zero_or_one em.mantissa with e | e
    · rw [e]
      refine iff_of_false zero_ne_one (not_le.2 ?_)
      rw [Nat.cast_zero]
      linarith
    · rw [e]
      refine iff_of_true rfl ?_
      rw [Nat.cast_one]
      linarith
  · rw [hsticky, hfract]
    rcases Nat.mod_two_eq_zero_or_one em.mantissa with e | e
    · rw [e, Nat.cast_zero, zero_add]
      refine ⟨fun h => ⟨by simpa using h, by linarith⟩, fun h => by simpa using h.1⟩
    · rw [e, Nat.cast_one]
      refine ⟨fun h => ⟨by linarith, fun h' => h (by linarith)⟩, fun h h' => h.2 (by rw [h']; ring)⟩

theorem Represents.shiftRight (h : Represents em q) (n : ℕ) :
    Represents (em >>> n) (q / 2 ^ n) := by
  induction n with
  | zero =>
    rw [pow_zero, div_one]
    exact h
  | succ n ih =>
    rw [pow_succ, ← div_div]
    exact ih.shiftRightOne

/-- The two bits decide how a number is rounded. -/
theorem Represents.roundedMantissa (h : Represents em q) :
    (em.roundedMantissa : ℤ) = roundEven q := by
  obtain ⟨m, r, s⟩ := em
  have hround := h.roundBit
  have hsticky := h.stickyBit
  have hfloor : ⌊q⌋ = m := h.floor
  cases r with
  | false =>
    have hlt : Int.fract q < 1 / 2 := not_le.1 fun h => by simpa using hround.2 h
    rw [roundEven_of_lt hlt, hfloor]
    cases s <;> rfl
  | true =>
    have hge : 1 / 2 ≤ Int.fract q := hround.1 rfl
    cases s with
    | false =>
      have heq : Int.fract q = 1 / 2 := by
        by_contra hne
        simpa using hsticky.2 ⟨by linarith, hne⟩
      rw [roundEven_of_eq heq, hfloor]
      rfl
    | true =>
      have hgt : 1 / 2 < Int.fract q := hge.lt_of_ne (hsticky.1 rfl).2.symm
      rw [roundEven_of_gt hgt, hfloor]
      rfl

/-! ## Numbers in canonical form -/

/-- The sign as a number. -/
def signValue : Sign → ℚ
  | .positive => 1
  | .negative => -1

/-- The number that an unpacked one stands for; infinities and undefined numbers stand for none,
and are given zero. -/
def value : UnpackedFloat → ℚ
  | .finite s m e _ => signValue s * (m * 2 ^ e)
  | _ => 0

@[simp] theorem value_zero (s : Sign) : value (.zero s) = 0 := rfl

@[simp] theorem value_finite (s : Sign) (m : ℕ) (e : ℤ) (hm : 0 < m) :
    value (.finite s m e hm) = signValue s * (m * 2 ^ e) := rfl

/-- A finite number is a zero or has a mantissa. -/
theorem exists_of_isFinite {x : UnpackedFloat} (h : x.isFinite = true) :
    (∃ s, x = .zero s) ∨ ∃ s m e hm, x = .finite s m e hm := by
  cases x with
  | infinity s => cases h
  | notANumber => cases h
  | zero s => exact .inl ⟨s, rfl⟩
  | finite s m e hm => exact .inr ⟨s, m, e, hm, rfl⟩

theorem cast_apply (s : Sign) (n : ℤ) : (s.apply n : ℚ) = signValue s * n := by
  cases s <;> simp [Sign.apply, signValue]

theorem signValue_neg (s : Sign) : signValue (-s) = -signValue s := by
  cases s
  · exact (neg_neg 1).symm
  · rfl

theorem signValue_mul (s t : Sign) : signValue (s * t) = signValue s * signValue t := by
  cases s <;> cases t <;> simp [signValue]

theorem signValue_div (s t : Sign) : signValue (s / t) = signValue s / signValue t := by
  have h : s / t = s * t := rfl
  have ht : (signValue t)⁻¹ = signValue t := by cases t <;> simp [signValue]
  rw [h, signValue_mul, div_eq_mul_inv, ht]

theorem abs_signValue (s : Sign) : |signValue s| = 1 := by
  cases s <;> simp [signValue]

theorem rounded_signValue_mul (format : Format) (s : Sign) (q : ℚ) :
    rounded format (signValue s * q) = signValue s * rounded format q := by
  cases s <;> simp [signValue, rounded_neg]

/-- A mantissa and an exponent as a format has them: the mantissa is full, unless the exponent is
the least one. -/
structure IsCanonical (format : Format) (m : ℕ) (e : ℤ) : Prop where
  lt : m < 2 ^ format.mantissaBits
  minExponent_le : format.minExponent ≤ e
  full : 2 ^ (format.mantissaBits - 1) ≤ m ∨ e = format.minExponent

/-- An unpacked number in canonical form. -/
def Canonical (format : Format) : UnpackedFloat → Prop
  | .finite _ m e _ => IsCanonical format m e
  | _ => True

/-- The result of an operation with the given exact value: it is finite, in canonical form and
rounded correctly. -/
structure Rounds (format : Format) (x : UnpackedFloat) (q : ℚ) : Prop where
  isFinite : x.isFinite = true
  canonical : Canonical format x
  value_eq : value x = rounded format q

/-- The mantissa and the exponent of a finite result, or a zero. -/
def ofParts (s : Sign) (m : ℕ) (e : ℤ) : UnpackedFloat :=
  if h : m = 0 then .zero s else .finite s m e (Nat.pos_of_ne_zero h)

variable {format : Format}

theorem value_ofParts (s : Sign) (m : ℕ) (e : ℤ) :
    value (ofParts s m e) = signValue s * (m * 2 ^ e) := by
  by_cases h : m = 0
  · rw [ofParts, dif_pos h, value_zero, h, Nat.cast_zero, zero_mul, mul_zero]
  · rw [ofParts, dif_neg h, value_finite]

theorem isFinite_ofParts (s : Sign) (m : ℕ) (e : ℤ) : (ofParts s m e).isFinite = true := by
  by_cases h : m = 0
  · rw [ofParts, dif_pos h]
    rfl
  · rw [ofParts, dif_neg h]
    rfl

theorem canonical_ofParts {s : Sign} {m : ℕ} {e : ℤ} (h : IsCanonical format m e) :
    Canonical format (ofParts s m e) := by
  by_cases hm : m = 0
  · rw [ofParts, dif_pos hm]
    trivial
  · rw [ofParts, dif_neg hm]
    exact h

/-- The rounded mantissa of a number, shifted once more if the rounding has carried. -/
theorem roundWithAccuracy_eq (s : Sign) (m : ℕ) (e : ℤ) (a : Accuracy) :
    roundWithAccuracy format s m e a =
      ofParts s
        (shiftToTargetExponent format (shiftToTargetExponent format m e a).1.roundedMantissa
          (shiftToTargetExponent format m e a).2 .exact).1.mantissa
        (shiftToTargetExponent format (shiftToTargetExponent format m e a).1.roundedMantissa
          (shiftToTargetExponent format m e a).2 .exact).2 := rfl

/-! ## Rounding -/

section Rounding

variable {m : ℕ} {e t : ℤ}

/-- A mantissa that has been rounded is shifted by one place if it has become a power of two with
one more place, and not at all otherwise. -/
theorem isCanonical_carry (hm : m ≤ 2 ^ format.mantissaBits) (ht : format.minExponent ≤ t)
    (hfull : 2 ^ (format.mantissaBits - 1) ≤ m ∨ t = format.minExponent) :
    let x := shiftToTargetExponent format m t .exact
    (x.1.mantissa : ℚ) * 2 ^ x.2 = m * 2 ^ t ∧ IsCanonical format x.1.mantissa x.2 := by
  have hp := two_le_mantissaBits format
  intro x
  rcases hm.lt_or_eq with hlt | rfl
  · have hlog : m.log2 < format.mantissaBits := by
      rcases eq_or_ne m 0 with rfl | hm0
      · rw [Nat.log2_zero]
        omega
      · exact (Nat.log2_lt hm0).2 hlt
    have hshift : (format.targetExponent (totalExponent m t) - t).toNat = 0 := by
      rw [Format.targetExponent, totalExponent]
      omega
    have hx : x = (⟨m, false, false⟩, t + ((0 : ℕ) : ℤ)) := by
      show shiftToExponent m t .exact _ = _
      rw [shiftToExponent, hshift]
      rfl
    rw [hx, Nat.cast_zero, add_zero]
    exact ⟨rfl, hlt, ht, hfull⟩
  · have hlog : (2 ^ format.mantissaBits).log2 = format.mantissaBits := Nat.log2_two_pow
    have hshift : (format.targetExponent (totalExponent (2 ^ format.mantissaBits) t) - t).toNat =
        1 := by
      rw [Format.targetExponent, totalExponent, hlog]
      omega
    have hx : x = (ExtendedMantissa.shiftRightOne ⟨2 ^ format.mantissaBits, false, false⟩,
        t + ((1 : ℕ) : ℤ)) := by
      show shiftToExponent _ t .exact _ = _
      rw [shiftToExponent, hshift]
      rfl
    have hhalf : x.1.mantissa = 2 ^ (format.mantissaBits - 1) := by
      rw [hx]
      show 2 ^ format.mantissaBits / 2 = _
      rw [← Nat.pow_div (by omega) two_pos, pow_one]
    rw [hhalf, hx]
    refine ⟨?_, ?_, ?_, .inl le_rfl⟩
    · have hpow : (2 : ℕ) ^ format.mantissaBits = 2 ^ (format.mantissaBits - 1) * 2 := by
        rw [← pow_succ, Nat.sub_add_cancel (by omega)]
      rw [hpow, Nat.cast_one, zpow_add_one₀ two_ne_zero]
      push_cast
      ring
    · exact Nat.pow_lt_pow_right one_lt_two (by omega)
    · show format.minExponent ≤ t + ((1 : ℕ) : ℤ)
      omega

section Magnitude

variable (hm : ⌊q / 2 ^ e⌋ = m)

include hm

/-- The mantissa of a number bounds it from below. -/
theorem two_zpow_le_of_floor (hm0 : m ≠ 0) : (2 : ℚ) ^ (m.log2 + e) ≤ q := by
  have hle : (m : ℚ) ≤ q / 2 ^ e := by
    have := Int.floor_le (q / 2 ^ e)
    rwa [hm, Int.cast_natCast] at this
  rw [le_div_iff₀ (two_zpow_pos e)] at hle
  refine le_trans ?_ hle
  rw [two_zpow_add, zpow_natCast]
  refine mul_le_mul_of_nonneg_right ?_ (two_zpow_pos e).le
  exact_mod_cast Nat.log2_self_le hm0

/-- The mantissa of a number bounds it from above. -/
theorem lt_two_zpow_totalExponent : q < 2 ^ totalExponent m e := by
  have hlt : q / 2 ^ e < m + 1 := by
    have := Int.lt_floor_add_one (q / 2 ^ e)
    rwa [hm, Int.cast_natCast] at this
  rw [div_lt_iff₀ (two_zpow_pos e)] at hlt
  refine hlt.trans_le ?_
  rw [totalExponent, two_zpow_add]
  refine mul_le_mul_of_nonneg_right ?_ (two_zpow_pos e).le
  have : m + 1 ≤ 2 ^ (m.log2 + 1) := Nat.lt_log2_self
  exact_mod_cast this

/-- The place to which a mantissa is shifted is the last one of the number it belongs to. -/
theorem targetExponent_eq_lastPlace (hq : 0 < q)
    (he : e ≤ format.targetExponent (totalExponent m e)) :
    format.targetExponent (totalExponent m e) = lastPlace format q := by
  have hp := two_le_mantissaBits format
  have hlog : Int.log 2 q < totalExponent m e :=
    (Int.lt_zpow_iff_log_lt one_lt_two hq).1 (by exact_mod_cast lt_two_zpow_totalExponent hm)
  rw [lastPlace, abs_of_pos hq]
  rcases eq_or_ne m 0 with rfl | hm0
  · -- A number below the place of its mantissa is below the least place.
    simp only [Format.targetExponent, totalExponent, Nat.log2_zero] at *
    omega
  · have hge : m.log2 + e ≤ Int.log 2 q :=
      (Int.zpow_le_iff_le_log one_lt_two hq).1 (by exact_mod_cast two_zpow_le_of_floor hm hm0)
    have heq : Int.log 2 q + 1 = totalExponent m e := by
      rw [totalExponent] at *
      omega
    rw [heq]

end Magnitude

variable {s : Sign} {a : Accuracy}

/-- A number whose mantissa and accuracy are known at a place that is not above its last one is
rounded to the nearest number of the format. -/
theorem rounds_roundWithAccuracy (hq : 0 ≤ q) (hm : ⌊q / 2 ^ e⌋ = m)
    (ha : Describes a (Int.fract (q / 2 ^ e)))
    (he : e ≤ format.targetExponent (totalExponent m e)) :
    Rounds format (roundWithAccuracy format s m e a) (signValue s * q) := by
  have hp := two_le_mantissaBits format
  obtain ⟨t, ht⟩ : ∃ t, format.targetExponent (totalExponent m e) = t := ⟨_, rfl⟩
  have hmax : t = max (totalExponent m e - format.mantissaBits) format.minExponent := ht.symm
  obtain ⟨em, hem⟩ : ∃ em, shiftToTargetExponent format m e a = (em, t) := by
    refine ⟨_, Prod.ext rfl ?_⟩
    show e + ((format.targetExponent (totalExponent m e) - e).toNat : ℤ) = t
    omega
  have hrep : Represents em (q / 2 ^ t) := by
    have h := (represents_ofMantissaAndAccuracy hm ha).shiftRight (t - e).toNat
    have hdiv : q / 2 ^ e / 2 ^ (t - e).toNat = q / 2 ^ t := by
      rw [div_div, ← zpow_natCast, ← two_zpow_add]
      congr 2
      omega
    have hshift : em = ExtendedMantissa.ofMantissaAndAccuracy m a >>> (t - e).toNat := by
      rw [← ht]
      exact (congrArg Prod.fst hem).symm
    rwa [hdiv, ← hshift] at h
  have hrounded : rounded format q = em.roundedMantissa * 2 ^ t := by
    have hint : (em.roundedMantissa : ℚ) = roundEven (q / 2 ^ t) := by
      exact_mod_cast hrep.roundedMantissa
    rcases hq.lt_or_eq with hq | rfl
    · rw [rounded, ← targetExponent_eq_lastPlace hm hq he, ht, hint]
    · rw [hint, zero_div, rounded_zero, roundEven_zero, Int.cast_zero, zero_mul]
  have hle : em.roundedMantissa ≤ 2 ^ format.mantissaBits := by
    have : (em.roundedMantissa : ℤ) ≤ 2 ^ format.mantissaBits := by
      rw [hrep.roundedMantissa]
      refine roundEven_le ?_
      rw [div_le_iff₀ (two_zpow_pos t), Int.cast_pow, Int.cast_ofNat, ← zpow_natCast,
        ← two_zpow_add]
      exact (lt_two_zpow_totalExponent hm).le.trans (two_zpow_mono (by omega))
    exact_mod_cast this
  have hfull : 2 ^ (format.mantissaBits - 1) ≤ em.roundedMantissa ∨ t = format.minExponent := by
    rcases eq_or_ne m 0 with rfl | hm0
    · refine .inr ?_
      rw [ht, hmax] at he
      rw [hmax]
      simp only [totalExponent, Nat.log2_zero] at *
      omega
    · refine or_iff_not_imp_right.2 fun hne => ?_
      have : (2 : ℤ) ^ (format.mantissaBits - 1) ≤ em.roundedMantissa := by
        rw [hrep.roundedMantissa]
        refine le_roundEven ?_
        rw [le_div_iff₀ (two_zpow_pos t), Int.cast_pow, Int.cast_ofNat, ← zpow_natCast,
          ← two_zpow_add]
        refine le_trans (two_zpow_mono ?_) (two_zpow_le_of_floor hm hm0)
        rw [totalExponent] at hmax
        omega
      exact_mod_cast this
  obtain ⟨hvalue, hcanonical⟩ := isCanonical_carry hle (by omega) hfull
  rw [roundWithAccuracy_eq, hem]
  refine ⟨isFinite_ofParts .., canonical_ofParts hcanonical, ?_⟩
  rw [value_ofParts, hvalue, ← hrounded, rounded_signValue_mul]

end Rounding

end LayeredDrawing.Unpacked
