import LayeredDrawing.Proofs.Number.Order

/-!
# Multiples of a distance

The multiples of a distance by the natural numbers, each of which is rounded, do not decrease with
the number, and neither do the places at these multiples from a start. A product beyond the range of
the format is infinite, one of an infinite number and zero is no number, and so are all that follow
it.

The multiple by zero is a zero with the sign of the distance, and all multiples have that sign. A
place at a multiple is therefore the same from the start and from the start with the multiple by
zero added, which differ if the start is the zero of the other sign (`add_add_zero`).

* `ofNat_mono`, `mul_mono_left`, `add_mono_of_nonneg`: the operations keep the order, as far as
  their results are numbers.
* `add_multiple_mono`, `add_zero_multiple_add`: **places at multiples of a distance.**
-/

namespace LayeredDrawing

open Float.Model (Format UnpackedFloat)
open Float.Model.UnpackedFloat (Sign)

/-! ## Signs -/

namespace Unpacked

open Float.Model.UnpackedFloat (pack unpack)

variable {format : Format} {x y : UnpackedFloat} {s t : Sign}

/-- A number, zeros and infinite ones included, is of the sign. -/
def HasSign (s : Sign) : UnpackedFloat → Prop
  | .infinity t => t = s
  | .zero t => t = s
  | .finite t _ _ _ => t = s
  | .notANumber => True

theorem exists_hasSign (x : UnpackedFloat) : ∃ s, HasSign s x := by
  cases x with
  | infinity t => exact ⟨t, rfl⟩
  | zero t => exact ⟨t, rfl⟩
  | finite t m e hm => exact ⟨t, rfl⟩
  | notANumber => exact ⟨.positive, trivial⟩

theorem hasSign_ofParts (s : Sign) (m : ℕ) (e : ℤ) : HasSign s (ofParts s m e) := by
  by_cases h : m = 0
  · rw [ofParts, dif_pos h]
    rfl
  · rw [ofParts, dif_neg h]
    rfl

/-- The sign of a product is that of its factors. -/
theorem hasSign_mul (hx : HasSign s x) (hy : HasSign t y) :
    HasSign (s * t) (.mul format x y) := by
  cases x with
  | notANumber => trivial
  | infinity _ => cases hx; cases y <;> first | trivial | exact congrArg _ hy
  | zero _ => cases hx; cases y <;> first | trivial | exact congrArg _ hy
  | finite _ m e hm =>
    cases hx
    cases y with
    | finite _ n f hn =>
      cases hy
      exact hasSign_ofParts _ _ _
    | notANumber => trivial
    | infinity _ | zero _ => exact congrArg _ hy

theorem canonical_mul (cx : Canonical format x) (cy : Canonical format y) :
    Canonical format (.mul format x y) := by
  cases x with
  | finite s m e hm =>
    cases y with
    | finite t n f hn => exact (rounds_mul rfl rfl cx cy).canonical
    | infinity _ | notANumber | zero _ => trivial
  | infinity _ | notANumber | zero _ => cases y <;> trivial

/-- The sign of a quotient is that of its operands. -/
theorem hasSign_div (hx : HasSign s x) (hy : HasSign t y) :
    HasSign (s / t) (.div format x y) := by
  cases x with
  | notANumber => trivial
  | infinity _ => cases hx; cases y <;> first | trivial | exact congrArg _ hy
  | zero _ => cases hx; cases y <;> first | trivial | exact congrArg _ hy
  | finite _ m e hm =>
    cases hx
    cases y with
    | finite _ n f hn =>
      cases hy
      rw [UnpackedFloat.div, UnpackedFloat.divCore]
      dsimp only
      rw [roundWithAccuracy_eq]
      exact hasSign_ofParts _ _ _
    | notANumber => trivial
    | infinity _ | zero _ => exact congrArg _ hy

theorem canonical_div (x y : UnpackedFloat) : Canonical format (.div format x y) := by
  cases x with
  | finite s m e hm =>
    cases y with
    | finite t n f hn =>
      have hne : value (.finite t n f hn) ≠ 0 := by
        have hpos := value_pos hn f
        rw [value_finite]
        cases t <;> simp only [signValue] <;> linarith
      exact (rounds_div rfl rfl hne).canonical
    | infinity _ | notANumber | zero _ => trivial
  | infinity _ | notANumber | zero _ => cases y <;> trivial

/-- The bits of a number keep its sign. -/
theorem hasSign_unpack_pack (hb : 2 ≤ format.exponentBits) (hc : Canonical format x)
    (h : HasSign s x) : HasSign s (unpack format (pack format x)) := by
  rcases lt_or_ge |value x| (bound format) with hlt | hle
  · rwa [unpack_pack hb hc hlt]
  · obtain ⟨t, ht, habs⟩ := unpack_pack_of_le hb hc hle
    rw [ht]
    have hne : value x ≠ 0 := fun h0 => by
      rw [h0, abs_zero] at hle
      exact absurd hle (not_le.2 (bound_pos format))
    obtain ⟨m, e, hm, rfl⟩ : ∃ m e hm, x = .finite s m e hm := by
      cases x with
      | finite _ m e hm => exact ⟨m, e, hm, by cases h; rfl⟩
      | infinity _ | notANumber | zero _ => exact absurd rfl hne
    have hpos := value_pos hm e
    rw [value_finite, abs_mul, abs_signValue, one_mul, abs_of_pos hpos] at habs
    cases s <;> cases t <;> first | rfl | (simp only [signValue] at habs; linarith)

variable (format) in
/-- The sum of zeros is a zero. -/
theorem exists_zero_add_zero (s t : Sign) :
    ∃ r, UnpackedFloat.add format (.zero s) (.zero t) = .zero r := by
  cases s <;> cases t <;> exact ⟨_, rfl⟩

/-- A zero that is added first makes no difference, if what is added next is not the zero of the
other sign. -/
theorem add_add_zero (x : UnpackedFloat) (hy : HasSign s y) :
    UnpackedFloat.add format (.add format x (.zero s)) y = .add format x y := by
  cases x with
  | notANumber | infinity _ | finite _ _ _ _ => rfl
  | zero t =>
    cases y with
    | zero _ => cases hy; cases s <;> cases t <;> rfl
    | notANumber | infinity _ | finite _ _ _ _ =>
      obtain ⟨r, hr⟩ := exists_zero_add_zero format t s
      rw [hr]
      rfl

end Unpacked

namespace Single

open Unpacked (Canonical HasSign signValue)

variable {a b c p q x y z : Float32} {s t : Sign}

theorem hasSign_mul (hx : HasSign s x.toModel.unpack) (hy : HasSign t y.toModel.unpack) :
    HasSign (s * t) (x * y).toModel.unpack :=
  Unpacked.hasSign_unpack_pack (by decide) (Unpacked.canonical_mul (canonical x) (canonical y))
    (Unpacked.hasSign_mul hx hy)

theorem hasSign_div (hx : HasSign s x.toModel.unpack) (hy : HasSign t y.toModel.unpack) :
    HasSign (s / t) (x / y).toModel.unpack :=
  Unpacked.hasSign_unpack_pack (by decide) (Unpacked.canonical_div _ _)
    (Unpacked.hasSign_div hx hy)

theorem unpack_add_zero (hz : z.toModel.unpack = .zero s) :
    (x + z).toModel.unpack = .add Format.binary32 x.toModel.unpack (.zero s) := by
  have hadd : x + z = ofUnpacked (.add Format.binary32 x.toModel.unpack z.toModel.unpack) := rfl
  rw [hadd, hz]
  -- what the format holds is kept, since it is the operand or a zero
  cases hx : x.toModel.unpack with
  | zero r =>
    obtain ⟨t, ht⟩ := Unpacked.exists_zero_add_zero Format.binary32 r s
    rw [ht]
    exact Unpacked.unpack_pack (by decide) trivial (by simp [Unpacked.bound_pos])
  | infinity _ | notANumber | finite _ _ _ _ =>
    have hc := canonical x
    have hlt := abs_value_lt x
    rw [value] at hlt
    rw [hx] at hc hlt
    exact Unpacked.unpack_pack (by decide) hc hlt

theorem add_add_zero (hz : z.toModel.unpack = .zero s) (hy : HasSign s y.toModel.unpack) :
    x + z + y = x + y := by
  show ofUnpacked (.add Format.binary32 (x + z).toModel.unpack y.toModel.unpack) =
    ofUnpacked (.add Format.binary32 x.toModel.unpack y.toModel.unpack)
  rw [unpack_add_zero hz, Unpacked.add_add_zero _ hy]

/-! ## Natural numbers -/

theorem level_ofNat (n : ℕ) :
    IsNumber (Float32.ofNat n) ∧ level (Float32.ofNat n) = clamped n := by
  obtain ⟨u, hu, h⟩ := exists_rounds_ofNat n
  exact hu ▸ level_of_rounds h

theorem ofNat_mono {m n : ℕ} (h : m ≤ n) : Float32.ofNat m ≤ Float32.ofNat n := by
  obtain ⟨hm, em⟩ := level_ofNat m
  obtain ⟨hn, en⟩ := level_ofNat n
  rw [le_iff_level hm hn, em, en]
  exact clamped_mono (by exact_mod_cast h)

theorem unpack_ofNat_zero : (Float32.ofNat 0).toModel.unpack = .zero .positive := by
  rfl

/-- A number is not on the other side of zero than its sign says. -/
theorem signValue_mul_level_nonneg (hs : HasSign s x.toModel.unpack) :
    0 ≤ signValue s * level x := by
  have hsquare : ∀ t, signValue t * signValue t = 1 := by
    intro t
    cases t <;> simp [signValue]
  rw [level]
  cases hx : x.toModel.unpack with
  | notANumber => rw [show Unpacked.level Format.binary32 .notANumber = 0 from rfl, mul_zero]
  | zero t => rw [show Unpacked.level Format.binary32 (.zero t) = 0 from rfl, mul_zero]
  | infinity t =>
    rw [hx] at hs
    cases hs
    rw [Unpacked.level, ← mul_assoc, hsquare, one_mul]
    exact (Unpacked.bound_pos _).le
  | finite t m e hm =>
    rw [hx] at hs
    cases hs
    rw [Unpacked.level_of_isFinite rfl, Unpacked.value_finite, ← mul_assoc, hsquare, one_mul]
    exact (Unpacked.value_pos hm e).le

theorem hasSign_of_level_pos (h : 0 < level x) : HasSign .positive x.toModel.unpack := by
  obtain ⟨s, hs⟩ := Unpacked.exists_hasSign x.toModel.unpack
  cases s with
  | positive => exact hs
  | negative =>
    have hnonneg := signValue_mul_level_nonneg hs
    rw [signValue, neg_one_mul] at hnonneg
    linarith

/-- Natural numbers are positive, and so is the zero among them. -/
theorem hasSign_ofNat (n : ℕ) : HasSign .positive (Float32.ofNat n).toModel.unpack := by
  rcases Nat.eq_zero_or_pos n with rfl | hn
  · rw [unpack_ofNat_zero]
    rfl
  have hone : clamped ((1 : ℕ) : ℚ) = 1 := by
    have hround : round32 ((1 : ℕ) : ℚ) = 1 := by
      rw [round32_natCast (by norm_num), Nat.cast_one]
    rw [clamped_of_lt (by rw [hround]; norm_num), hround]
  refine hasSign_of_level_pos ?_
  calc (0 : ℚ) < clamped ((1 : ℕ) : ℚ) := by rw [hone]; norm_num
    _ ≤ clamped n := clamped_mono (by exact_mod_cast hn)
    _ = level (Float32.ofNat n) := (level_ofNat n).2.symm

/-! ## Products with a distance -/

theorem level_mul (hx : x.isFinite = true) (hy : y.isFinite = true) :
    IsNumber (x * y) ∧ level (x * y) = clamped (value x * value y) :=
  level_of_rounds (rounds_mul hx hy)

theorem infinity_or_isFinite_of_nonneg (hx : 0 ≤ x) :
    x.toModel.unpack = .infinity .positive ∨ x.isFinite = true := by
  have hn := (isNumber_of_le hx).2
  rcases hn.infinity_or_isFinite with ⟨r, hr⟩ | fx
  · cases r with
    | positive => exact .inl hr
    | negative =>
      have hl := (nonneg_iff hn).1 hx
      rw [level_infinity hr, signValue] at hl
      norm_num at hl
  · exact .inr fx

section Distance

variable (hc : 0 ≤ c) (fc : c.isFinite = true)

include hc fc

/-- A multiple of a distance by an infinite number is infinite, unless it is no number. -/
theorem level_infinity_mul (ha : a.toModel.unpack = .infinity .positive) (h : IsNumber (a * c)) :
    level (a * c) = 2 ^ 128 := by
  have hmul : a * c = ofUnpacked (.mul Format.binary32 a.toModel.unpack c.toModel.unpack) := rfl
  have hl := (nonneg_iff (isNumber_of_isFinite fc)).1 hc
  rcases Unpacked.exists_of_isFinite fc with ⟨r, hr⟩ | ⟨r, m, e, hm, hr⟩
  · -- the product with a zero is no number
    rw [hmul, ha, hr] at h
    exact absurd h not_isNumber_notANumber
  · cases r with
    | positive =>
      rw [ha, hr] at hmul
      have hmul : a * c = ofUnpacked (.infinity .positive) := hmul
      rw [(isNumber_and_level_infinity hmul).2, signValue, one_mul]
    | negative =>
      have hpos := Unpacked.value_pos hm e
      rw [level_of_isFinite fc, value, hr, Unpacked.value_finite, signValue] at hl
      linarith

/-- Products with a distance keep the order of factors that are no less than zero. -/
theorem mul_mono_left (ha : 0 ≤ a) (hab : a ≤ b) (h : IsNumber (b * c)) : a * c ≤ b * c := by
  obtain ⟨hna, hnb⟩ := isNumber_of_le hab
  have hle := (le_iff_level hna hnb).1 hab
  rcases infinity_or_isFinite_of_nonneg (le_trans ha hab) with hb | fb
  · rcases infinity_or_isFinite_of_nonneg ha with ha' | fa
    · have hsame : a * c = b * c := by
        show ofUnpacked (.mul Format.binary32 a.toModel.unpack c.toModel.unpack) =
          ofUnpacked (.mul Format.binary32 b.toModel.unpack c.toModel.unpack)
        rw [ha', hb]
      exact hsame ▸ le_refl (hsame ▸ h)
    · rw [le_iff_level (level_mul fa fc).1 h, level_infinity_mul hc fc hb h]
      exact (abs_le.1 (abs_level_le _)).2
  · have hlt := (abs_lt.1 (abs_value_lt b)).2
    rw [level_of_isFinite fb] at hle
    rcases infinity_or_isFinite_of_nonneg ha with ha' | fa
    · rw [level_infinity ha', signValue, one_mul] at hle
      exact absurd hle (not_le.2 hlt)
    · obtain ⟨hna', ea⟩ := level_mul fa fc
      obtain ⟨hnb', eb⟩ := level_mul fb fc
      rw [level_of_isFinite fa] at hle
      have hlc := (nonneg_iff (isNumber_of_isFinite fc)).1 hc
      rw [level_of_isFinite fc] at hlc
      rw [le_iff_level hna' hnb', ea, eb]
      exact clamped_mono (mul_le_mul_of_nonneg_right hle hlc)

theorem zero_le_mul (ha : 0 ≤ a) (h : IsNumber (a * c)) : 0 ≤ a * c := by
  obtain ⟨fzero, hzero⟩ := value_ofNat (n := 0) (by norm_num)
  obtain ⟨hn, hl⟩ := level_mul fzero fc
  have hzeroMul : 0 ≤ Float32.ofNat 0 * c := by
    rw [nonneg_iff hn, hl, hzero, Nat.cast_zero, zero_mul, clamped_of_lt] <;>
      simp [round32, rounded_zero]
  exact le_trans hzeroMul (mul_mono_left hc fc (le_refl isNumber_zero) ha h)

end Distance

/-! ## Places at multiples of a distance -/

/-- A greater distance leads no less far. If the lesser one has no sum with the start, neither has
the greater. -/
theorem add_mono_of_nonneg (hp : 0 ≤ p) (hpq : p ≤ q) (h : IsNumber (x + q)) :
    x + p ≤ x + q := by
  obtain ⟨hx, hq⟩ := isNumber_of_add h
  obtain ⟨-, hnp⟩ := isNumber_of_le hp
  rcases summed_add hx hnp with ⟨hsum, -⟩ | ⟨-, hopposite, habs⟩
  · exact add_mono (le_refl hx) hpq hsum h
  · -- the distances are infinite and the start is at the left end of the line
    rw [abs_of_nonneg ((nonneg_iff hnp).1 hp)] at habs
    have hlq : level q = 2 ^ 128 :=
      le_antisymm (abs_le.1 (abs_level_le q)).2 (habs ▸ (le_iff_level hnp hq).1 hpq)
    have hs := summed_of_isNumber h
    rw [hopposite, habs, hlq] at hs
    generalize level (x + q) = r at hs
    cases hs with
    | finite hp _ => norm_num at hp
    | above _ hp _ => exact absurd rfl hp
    | below _ _ hq => exact absurd rfl hq

/-- The places at the multiples of a distance do not decrease. -/
theorem add_multiple_mono (hc : 0 ≤ c) (fc : c.isFinite = true) {i j : ℕ} (hij : i ≤ j)
    (h : IsNumber (x + Float32.ofNat j * c)) :
    x + Float32.ofNat i * c ≤ x + Float32.ofNat j * c := by
  have hj := (isNumber_of_add h).2
  have hle := mul_mono_left hc fc (ofNat_mono i.zero_le) (ofNat_mono hij) hj
  exact add_mono_of_nonneg (zero_le_mul hc fc (ofNat_mono i.zero_le) (isNumber_of_le hle).1) hle h

/-- The place at a multiple of a distance is the same from the place at the multiple by zero. -/
theorem add_zero_multiple_add (x : Float32) (fc : c.isFinite = true) (i : ℕ) :
    x + Float32.ofNat 0 * c + Float32.ofNat i * c = x + Float32.ofNat i * c := by
  obtain ⟨s, hs⟩ := Unpacked.exists_hasSign c.toModel.unpack
  have hzero : (Float32.ofNat 0 * c).toModel.unpack = .zero (.positive * s) := by
    have hmul : Float32.ofNat 0 * c = ofUnpacked (.mul Format.binary32
        (Float32.ofNat 0).toModel.unpack c.toModel.unpack) := rfl
    rw [hmul, unpack_ofNat_zero]
    rcases Unpacked.exists_of_isFinite fc with ⟨r, hr⟩ | ⟨r, m, e, hm, hr⟩
    all_goals
      rw [hr] at hs ⊢
      cases hs
      refine Unpacked.unpack_pack (by decide) trivial ?_
      simp [UnpackedFloat.mul, Unpacked.bound_pos]
  exact add_add_zero hzero (hasSign_mul (hasSign_ofNat i) hs)

end Single

end LayeredDrawing
