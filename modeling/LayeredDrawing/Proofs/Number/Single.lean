import LayeredDrawing.Number.Scalar
import LayeredDrawing.Proofs.Number.Packing

/-!
# Values of single-precision numbers

A finite single-precision number has a rational value, and the operations on finite numbers give
the number nearest to the exact result, or an infinite one if that does not fit (`IsNearest`).
-/

namespace LayeredDrawing.Single

open Float.Model (Format UnpackedFloat)
open Unpacked (Canonical Rounds bound)

/-- The value of a finite number. -/
def value (x : Float32) : ℚ := Unpacked.value x.toModel.unpack

/-- The single-precision value nearest to a number, if there were no greatest one. -/
abbrev round32 (q : ℚ) : ℚ := rounded Format.binary32 q

/-- The result of an operation with the given exact value: finite and nearest to it, or infinite
if that does not fit. -/
structure IsNearest (x : Float32) (q : ℚ) : Prop where
  finite : |round32 q| < 2 ^ 128 → x.isFinite = true ∧ value x = round32 q
  infinite : 2 ^ 128 ≤ |round32 q| → ∃ s, x.toModel.unpack = .infinity s

theorem canonical (x : Float32) : Canonical Format.binary32 x.toModel.unpack :=
  Unpacked.canonical_unpack _

theorem bound_binary32 : bound Format.binary32 = 2 ^ 128 := rfl

theorem isNearest_of_rounds {u : UnpackedFloat} {q : ℚ} (h : Rounds Format.binary32 u q) :
    IsNearest (ofUnpacked u) q := by
  have hbits : 2 ≤ Format.binary32.exponentBits := by decide
  constructor
  · intro hlt
    rw [round32, ← h.value_eq, ← bound_binary32] at hlt
    have hu : (ofUnpacked u).toModel.unpack = u := Unpacked.unpack_pack hbits h.canonical hlt
    refine ⟨?_, ?_⟩
    · show (ofUnpacked u).toModel.unpack.isFinite = true
      rw [hu, h.isFinite]
    · rw [value, hu, h.value_eq]
  · intro hle
    rw [round32, ← h.value_eq, ← bound_binary32] at hle
    obtain ⟨s, hs, -⟩ := Unpacked.unpack_pack_of_le hbits h.canonical hle
    exact ⟨s, hs⟩

section Operations

variable {x y : Float32} (hx : x.isFinite = true) (hy : y.isFinite = true)

include hx hy

theorem isNearest_add : IsNearest (x + y) (value x + value y) :=
  isNearest_of_rounds (Unpacked.rounds_add hx hy (canonical x) (canonical y))

theorem isNearest_sub : IsNearest (x - y) (value x - value y) :=
  isNearest_of_rounds (Unpacked.rounds_sub hx hy (canonical x) (canonical y))

theorem rounds_mul : Rounds Format.binary32
    (.mul Format.binary32 x.toModel.unpack y.toModel.unpack) (value x * value y) :=
  Unpacked.rounds_mul hx hy (canonical x) (canonical y)

theorem isNearest_mul : IsNearest (x * y) (value x * value y) :=
  isNearest_of_rounds (rounds_mul hx hy)

theorem isNearest_div (h0 : value y ≠ 0) : IsNearest (x / y) (value x / value y) :=
  isNearest_of_rounds (Unpacked.rounds_div hx hy h0)

omit hy

theorem isNearest_div_infinity {s : UnpackedFloat.Sign} (hs : y.toModel.unpack = .infinity s) :
    IsNearest (x / y) 0 := by
  have h : Rounds Format.binary32 (.div _ x.toModel.unpack (.infinity s)) 0 :=
    Unpacked.rounds_div_infinity hx s
  rw [← hs] at h
  exact isNearest_of_rounds h

end Operations

theorem value_one : value (Float32.ofBits 1065353216) = 1 := by
  have h : (Float32.ofBits 1065353216).toModel.unpack =
      .finite .positive (2 ^ 23) (-23) (by decide) := by
    rfl
  rw [value, h, Unpacked.value_finite]
  norm_num [Unpacked.signValue]

/-- An integer with at most 24 bits is kept. -/
theorem round32_natCast {n : ℕ} (h : n ≤ 2 ^ 24) : round32 n = n := by
  rcases h.lt_or_eq with h | rfl
  · have := rounded_of_lt Format.binary32 (n := n) (e := 0)
      (by rw [Nat.abs_cast]; exact_mod_cast h) (by decide)
    simpa using this
  · have := rounded_two_zpow Format.binary32 (e := 24) (by decide)
    exact_mod_cast this

/-- The number of a machine word. -/
theorem isNearest_toFloat32 (n : UInt64) : IsNearest n.toFloat32 n.toNat := by
  have h := Unpacked.rounds_normalize Format.binary32 n.toNat 0 .positive
  simp only [zpow_zero, mul_one, Int.cast_natCast] at h
  exact isNearest_of_rounds h

/-- The number of a natural number is rounded correctly, whatever its magnitude. -/
theorem exists_rounds_ofNat (n : ℕ) :
    ∃ u, Float32.ofNat n = ofUnpacked u ∧ Rounds Format.binary32 u n := by
  show ∃ u, Float32.ofScientific n false 0 = ofUnpacked u ∧ Rounds Format.binary32 u n
  rw [Float32.ofScientific]
  split
  · rename_i h
    have hround : round32 n = n := round32_natCast (h.1.le.trans (by norm_num))
    have hn : IsNearest n.toUInt64.toFloat32 n := by
      have hmod : n.toUInt64.toNat = n := by
        rw [UInt64.toNat_ofNat']
        exact Nat.mod_eq_of_lt (h.1.trans (by norm_num))
      have := isNearest_toFloat32 n.toUInt64
      rwa [hmod] at this
    have hlt : |round32 n| < 2 ^ 128 := by
      rw [hround, Nat.abs_cast]
      exact_mod_cast h.1.trans (by norm_num)
    obtain ⟨hfin, hval⟩ := hn.finite hlt
    have hone : (Float32.ofBits 1065353216).isFinite = true := by decide
    have hmul := rounds_mul hfin hone
    have hprod : value n.toUInt64.toFloat32 * value (Float32.ofBits 1065353216) = n := by
      rw [value_one, mul_one, hval, hround]
    exact ⟨_, rfl, hprod ▸ hmul⟩
  · rename_i h
    have hn : n ≠ 0 := by
      rintro rfl
      exact h (by norm_num)
    have h := Unpacked.rounds_ofScientific Format.binary32 hn (Nat.zero_le _)
    rw [pow_zero, mul_one] at h
    exact ⟨_, rfl, h⟩

theorem isNearest_ofNat (n : ℕ) : IsNearest (Float32.ofNat n) n := by
  obtain ⟨u, hu, h⟩ := exists_rounds_ofNat n
  exact hu ▸ isNearest_of_rounds h

end LayeredDrawing.Single
