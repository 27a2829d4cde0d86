import LayeredDrawing.Proofs.Number.Double
import LayeredDrawing.Proofs.Number.Shortest
import LayeredDrawing.Proofs.Number.Single

/-!
# Numbers that are read from their texts

The digits of a number are gathered with rounding, and a number that is too great for the format
is not read at all. A finite number is written by its shortest decimal, whose text has the value
of the decimal (`Decimal.value_parts`), of which no more is gathered than there is
(`Json.NumberText.value_gathered_le`). So the text of a finite number is read, if perhaps not as
the same number (`Json.Number.isSome_toNumber?_double`, `Json.Number.isSome_toNumber?_single`).
The three greatest magnitudes of double precision leave no room for the roundings and are
evaluated.
-/

namespace LayeredDrawing

open Json Text
open Float.Model (Format UnpackedFloat)

/-! ## Values of digits -/

namespace Decimal

theorem digitsValue_append (as bs : List Char) :
    digitsValue (as ++ bs) = digitsValue as * 10 ^ bs.length + digitsValue bs := by
  rw [digitsValue_eq, Nat.ofDigitChars_append, Nat.ofDigitChars_eq_ofDigitChars_zero,
    ← digitsValue_eq, ← digitsValue_eq, Nat.mul_comm]

theorem digitsValue_replicate_zero (n : ℕ) : digitsValue (List.replicate n '0') = 0 := by
  rw [digitsValue_eq, Nat.ofDigitChars_replicate_zero, Nat.mul_zero]

theorem ofDigitChars_lt {ds : List Char} (hds : ∀ c ∈ ds, c.isDigit) (n : ℕ) :
    Nat.ofDigitChars 10 ds n < (n + 1) * 10 ^ ds.length := by
  induction ds generalizing n with
  | nil => simp
  | cons c ds ih =>
    obtain ⟨hc, hds⟩ := List.forall_mem_cons.1 hds
    have hdigit : c.toNat - '0'.toNat ≤ 9 := by
      have h9 : c.toNat ≤ '9'.toNat := (Char.isDigit_iff_toNat.1 hc).2
      exact Nat.sub_le_of_le_add h9
    calc Nat.ofDigitChars 10 (c :: ds) n
        = Nat.ofDigitChars 10 ds (10 * n + (c.toNat - '0'.toNat)) := Nat.ofDigitChars_cons
      _ < (10 * n + (c.toNat - '0'.toNat) + 1) * 10 ^ ds.length := ih hds _
      _ ≤ (n + 1) * 10 * 10 ^ ds.length := Nat.mul_le_mul_right _ (by omega)
      _ = (n + 1) * 10 ^ (c :: ds).length := by rw [List.length_cons, Nat.pow_succ']; ring

theorem digitsValue_lt {ds : List Char} (hds : ∀ c ∈ ds, c.isDigit) :
    digitsValue ds < 10 ^ ds.length := by
  simpa [digitsValue_eq] using ofDigitChars_lt hds 0

end Decimal

namespace Json

/-! ## Values of texts -/

/-- The number that a text stands for, without its sign. -/
def NumberText.value (t : NumberText) : ℚ :=
  digitsValue (t.whole ++ t.fraction) * 10 ^ (t.exponent.getD 0 - t.fraction.length)

/-- The number that has been gathered. -/
def Gathered.value (g : Gathered) : ℚ := g.significand * 10 ^ g.exponent

end Json

namespace Decimal

/-- The digits before and after a point, with as many places as there are digits after it. -/
theorem value_positional (d : Decimal) :
    (digitsValue (d.positional.1 ++ d.positional.2) : ℚ) * 10 ^ (-d.positional.2.length : ℤ) =
      d.value := by
  have hdigits := digitsValue_digits d.significand
  unfold positional value
  dsimp only
  split
  · rename_i h
    obtain ⟨k, hk⟩ := Int.eq_ofNat_of_zero_le h
    rw [List.append_nil, digitsValue_append, digitsValue_replicate_zero, hdigits, hk]
    simp
  · rename_i h
    have hexp : -(((-d.exponent).toNat : ℕ) : ℤ) = d.exponent := by omega
    split
    · rename_i hplaces
      rw [List.take_append_drop, hdigits, List.length_drop, Nat.sub_sub_self hplaces.le, hexp]
    · rename_i hplaces
      have hzero : digitsValue ['0'] = 0 := rfl
      dsimp only
      rw [digitsValue_append, digitsValue_append, hzero, digitsValue_replicate_zero, hdigits,
        Nat.zero_mul, Nat.zero_add, Nat.zero_mul, Nat.zero_add, List.length_append,
        List.length_replicate, Nat.sub_add_cancel (not_lt.1 hplaces), hexp]

theorem value_parts (range : JsonRange) (negative : Bool) (d : Decimal) :
    (d.parts range negative).value = d.value := by
  unfold parts NumberText.value
  split
  · rw [← value_positional]
    cases d.positional.2 with
    | nil =>
      have hzero : digitsValue ['0'] = 0 := rfl
      simp [digitsValue_append, hzero]
    | cons c cs => simp
  · have hlen : 0 < (digits d.significand).length := List.length_pos_iff.2 (digits_ne_nil _)
    have hexp : d.leadingExponent - ((digits d.significand).drop 1).length = d.exponent := by
      rw [List.length_drop, leadingExponent]
      omega
    dsimp only
    rw [List.take_append_drop, digitsValue_digits, Option.getD_some, hexp, value]

theorem length_whole_positional (d : Decimal) :
    (d.positional.1.length : ℤ) ≤ max 1 (d.leadingExponent + 1) := by
  unfold positional leadingExponent
  dsimp only
  split
  · rw [List.length_append, List.length_replicate]
    omega
  · split
    · rw [List.length_take]
      omega
    · simp

/-- The digits before the point fit into the 64 bits of a significand. -/
theorem digitsValue_whole_parts {range : JsonRange} (hrange : range.greatest < 19)
    (negative : Bool) {d : Decimal} (hd : d.significand = 0 → d.exponent = 0) :
    digitsValue (d.parts range negative).whole < Gathered.limit := by
  have hdigits := (wellFormed_parts range negative hd).whole.digits
  have hlength : (d.parts range negative).whole.length ≤ 19 := by
    unfold parts
    split
    · have := length_whole_positional d
      dsimp only
      omega
    · exact (List.length_take_le 1 _).trans (by decide)
  calc digitsValue (d.parts range negative).whole
      < 10 ^ (d.parts range negative).whole.length := digitsValue_lt hdigits
    _ ≤ 10 ^ 19 := Nat.pow_le_pow_right (by decide) hlength
    _ < Gathered.limit := by decide

end Decimal

/-! ## Gathering digits -/

namespace Json

namespace Gathered

/-- Digits that all fit are gathered as they are. -/
theorem whole_of_lt {g : Gathered} {ds : List Char}
    (h : Nat.ofDigitChars 10 ds g.significand < limit) :
    g.whole ds = ⟨Nat.ofDigitChars 10 ds g.significand, g.exponent⟩ := by
  induction ds generalizing g with
  | nil => rfl
  | cons d ds ih =>
    rw [Nat.ofDigitChars_cons, Nat.mul_comm] at h ⊢
    have hnext : g.significand * 10 + (d.toNat - '0'.toNat) < limit := by
      refine Nat.lt_of_le_of_lt ?_ h
      rw [Nat.ofDigitChars_eq_ofDigitChars_zero]
      exact (Nat.le_mul_of_pos_left _ (Nat.pow_pos (by decide))).trans (Nat.le_add_right _ _)
    rw [whole, if_pos hnext, ih h]

/-- Of the digits after the point no more is gathered than there is. -/
theorem value_fraction_le (g : Gathered) (ds : List Char) :
    (g.fraction ds).value ≤
      Nat.ofDigitChars 10 ds g.significand * 10 ^ (g.exponent - ds.length) := by
  induction ds generalizing g with
  | nil => simp [fraction, value]
  | cons d ds ih =>
    have hcons : Nat.ofDigitChars 10 (d :: ds) g.significand =
        Nat.ofDigitChars 10 ds (g.significand * 10 + (d.toNat - '0'.toNat)) := by
      rw [Nat.ofDigitChars_cons, Nat.mul_comm]
    rw [fraction]
    split
    · have hexp : g.exponent - 1 - ds.length = g.exponent - (d :: ds).length := by
        rw [List.length_cons]
        omega
      rw [hcons, ← hexp]
      exact ih _
    · -- A digit that is dropped takes its place value with it.
      have hle : g.significand * 10 ^ (d :: ds).length ≤
          Nat.ofDigitChars 10 (d :: ds) g.significand := by
        rw [Nat.ofDigitChars_eq_ofDigitChars_zero, Nat.mul_comm]
        exact Nat.le_add_right _ _
      have hpow : (10 : ℚ) ^ g.exponent =
          10 ^ (d :: ds).length * 10 ^ (g.exponent - (d :: ds).length) := by
        rw [← zpow_natCast, ← zpow_add₀ (by norm_num)]
        congr 1
        omega
      rw [value, hpow, ← mul_assoc]
      refine mul_le_mul_of_nonneg_right ?_ (zpow_pos (by norm_num) _).le
      exact_mod_cast hle

theorem significand_fraction_lt {g : Gathered} (h : g.significand < limit) (ds : List Char) :
    (g.fraction ds).significand < limit := by
  induction ds generalizing g with
  | nil => exact h
  | cons d ds ih =>
    rw [fraction]
    split
    · rename_i hnext
      exact ih hnext
    · exact h

/-- What has been gathered is read unless it is too great. -/
theorem isSome_toDouble? {g : Gathered} (hs : g.significand < limit)
    (hv : g.value ≤ (2 ^ 53 - 3 - 1 / 2) * 2 ^ 971) : g.toDouble?.isSome := by
  unfold toDouble?
  dsimp only
  split
  · rfl
  rename_i hneg
  obtain ⟨k, hk⟩ := Int.eq_ofNat_of_zero_le (not_lt.1 hneg)
  rw [value, hk, zpow_natCast] at hv
  split
  · rename_i hle
    have hfinite := Double.isFinite_mul_power hs (k := k) (by omega) hv
    rw [hk, Int.natAbs_natCast, Double.isInf_eq_false hfinite]
    rfl
  · rename_i hlarge
    split
    · rfl
    · rename_i hne
      have hsignificand : (1 : ℚ) ≤ g.significand := by exact_mod_cast Nat.pos_of_ne_zero hne
      have hpow : (2 : ℚ) ^ 1024 ≤ 10 ^ k := by
        have h309 : (2 : ℚ) ^ 1024 ≤ 10 ^ 309 := by
          exact_mod_cast (by decide +kernel : 2 ^ 1024 ≤ 10 ^ 309)
        exact h309.trans (pow_le_pow_right₀ (by norm_num) (by omega))
      have hroom : ((2 ^ 53 - 3 - 1 / 2) * 2 ^ 971 : ℚ) < 2 ^ 1024 :=
        lt_of_le_of_lt (mul_le_mul_of_nonneg_right (by norm_num) (by positivity))
          Double.greatest_lt
      have hvalue := le_mul_of_one_le_left (pow_pos (by norm_num : (0 : ℚ) < 10) k).le hsignificand
      exact absurd (hpow.trans (hvalue.trans hv)) hroom.not_ge

end Gathered

/-! ## Reading numbers -/

namespace NumberText

/-- The digits before the point are gathered as they are, and those after it as far as they
fit. -/
theorem gathered_eq {t : NumberText} (h : digitsValue t.whole < Gathered.limit) :
    t.gathered = ⟨((⟨digitsValue t.whole, 0⟩ : Gathered).fraction t.fraction).significand,
      ((⟨digitsValue t.whole, 0⟩ : Gathered).fraction t.fraction).exponent +
        t.exponent.getD 0⟩ := by
  rw [Decimal.digitsValue_eq] at h ⊢
  rw [gathered, Gathered.whole_of_lt h]

/-- Of a text no more is gathered than it stands for. -/
theorem value_gathered_le {t : NumberText} (h : digitsValue t.whole < Gathered.limit) :
    t.gathered.value ≤ t.value := by
  have hfraction := Gathered.value_fraction_le ⟨digitsValue t.whole, 0⟩ t.fraction
  have hscale : (0 : ℚ) < 10 ^ t.exponent.getD 0 := zpow_pos (by norm_num) _
  have hdigits : Nat.ofDigitChars 10 t.fraction (digitsValue t.whole) =
      digitsValue (t.whole ++ t.fraction) := by
    rw [Decimal.digitsValue_eq, Decimal.digitsValue_eq, Nat.ofDigitChars_append]
  calc t.gathered.value
      = ((⟨digitsValue t.whole, 0⟩ : Gathered).fraction t.fraction).value *
          10 ^ t.exponent.getD 0 := by
        rw [gathered_eq h, Gathered.value, Gathered.value, zpow_add₀ (by norm_num), mul_assoc]
    _ ≤ digitsValue (t.whole ++ t.fraction) * 10 ^ (-t.fraction.length : ℤ) *
          10 ^ t.exponent.getD 0 := by
        rw [← hdigits, ← zero_sub]
        exact mul_le_mul_of_nonneg_right hfraction hscale.le
    _ = t.value := by
        rw [value, sub_eq_neg_add, zpow_add₀ (by norm_num), mul_assoc]

theorem significand_gathered_lt {t : NumberText} (h : digitsValue t.whole < Gathered.limit) :
    t.gathered.significand < Gathered.limit := by
  rw [gathered_eq h]
  exact Gathered.significand_fraction_lt h _

theorem isSome_toNumber? {t : NumberText} (h : t.toDouble?.isSome) : t.toNumber?.isSome := by
  obtain ⟨x, hx⟩ := Option.isSome_iff_exists.1 h
  unfold toNumber?
  dsimp only
  split
  · split
    · rfl
    · split <;> rfl
  · rw [hx]
    rfl

/-- A text is read if what it stands for is not too great. -/
theorem isSome_toNumber?_of_le {t : NumberText} (h : digitsValue t.whole < Gathered.limit)
    (hv : t.value ≤ (2 ^ 53 - 3 - 1 / 2) * 2 ^ 971) : t.toNumber?.isSome := by
  refine isSome_toNumber? ?_
  rw [toDouble?, Option.isSome_map]
  exact Gathered.isSome_toDouble? (significand_gathered_lt h) ((value_gathered_le h).trans hv)

end NumberText

/-- The text of a number that is not among the greatest ones is read. -/
theorem isSome_toNumber?_jsonParts {range : JsonRange} (hrange : range.greatest < 19)
    {format : Format} {x : UnpackedFloat} {t : NumberText} (ht : jsonParts? range format x = some t)
    (hx : ∀ s m e hm, x = .finite s m e hm →
      ((m : ℚ) + 1 / 2) * 2 ^ e ≤ (2 ^ 53 - 3 - 1 / 2) * 2 ^ 971) : t.toNumber?.isSome := by
  cases x with
  | notANumber => cases ht
  | infinity sign => cases ht
  | zero sign =>
    obtain rfl := Option.some.inj ht
    exact NumberText.isSome_toNumber? (by cases sign <;> decide +kernel)
  | finite s m e hm =>
    obtain rfl := Option.some.inj ht
    refine NumberText.isSome_toNumber?_of_le
      (Decimal.digitsValue_whole_parts hrange _ Decimal.significand_shortest) ?_
    rw [Decimal.value_parts]
    exact (Decimal.value_shortest_le ..).trans (hx s m e hm rfl)

/-- The greatest numbers of double precision, which leave no room for roundings. -/
theorem isSome_toNumber?_greatest : ∀ i : Fin 3, ∀ negative : Bool,
    ((Decimal.shortest .toEven Format.binary64 (2 ^ 53 - 1 - i) 971).parts ⟨-5, 15⟩
      negative).toNumber?.isSome := by
  decide +kernel

/-- Below the three greatest numbers there is room for the roundings. -/
theorem half_place_above_le {m : ℕ} {e : ℤ} (hm : m < 2 ^ 53) (he : e ≤ 971)
    (hroom : e = 971 → m + 4 ≤ 2 ^ 53) :
    ((m : ℚ) + 1 / 2) * 2 ^ e ≤ (2 ^ 53 - 3 - 1 / 2) * 2 ^ 971 := by
  rcases he.lt_or_eq with he | rfl
  · have hm' : (m : ℚ) + 1 ≤ 2 ^ 53 := by exact_mod_cast hm
    have hdouble : (2 : ℚ) ^ 53 * 2 ^ (970 : ℤ) = 2 ^ 52 * 2 ^ 971 := by
      rw [show (2 : ℚ) ^ (970 : ℤ) = 2 ^ 970 from zpow_natCast 2 970, ← pow_add, ← pow_add]
    calc ((m : ℚ) + 1 / 2) * 2 ^ e ≤ 2 ^ 53 * 2 ^ (970 : ℤ) :=
          mul_le_mul (by linarith) (two_zpow_mono (by omega)) (two_zpow_pos e).le (by positivity)
      _ = 2 ^ 52 * 2 ^ 971 := hdouble
      _ ≤ (2 ^ 53 - 3 - 1 / 2) * 2 ^ 971 :=
          mul_le_mul_of_nonneg_right (by norm_num) (by positivity)
  · have hm' : (m : ℚ) + 4 ≤ 2 ^ 53 := by exact_mod_cast hroom rfl
    rw [show (2 : ℚ) ^ (971 : ℤ) = 2 ^ 971 from zpow_natCast 2 971]
    exact mul_le_mul_of_nonneg_right (by linarith) (by positivity)

namespace Number

/-- **The text of a double-precision number is read.** -/
theorem isSome_toNumber?_double {x : Float} {t : NumberText}
    (ht : (double x).written? = some t) : t.toNumber?.isSome := by
  by_cases hgreatest : ∃ s, ∃ i : Fin 3, ∃ hm,
      x.toModel.unpack = .finite s (2 ^ 53 - 1 - i) 971 hm
  · obtain ⟨s, i, hm, hx⟩ := hgreatest
    rw [written?, hx] at ht
    obtain rfl := Option.some.inj ht
    exact isSome_toNumber?_greatest i _
  · refine isSome_toNumber?_jsonParts (by decide) ht fun s m e hm hx => ?_
    have hc : Unpacked.IsCanonical Format.binary64 m e := by
      have := Double.canonical x
      rwa [hx] at this
    refine half_place_above_le hc.lt (Unpacked.exponent_le_of_unpack (by decide) hx) ?_
    rintro rfl
    by_contra hlt
    have hm53 : m < 2 ^ 53 := hc.lt
    refine hgreatest ⟨s, ⟨2 ^ 53 - 1 - m, by omega⟩, ?_, ?_⟩
    · dsimp only
      omega
    · rw [hx]
      exact Unpacked.finite_congr (by dsimp only; omega) rfl

/-- **The text of a single-precision number is read.** -/
theorem isSome_toNumber?_single {x : Float32} {t : NumberText}
    (ht : (single x).written? = some t) : t.toNumber?.isSome := by
  refine isSome_toNumber?_jsonParts (by decide) ht fun s m e hm hx => ?_
  have hc : Unpacked.IsCanonical Format.binary32 m e := by
    have := Single.canonical x
    rwa [hx] at this
  have hm24 : (m : ℚ) + 1 ≤ 2 ^ 24 := by exact_mod_cast hc.lt
  have he : e ≤ 104 := Unpacked.exponent_le_of_unpack (by decide) hx
  calc ((m : ℚ) + 1 / 2) * 2 ^ e ≤ 2 ^ 24 * 2 ^ (104 : ℤ) := by
        refine mul_le_mul (by linarith) (two_zpow_mono he) (two_zpow_pos e).le (by positivity)
    _ ≤ (2 ^ 53 - 3 - 1 / 2) * 2 ^ 971 := by
        refine mul_le_mul (by norm_num) ?_ (by positivity) (by norm_num)
        exact_mod_cast pow_le_pow_right₀ one_le_two (by norm_num : 104 ≤ 971)

end Number

end Json

end LayeredDrawing
