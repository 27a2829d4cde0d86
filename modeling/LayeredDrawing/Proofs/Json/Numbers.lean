import LayeredDrawing.Json.Number

/-!
# The text of a number

A number is written so that it can be cut out of a document again: `Json.Number.written?` gives
the parts of its text, `Json.Number.toList_text` says that the text has just these parts, and
`Json.Token.scanOne_chars` that they are read back from the front of any text in which no
further digit, point or exponent follows. What is no finite number has no such parts and is
written `null`.

* `Decimal.digitsValue_digits`, `Decimal.isWhole_digits`: the digits of a number.
* `Decimal.significand_shortest`: the significand of a shortest decimal is zero only for the
  decimal zero, so that no digits before a point begin with a zero that has to be left out.
* `Json.Number.wellFormed_written`: the parts of every number can be read.
* `Json.Number.toNumber?_written_natural`, `Json.Number.toNumber?_written_negative`: integers of
  64 bits stand for themselves.
-/

namespace LayeredDrawing

open Json Text
open Float.Model (Format UnpackedFloat)

/-! ## Decimal digits -/

/-- Digits before a point as they are written: a lone zero, or digits of which the first is not
zero. -/
structure IsWhole (ds : List Char) : Prop where
  digits : ∀ c ∈ ds, c.isDigit
  nonempty : ds ≠ []
  noLeadingZero : ds.head? = some '0' → ds = ['0']

namespace Decimal

theorem digits_ne_nil (n : Nat) : digits n ≠ [] := Nat.toDigits_ne_nil

theorem isDigit_of_mem_digits {n : Nat} {c : Char} (h : c ∈ digits n) : c.isDigit :=
  Nat.isDigit_of_mem_toDigits (by decide) (by decide) h

/-- The last digit comes off the end. -/
theorem digits_eq (n : Nat) :
    digits n = if n < 10 then [n.digitChar] else digits (n / 10) ++ [(n % 10).digitChar] :=
  Nat.toDigits_eq_if (by decide)

theorem digits_zero : digits 0 = ['0'] := by
  rw [digits_eq, if_pos (by decide)]
  rfl

theorem digitsValue_eq (ds : List Char) : digitsValue ds = Nat.ofDigitChars 10 ds 0 := by
  simp only [digitsValue, Nat.ofDigitChars, Nat.mul_comm]

theorem digitsValue_digits (n : Nat) : digitsValue (digits n) = n := by
  rw [digitsValue_eq]
  exact Nat.ofDigitChars_ten_toDigits

/-- Only zero is written with a leading zero. -/
theorem eq_zero_of_head?_digits {n : Nat} (h : (digits n).head? = some '0') : n = 0 := by
  induction n using Nat.strongRecOn with
  | _ n ih =>
    rw [digits_eq] at h
    split at h
    · have hchar : n.digitChar = '0' := by simpa using h
      exact Nat.digitChar_eq_zero.1 hchar
    · have hhead : (digits (n / 10)).head? = some '0' := by
        obtain ⟨c, ds, hds⟩ := List.exists_cons_of_ne_nil (digits_ne_nil (n / 10))
        rw [hds] at h ⊢
        exact h
      have := ih (n / 10) (by omega) hhead
      omega

theorem isWhole_digits (n : Nat) : IsWhole (digits n) where
  digits _ hc := isDigit_of_mem_digits hc
  nonempty := digits_ne_nil n
  noLeadingZero h := by rw [eq_zero_of_head?_digits h, digits_zero]

/-! ## Normal decimals -/

/-- The power of ten of the trailing zeros divides a number. -/
theorem pow_trailingZeros_dvd (n : Nat) :
    Nat.pow 10 ((digits n).reverse.takeWhile (· == '0')).length ∣ n := by
  induction n using Nat.strongRecOn with
  | _ n ih =>
    rw [digits_eq]
    split
    · by_cases hn : n = 0
      · subst hn
        exact Nat.dvd_zero _
      · have hchar : n.digitChar ≠ '0' := fun h => hn (Nat.digitChar_eq_zero.1 h)
        simp [hchar]
    · by_cases hlast : n % 10 = 0
      · have hchar : (n % 10).digitChar = '0' := Nat.digitChar_eq_zero.2 hlast
        have hdvd := Nat.mul_dvd_mul_right (ih (n / 10) (by omega)) 10
        have hten : n / 10 * 10 = n := by omega
        rw [hten] at hdvd
        simp only [List.reverse_append, List.reverse_singleton, List.singleton_append, hchar,
          List.takeWhile_cons, beq_self_eq_true, if_true, List.length_cons]
        exact hdvd
      · have hchar : (n % 10).digitChar ≠ '0' := fun h => hlast (Nat.digitChar_eq_zero.1 h)
        simp [hchar]

theorem significand_normalize {d : Decimal} (h : d.normalize.significand = 0) :
    d.normalize.exponent = 0 := by
  unfold normalize at h ⊢
  dsimp only at h ⊢
  split at h
  · next hd => rw [if_pos hd]
  · next hd =>
    -- The zeros taken off a number other than zero leave something behind.
    have hdvd := Nat.le_of_dvd (Nat.pos_of_ne_zero hd) (pow_trailingZeros_dvd d.significand)
    have hpos := Nat.div_pos hdvd (Nat.pow_pos (by decide))
    exact absurd h (Nat.ne_of_gt hpos)

theorem significand_shortest {tie : Tie} {format : Format} {mantissa : Nat} {exponent : Int}
    (h : (shortest tie format mantissa exponent).significand = 0) :
    (shortest tie format mantissa exponent).exponent = 0 :=
  significand_normalize h

end Decimal

/-! ## The parts of a number -/

namespace Json.NumberText

/-- The point and the digits behind it, if there are any. -/
def fractionChars : List Char → List Char
  | [] => []
  | ds => '.' :: ds

/-- The exponent with its sign, if there is one. -/
def exponentChars : Option Int → List Char
  | none => []
  | some e => 'e' :: (if 0 ≤ e then '+' else '-') :: Decimal.digits e.natAbs

/-- What is written for a number behind its sign. -/
def unsigned (t : NumberText) : List Char :=
  t.whole ++ (fractionChars t.fraction ++ exponentChars t.exponent)

/-- What is written for a number. -/
def chars (t : NumberText) : List Char := (if t.negative then ['-'] else []) ++ t.unsigned

/-- The parts of a number that can be read. -/
structure WellFormed (t : NumberText) : Prop where
  whole : IsWhole t.whole
  fraction : ∀ c ∈ t.fraction, c.isDigit

end Json.NumberText

/-! ## Reading the parts back -/

/-- A text that does not go on with a digit. -/
def NoDigit (rest : List Char) : Prop := ∀ c ∈ rest.head?, c.isDigit = false

/-- A character that a number can go on with. -/
def isNumberPart (c : Char) : Bool := c.isDigit || c == '.' || c == 'e' || c == 'E'

/-- A text that does not go on with a part of a number. -/
def EndsNumber (rest : List Char) : Prop := ∀ c ∈ rest.head?, isNumberPart c = false

theorem EndsNumber.noDigit {rest : List Char} (h : EndsNumber rest) : NoDigit rest := by
  intro c hc
  have hpart := h c hc
  simp only [isNumberPart, Bool.or_eq_false_iff] at hpart
  exact hpart.1.1.1

namespace Json.Token

open NumberText

theorem spanDigits_append {ds rest : List Char} (hds : ∀ c ∈ ds, c.isDigit)
    (hrest : NoDigit rest) : spanDigits (ds ++ rest) = (ds, rest) := by
  rw [spanDigits, List.takeWhile_append_of_pos hds, List.dropWhile_append_of_pos hds]
  cases rest with
  | nil => simp
  | cons c cs =>
    have hc : c.isDigit = false := hrest c rfl
    simp [hc]

theorem scanWhole_append {ds rest : List Char} (hds : IsWhole ds) (hrest : NoDigit rest) :
    scanWhole (ds ++ rest) = some (ds, rest) := by
  unfold scanWhole
  rw [spanDigits_append hds.digits hrest]
  split
  · next h => exact absurd (Prod.mk.inj h).1 hds.nonempty
  · next h =>
    obtain ⟨hzero, -⟩ := Prod.mk.inj h
    have := hds.noLeadingZero (by rw [hzero]; rfl)
    simp [hzero] at this
  · next h => rw [(Prod.mk.inj h).1, (Prod.mk.inj h).2]

theorem noDigit_exponentChars (e : Option Int) {rest : List Char} (hrest : EndsNumber rest) :
    NoDigit (exponentChars e ++ rest) := by
  cases e with
  | none => exact hrest.noDigit
  | some e => intro c hc; simp [exponentChars] at hc; subst hc; decide

theorem noDigit_fractionChars (ds : List Char) (e : Option Int) {rest : List Char}
    (hrest : EndsNumber rest) : NoDigit (fractionChars ds ++ (exponentChars e ++ rest)) := by
  cases ds with
  | nil => exact noDigit_exponentChars e hrest
  | cons d ds => intro c hc; simp [fractionChars] at hc; subst hc; decide

theorem scanFraction_append {ds rest : List Char} (hds : ∀ c ∈ ds, c.isDigit)
    (hrest : NoDigit rest) (hpoint : rest.head? ≠ some '.') :
    scanFraction (fractionChars ds ++ rest) = some (ds, rest) := by
  cases ds with
  | nil =>
    unfold scanFraction fractionChars
    split
    · next h => rw [List.nil_append] at h; simp [h] at hpoint
    · rfl
  | cons d ds =>
    have hspan := spanDigits_append hds hrest
    simp only [fractionChars, List.cons_append, scanFraction] at hspan ⊢
    rw [hspan]

theorem scanExponent_append (e : Option Int) {rest : List Char} (hrest : EndsNumber rest) :
    scanExponent (exponentChars e ++ rest) = some (e, rest) := by
  cases e with
  | none =>
    cases rest with
    | nil => rfl
    | cons c cs =>
      have hpart := hrest c rfl
      simp only [isNumberPart, Bool.or_eq_false_iff] at hpart
      simp [exponentChars, scanExponent, hpart]
  | some e =>
    have hspan : spanDigits (Decimal.digits e.natAbs ++ rest) =
        (Decimal.digits e.natAbs, rest) :=
      spanDigits_append (fun _ => Decimal.isDigit_of_mem_digits) hrest.noDigit
    obtain ⟨d, ds, hds⟩ := List.exists_cons_of_ne_nil (Decimal.digits_ne_nil e.natAbs)
    have hvalue := Decimal.digitsValue_digits e.natAbs
    rw [hds] at hspan hvalue
    simp only [List.cons_append] at hspan
    by_cases he : 0 ≤ e
    · have habs : (e.natAbs : Int) = e := by omega
      simp only [exponentChars, if_pos he, hds, List.cons_append, scanExponent, splitSign, hspan,
        hvalue, habs, beq_self_eq_true, Bool.true_or, if_true, Bool.false_eq_true, if_false]
    · have habs : -(e.natAbs : Int) = e := by omega
      simp only [exponentChars, if_neg he, hds, List.cons_append, scanExponent, splitSign, hspan,
        hvalue, habs, beq_self_eq_true, Bool.true_or, if_true]

/-- The parts of a number are read back from the front of a text. -/
theorem scanNumber_append {t : NumberText} (ht : t.WellFormed) {rest : List Char}
    (hrest : EndsNumber rest) :
    scanNumber t.negative (t.unsigned ++ rest) = some (t, rest) := by
  have hexp : (exponentChars t.exponent ++ rest).head? ≠ some '.' := by
    cases t.exponent with
    | none =>
      intro h
      exact absurd (hrest _ h) (by decide)
    | some e => simp [exponentChars]
  unfold scanNumber
  rw [unsigned, List.append_assoc, List.append_assoc,
    scanWhole_append ht.whole (noDigit_fractionChars _ _ hrest)]
  simp only
  rw [scanFraction_append ht.fraction (noDigit_exponentChars _ hrest) hexp]
  simp only
  rw [scanExponent_append _ hrest]

/-- A token that begins with a digit is a number. -/
theorem scanOne_digit {c : Char} (hc : c.isDigit) (cs : List Char) :
    scanOne (c :: cs) = (scanNumber false (c :: cs)).map fun (n, rest) => (.number n, rest) := by
  unfold scanOne
  split
  case h_12 => rfl
  all_goals
    next h => exact absurd hc (by rw [(List.cons.inj h).1]; decide)

/-- **A number is cut out of a text as it was written.** -/
theorem scanOne_chars {t : NumberText} (ht : t.WellFormed) {rest : List Char}
    (hrest : EndsNumber rest) : scanOne (t.chars ++ rest) = some (.number t, rest) := by
  have hscan := scanNumber_append ht hrest
  unfold chars
  cases hneg : t.negative with
  | true =>
    rw [hneg] at hscan
    simp only [if_true, List.cons_append, List.nil_append, scanOne, hscan]
    rfl
  | false =>
    obtain ⟨d, ds, hds⟩ := List.exists_cons_of_ne_nil ht.whole.nonempty
    have hd : d.isDigit := ht.whole.digits d (by simp [hds])
    rw [hneg] at hscan
    simp only [unsigned, hds, List.cons_append] at hscan
    simp only [Bool.false_eq_true, if_false, List.nil_append, unsigned, hds, List.cons_append]
    rw [scanOne_digit hd, hscan]
    rfl

end Json.Token

/-! ## The parts of the numbers of a document -/

/-- A sign as a part of a number. -/
def isNegative : UnpackedFloat.Sign → Bool
  | .negative => true
  | .positive => false

/-- The parts of a decimal: positional in the range, with at least one digit behind the point,
and scientific outside of it. -/
def Decimal.parts (range : JsonRange) (negative : Bool) (d : Decimal) : NumberText :=
  if range.least ≤ d.leadingExponent ∧ d.leadingExponent ≤ range.greatest then
    { negative
      whole := d.positional.1
      fraction := if d.positional.2.isEmpty then ['0'] else d.positional.2
      exponent := none }
  else
    { negative
      whole := (digits d.significand).take 1
      fraction := (digits d.significand).drop 1
      exponent := some d.leadingExponent }

/-- The parts of a floating-point number, if it is finite. -/
def jsonParts? (range : JsonRange) (format : Format) : UnpackedFloat → Option NumberText
  | .notANumber | .infinity _ => none
  | .zero sign => some ⟨isNegative sign, ['0'], ['0'], none⟩
  | .finite sign mantissa exponent _ =>
    some ((Decimal.shortest .toEven format mantissa exponent).parts range (isNegative sign))

/-- The parts of a number of a document, if it is finite. -/
def Json.Number.written? : Number → Option NumberText
  | .natural n => some ⟨false, Decimal.digits n, [], none⟩
  | .negative n => some ⟨true, Decimal.digits n, [], none⟩
  | .double x => jsonParts? ⟨-5, 15⟩ Format.binary64 x.toModel.unpack
  | .single x => jsonParts? ⟨-6, 12⟩ Format.binary32 x.toModel.unpack

theorem signText_eq (sign : UnpackedFloat.Sign) :
    signText sign = if isNegative sign then ['-'] else [] := by
  cases sign <;> rfl

namespace Decimal

theorem chars_parts (range : JsonRange) (negative : Bool) (d : Decimal) :
    (d.parts range negative).chars = (if negative then ['-'] else []) ++
      if range.least ≤ d.leadingExponent ∧ d.leadingExponent ≤ range.greatest then
        d.positional.1 ++ '.' :: (if d.positional.2.isEmpty then ['0'] else d.positional.2)
      else d.scientific := by
  unfold parts NumberText.chars NumberText.unsigned
  split
  · cases hfraction : d.positional.2 <;>
      simp [NumberText.fractionChars, NumberText.exponentChars]
  · unfold scientific
    cases digits d.significand with
    | nil => simp [NumberText.fractionChars, NumberText.exponentChars]
    | cons c rest =>
      cases rest <;> simp [NumberText.fractionChars, NumberText.exponentChars]

/-- The digits of a normal decimal in positional form. -/
theorem isWhole_positional {d : Decimal} (hd : d.significand = 0 → d.exponent = 0) :
    IsWhole d.positional.1 := by
  have hwhole := isWhole_digits d.significand
  unfold positional
  dsimp only
  split
  · by_cases hexp : d.exponent.toNat = 0
    · simpa [hexp] using hwhole
    · have hsig : d.significand ≠ 0 := fun h => hexp (by rw [hd h]; rfl)
      refine ⟨?_, by simp [hwhole.nonempty], fun h => ?_⟩
      · intro c hc
        obtain hc | hc := List.mem_append.1 hc
        · exact hwhole.digits c hc
        · rw [(List.mem_replicate.1 hc).2]; rfl
      · have hhead : (digits d.significand).head? = some '0' := by
          obtain ⟨c, ds, hds⟩ := List.exists_cons_of_ne_nil hwhole.nonempty
          rw [hds] at h ⊢
          exact h
        exact absurd (eq_zero_of_head?_digits hhead) hsig
  · next hexp =>
    have hsig : d.significand ≠ 0 := fun h => hexp (Int.le_of_eq (hd h).symm)
    split
    · next hplaces =>
      refine ⟨fun c hc => hwhole.digits c (List.mem_of_mem_take hc), ?_, fun h => ?_⟩
      · rw [← List.length_pos_iff, List.length_take]
        omega
      · rw [List.head?_take, if_neg (by omega)] at h
        exact absurd (eq_zero_of_head?_digits h) hsig
    · exact ⟨by simp, by simp, by simp⟩

theorem isDigit_of_mem_positional {d : Decimal} {c : Char} (hc : c ∈ d.positional.2) :
    c.isDigit := by
  unfold positional at hc
  dsimp only at hc
  split at hc
  · simp at hc
  · split at hc
    · exact isDigit_of_mem_digits (List.mem_of_mem_drop hc)
    · obtain hc | hc := List.mem_append.1 hc
      · rw [(List.mem_replicate.1 hc).2]; rfl
      · exact isDigit_of_mem_digits hc

theorem wellFormed_parts (range : JsonRange) (negative : Bool) {d : Decimal}
    (hd : d.significand = 0 → d.exponent = 0) : (d.parts range negative).WellFormed := by
  unfold parts
  split
  · refine ⟨isWhole_positional hd, fun c hc => ?_⟩
    dsimp only at hc
    split at hc
    · rw [List.mem_singleton.1 hc]; rfl
    · exact isDigit_of_mem_positional hc
  · refine ⟨?_, fun c hc => isDigit_of_mem_digits (List.mem_of_mem_drop hc)⟩
    obtain ⟨c, rest, hcons⟩ := List.exists_cons_of_ne_nil (digits_ne_nil d.significand)
    have hc : c.isDigit := isDigit_of_mem_digits (n := d.significand) (by simp [hcons])
    constructor <;> simp [hcons, hc]

end Decimal

theorem jsonText_eq (range : JsonRange) (format : Format) (x : UnpackedFloat) :
    jsonText range format x = ((jsonParts? range format x).map (·.chars)).getD "null".toList := by
  cases x with
  | notANumber => rfl
  | infinity sign => rfl
  | zero sign => cases sign <;> rfl
  | finite sign mantissa exponent =>
    have hchars := Decimal.chars_parts range (isNegative sign)
      (Decimal.shortest .toEven format mantissa exponent)
    rw [← signText_eq] at hchars
    exact hchars.symm

theorem wellFormed_jsonParts {range : JsonRange} {format : Format} {x : UnpackedFloat}
    {t : NumberText} (h : jsonParts? range format x = some t) : t.WellFormed := by
  cases x with
  | notANumber =>
    have hnone : none = some t := h
    simp at hnone
  | infinity sign =>
    have hnone : none = some t := h
    simp at hnone
  | zero sign =>
    obtain rfl := Option.some.inj h
    exact ⟨⟨by simp, by simp, by simp⟩, by simp⟩
  | finite sign mantissa exponent =>
    obtain rfl := Option.some.inj h
    exact Decimal.wellFormed_parts _ _ Decimal.significand_shortest

namespace Json.Number

/-- The text of a number has just its parts. -/
theorem toList_text (n : Number) :
    n.text.toList = (n.written?.map (·.chars)).getD "null".toList := by
  cases n with
  | natural n =>
    simp [text, written?, NumberText.chars, NumberText.unsigned, NumberText.fractionChars,
      NumberText.exponentChars]
  | negative n =>
    simp [text, written?, NumberText.chars, NumberText.unsigned, NumberText.fractionChars,
      NumberText.exponentChars]
  | double x => simp only [text, written?, Double.jsonText, String.toList_ofList, jsonText_eq]
  | single x => simp only [text, written?, Single.jsonText, String.toList_ofList, jsonText_eq]

theorem wellFormed_written {n : Number} {t : NumberText} (h : n.written? = some t) :
    t.WellFormed := by
  cases n with
  | natural n =>
    obtain rfl := Option.some.inj h
    exact ⟨Decimal.isWhole_digits n, by simp⟩
  | negative n =>
    obtain rfl := Option.some.inj h
    exact ⟨Decimal.isWhole_digits n, by simp⟩
  | double x => exact wellFormed_jsonParts h
  | single x => exact wellFormed_jsonParts h

/-- An integer of 64 bits stands for itself. -/
theorem toNumber?_written_natural {n : Nat} (hn : n < Gathered.limit) :
    (natural n).written?.bind NumberText.toNumber? = some (natural n) := by
  simp [written?, NumberText.toNumber?, Decimal.digitsValue_digits, hn]

/-- A negative integer of 64 bits stands for itself. -/
theorem toNumber?_written_negative {n : Nat} (hpos : n ≠ 0) (hn : n ≤ 0x8000000000000000) :
    (negative n).written?.bind NumberText.toNumber? = some (negative n) := by
  have hlimit : n < Gathered.limit := Nat.lt_of_le_of_lt hn (by decide)
  simp [written?, NumberText.toNumber?, Decimal.digitsValue_digits, hpos, hn, hlimit]

end Json.Number

end LayeredDrawing
