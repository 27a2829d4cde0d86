import LayeredDrawing.Json.Value

/-!
# The text of a string

A string between quotes is read back as it was encoded (`Json.Token.scanOne_quoted`), and
what is encoded stands for the string that it came from (`Json.StringText.decode_encode`). Both
go by one part of the string at a time: a character with a short escape, another control
character with its code, or a character that stands for itself (`Json.StringText.Encodes`).
-/

namespace LayeredDrawing.Json

/-! ## The parts of an encoded string -/

namespace StringText

/-- The encoding of a character. -/
def encodeChar (c : Char) : StringUnit :=
  if c.toNat < 0x20 && (shortEscape? c).isNone then .code c.toNat else .char c

theorem encode_eq (s : String) : encode s = s.toList.map encodeChar := rfl

/-- The ways in which a character is encoded. -/
inductive Encodes : Char → StringUnit → Prop
  /-- A character with an escape of its own. -/
  | short {c e : Char} : shortEscape? c = some e → Encodes c (.char c)
  /-- A character that stands for itself. -/
  | plain {c : Char} : shortEscape? c = none → 0x20 ≤ c.toNat → Encodes c (.char c)
  /-- Another control character. -/
  | control {c : Char} : c.toNat < 0x20 → Encodes c (.code c.toNat)

theorem encodes_encodeChar (c : Char) : Encodes c (encodeChar c) := by
  unfold encodeChar
  cases hshort : shortEscape? c with
  | some e => simpa using Encodes.short hshort
  | none =>
    by_cases hc : c.toNat < 0x20
    · simpa [hc] using Encodes.control hc
    · simpa [hc] using Encodes.plain hshort (by omega)

/-! ## Decoding -/

theorem decodeOnto_encoded {c : Char} {u : StringUnit} (h : Encodes c u) (done : List Char)
    (rest : StringText) : decodeOnto done (u :: rest) = decodeOnto (c :: done) rest := by
  cases h with
  | short _ => simp only [decodeOnto]
  | plain _ _ => simp only [decodeOnto]
  | control hc =>
    have hhigh : isHighSurrogate c.toNat = false := by simp [isHighSurrogate]; omega
    have hlow : isLowSurrogate c.toNat = false := by simp [isLowSurrogate]; omega
    match rest with
    | [] => simp [decodeOnto, hhigh, hlow]
    | .char _ :: _ => simp [decodeOnto, hhigh, hlow]
    | .code _ :: _ => simp [decodeOnto, hhigh, hlow]

theorem decodeOnto_encode (done cs : List Char) :
    decodeOnto done (cs.map encodeChar) = some (done.reverse ++ cs) := by
  induction cs generalizing done with
  | nil => simp [decodeOnto]
  | cons c cs ih =>
    rw [List.map_cons, decodeOnto_encoded (encodes_encodeChar c), ih]
    simp

/-- An encoded string stands for the string. -/
@[simp] theorem decode_encode (s : String) : (encode s).decode = some s := by
  rw [decode, encode_eq, decodeOnto_encode]
  simp

end StringText

/-! ## Reading -/

namespace Token

open StringText

/-- A short escape is undone, and is not taken for the code of a character. -/
theorem unescape?_shortEscape {c e : Char} (h : shortEscape? c = some e) :
    unescape? e = some c ∧ e ≠ 'u' := by
  unfold shortEscape? at h
  split at h <;> first | (cases h; decide) | simp at h

theorem hexUnit?_hexDigit {n : Nat} (hn : n < 0x20) :
    hexUnit? (Text.hexDigit (n / 4096 % 16)) (Text.hexDigit (n / 256 % 16))
      (Text.hexDigit (n / 16 % 16)) (Text.hexDigit (n % 16)) = some n := by
  revert n
  decide

theorem scanString_encoded {c : Char} {u : StringUnit} (h : Encodes c u) (done : StringText)
    (rest : List Char) :
    scanString done (Value.unitText u ++ rest) = scanString (u :: done) rest := by
  cases h with
  | short hshort =>
    obtain ⟨hescape, hu⟩ := unescape?_shortEscape hshort
    simp [Value.unitText, hshort, scanString, hescape, hu]
  | plain hshort hc =>
    have hquote : c ≠ '"' := by rintro rfl; simp [shortEscape?] at hshort
    have hslash : c ≠ '\\' := by rintro rfl; simp [shortEscape?] at hshort
    have hprint : ¬ c.toNat < 0x20 := by omega
    simp [Value.unitText, hshort, scanString, hslash, hprint]
  | control hc =>
    simp only [Value.unitText, List.cons_append, List.nil_append, scanString,
      hexUnit?_hexDigit hc]

theorem scanString_encode (done : StringText) (cs rest : List Char) :
    scanString done ((cs.map encodeChar).flatMap Value.unitText ++ '"' :: rest) =
      some (done.reverse ++ cs.map encodeChar, rest) := by
  induction cs generalizing done with
  | nil => simp [scanString]
  | cons c cs ih =>
    rw [List.map_cons, List.flatMap_cons, List.append_assoc,
      scanString_encoded (encodes_encodeChar c), ih]
    simp

/-- **A string in quotes is cut out of a text as it was encoded.** -/
theorem scanOne_quoted (s : String) (rest : List Char) :
    scanOne ((Value.quoted s).toList ++ rest) = some (.string (encode s), rest) := by
  have hscan := scanString_encode [] s.toList rest
  simp only [List.reverse_nil, List.nil_append] at hscan
  simp only [Value.quoted, String.toList_ofList, List.cons_append, List.append_assoc,
    List.nil_append, scanOne, encode_eq, hscan]
  rfl

end Token

end LayeredDrawing.Json
