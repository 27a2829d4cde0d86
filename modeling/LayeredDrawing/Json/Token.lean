import LayeredDrawing.Json.Tree
import LayeredDrawing.Text

/-!
# Tokens of a JSON text

`Token.scan` cuts a text into its tokens. Blanks are the space, the tab, the line feed and the
carriage return; a number has no leading zero and digits on both sides of its point; a string
holds no unescaped control character. Whether two tokens may follow each other is not decided
here.
-/

namespace LayeredDrawing.Json

open Text (hexDigit? digitsValue splitSign splitSign_length_le)

/-- The smallest parts of a JSON text. -/
inductive Token
  | beginArray
  | endArray
  | beginObject
  | endObject
  | comma
  | colon
  | null
  | bool (b : Bool)
  | number (n : NumberText)
  | string (s : StringText)
  deriving DecidableEq, Repr

namespace Token

/-- A blank between tokens. -/
def isBlank (c : Char) : Bool := c == ' ' || c == '\t' || c == '\n' || c == '\r'

/-! ## Strings -/

/-- The code unit of four hexadecimal digits. -/
def hexUnit? (a b c d : Char) : Option Nat :=
  match hexDigit? a, hexDigit? b, hexDigit? c, hexDigit? d with
  | some a, some b, some c, some d => some (((a * 16 + b) * 16 + c) * 16 + d)
  | _, _, _, _ => none

/-- The character that a short escape stands for. -/
def unescape? (c : Char) : Option Char :=
  match c with
  | '"' => some '"'
  | '\\' => some '\\'
  | '/' => some '/'
  | 'b' => some '\x08'
  | 'f' => some '\x0c'
  | 'n' => some '\n'
  | 'r' => some '\r'
  | 't' => some '\t'
  | _ => none

/-- The rest of a string after its opening quote, added to the units already read (newest
first), and the text behind the closing quote. -/
def scanString (done : StringText) : List Char → Option (StringText × List Char)
  | [] => none
  | '"' :: rest => some (done.reverse, rest)
  | '\\' :: 'u' :: a :: b :: c :: d :: rest =>
    match hexUnit? a b c d with
    | some n => scanString (.code n :: done) rest
    | none => none
  | '\\' :: c :: rest =>
    match unescape? c with
    | some c => scanString (.char c :: done) rest
    | none => none
  | c :: rest => if c.toNat < 0x20 || c == '\\' then none else scanString (.char c :: done) rest

/-! ## Numbers -/

/-- The digits at the beginning of a text and the text behind them. -/
def spanDigits (cs : List Char) : List Char × List Char :=
  (cs.takeWhile Char.isDigit, cs.dropWhile Char.isDigit)

/-- The digits before the point: a lone zero, or digits of which the first is not zero. -/
def scanWhole (cs : List Char) : Option (List Char × List Char) :=
  match spanDigits cs with
  | ([], _) => none
  | ('0' :: _ :: _, _) => none
  | (ds, rest) => some (ds, rest)

/-- The point and the digits behind it, if the text goes on with a point. -/
def scanFraction : List Char → Option (List Char × List Char)
  | '.' :: cs =>
    match spanDigits cs with
    | ([], _) => none
    | (ds, rest) => some (ds, rest)
  | cs => some ([], cs)

/-- The exponent, if the text goes on with an exponent sign. -/
def scanExponent (cs : List Char) : Option (Option Int × List Char) :=
  match cs with
  | c :: rest =>
    if c == 'e' || c == 'E' then
      let (negative, rest) := splitSign rest
      match spanDigits rest with
      | ([], _) => none
      | (ds, rest) => some (some (if negative then -digitsValue ds else digitsValue ds), rest)
    else some (none, cs)
  | [] => some (none, [])

/-- A number at the beginning of a text, its sign apart, and the text behind it. -/
def scanNumber (negative : Bool) (cs : List Char) : Option (NumberText × List Char) :=
  match scanWhole cs with
  | none => none
  | some (whole, rest) =>
    match scanFraction rest with
    | none => none
    | some (fraction, rest) =>
      match scanExponent rest with
      | none => none
      | some (exponent, rest) => some (⟨negative, whole, fraction, exponent⟩, rest)

/-! ## Texts -/

/-- The token at the beginning of a text that does not begin with a blank. -/
def scanOne : List Char → Option (Token × List Char)
  | '[' :: rest => some (.beginArray, rest)
  | ']' :: rest => some (.endArray, rest)
  | '\x7b' :: rest => some (.beginObject, rest)
  | '\x7d' :: rest => some (.endObject, rest)
  | ',' :: rest => some (.comma, rest)
  | ':' :: rest => some (.colon, rest)
  | '"' :: rest => (scanString [] rest).map fun (s, rest) => (.string s, rest)
  | 'n' :: 'u' :: 'l' :: 'l' :: rest => some (.null, rest)
  | 't' :: 'r' :: 'u' :: 'e' :: rest => some (.bool true, rest)
  | 'f' :: 'a' :: 'l' :: 's' :: 'e' :: rest => some (.bool false, rest)
  | '-' :: rest => (scanNumber true rest).map fun (n, rest) => (.number n, rest)
  | rest => (scanNumber false rest).map fun (n, rest) => (.number n, rest)

/-! ### Every token takes at least one character -/

theorem scanString_length_lt {done s : StringText} {cs rest : List Char}
    (h : scanString done cs = some (s, rest)) : rest.length < cs.length := by
  fun_induction scanString done cs with
  | case1 => simp at h
  | case2 => simp at h; simp [h.2]
  | case3 _ _ _ _ _ _ _ _ ih => have := ih h; simp; omega
  | case4 => simp at h
  | case5 _ _ _ _ _ _ ih => have := ih h; simp; omega
  | case6 => simp at h
  | case7 => simp at h
  | case8 _ _ _ _ _ _ _ ih => have := ih h; simp; omega

theorem spanDigits_length (cs : List Char) :
    (spanDigits cs).1.length + (spanDigits cs).2.length = cs.length := by
  rw [spanDigits, ← List.length_append, List.takeWhile_append_dropWhile]

theorem scanWhole_length_lt {cs ds rest : List Char} (h : scanWhole cs = some (ds, rest)) :
    rest.length < cs.length := by
  have hspan := spanDigits_length cs
  unfold scanWhole at h
  split at h
  · simp at h
  · simp at h
  · next ds' rest' hne _ hs =>
    simp only [Option.some.injEq, Prod.mk.injEq] at h
    rw [hs] at hspan
    have : ds' ≠ [] := fun hnil => hne hnil
    have := List.length_pos_iff.2 this
    simp at hspan
    rw [← h.2]
    omega

theorem scanFraction_length_le {cs ds rest : List Char}
    (h : scanFraction cs = some (ds, rest)) : rest.length ≤ cs.length := by
  unfold scanFraction at h
  split at h
  · next cs =>
    have hspan := spanDigits_length cs
    split at h
    · simp at h
    · next hs =>
      simp only [Option.some.injEq, Prod.mk.injEq] at h
      rw [hs] at hspan
      simp at hspan ⊢
      rw [← h.2]
      omega
  · simp only [Option.some.injEq, Prod.mk.injEq] at h
    exact Nat.le_of_eq (congrArg List.length h.2.symm)

theorem scanExponent_length_le {cs rest : List Char} {e : Option Int}
    (h : scanExponent cs = some (e, rest)) : rest.length ≤ cs.length := by
  unfold scanExponent at h
  split at h
  · next c tail =>
    split at h
    · have hsign := splitSign_length_le tail
      have hspan := spanDigits_length (splitSign tail).2
      simp only at h
      split at h
      · simp at h
      · next hs =>
        simp only [Option.some.injEq, Prod.mk.injEq] at h
        rw [hs] at hspan
        rw [← h.2]
        simp at hspan ⊢
        omega
    · simp only [Option.some.injEq, Prod.mk.injEq] at h
      exact Nat.le_of_eq (congrArg List.length h.2.symm)
  · simp only [Option.some.injEq, Prod.mk.injEq] at h
    exact Nat.le_of_eq (congrArg List.length h.2.symm)

theorem scanNumber_length_lt {negative : Bool} {cs rest : List Char} {n : NumberText}
    (h : scanNumber negative cs = some (n, rest)) : rest.length < cs.length := by
  unfold scanNumber at h
  split at h
  · simp at h
  · next hw =>
    split at h
    · simp at h
    · next hf =>
      split at h
      · simp at h
      · next he =>
        simp only [Option.some.injEq, Prod.mk.injEq] at h
        have := scanWhole_length_lt hw
        have := scanFraction_length_le hf
        have := scanExponent_length_le he
        rw [← h.2]
        omega

theorem scanOne_length_lt {cs rest : List Char} {t : Token} (h : scanOne cs = some (t, rest)) :
    rest.length < cs.length := by
  unfold scanOne at h
  split at h <;>
    simp only [Option.some.injEq, Prod.mk.injEq, Option.map_eq_some_iff, Prod.exists] at h
  all_goals first
    | (rw [← h.2]; simp; try omega)
    | (obtain ⟨_, _, h, _, rfl⟩ := h
       first
         | exact scanNumber_length_lt h
         | (have hlt := scanNumber_length_lt h; simp; omega)
         | (have hlt := scanString_length_lt h; simp; omega))

/-- The tokens of a text, added to those already found (newest first). -/
def scanOnto (done : List Token) (cs : List Char) : Option (List Token) :=
  match cs with
  | [] => some done.reverse
  | c :: rest =>
    if isBlank c then scanOnto done rest
    else
      match _h : scanOne (c :: rest) with
      | none => none
      | some (token, rest') => scanOnto (token :: done) rest'
termination_by cs.length
decreasing_by
  · simp
  · exact scanOne_length_lt _h

/-- The tokens of a text. -/
def scan (text : String) : Option (List Token) := scanOnto [] text.toList

end Token

end LayeredDrawing.Json
