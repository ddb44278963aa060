import NatcpSpec.Base.Number
import NatcpSpec.Base.Scanf

/-!
# The conversion `%lf`

What `sscanf` of the GNU C library reads as a double: decimal and hexadecimal numerals, infinities
and NaNs, after blanks and a sign. The letter of an exponent belongs to the numeral also where no
digits come behind it, and a number that is only begun is no number: `0x`, `infi` and `na` are
rejected. Numbers that were printed with a fixed number of decimals are read back.
-/

namespace NatcpSpec.Base

/-! ### Words -/

/-- The small letter of a byte. -/
def toLower (b : UInt8) : UInt8 := if 65 ≤ b ∧ b ≤ 90 then b + 32 else b

/-- A text begins with a word, in small or in capital letters. -/
def beginsWith (word s : Text) : Bool := (s.take word.length).map toLower = word

/-! ### Numerals -/

/-- An exponent behind its letter, with no value where the digits are missing: its value, and the
rest. -/
def exponentPart (letter : UInt8) (s : Text) : ℤ × Text :=
  if s.head?.map toLower = some letter then
    let digits := (sign s.tail).2.takeWhile isDigit
    (if (sign s.tail).1 then -digitsVal digits else digitsVal digits,
      (sign s.tail).2.dropWhile isDigit)
  else (0, s)

/-- A decimal numeral and the rest. -/
def scanDecimal (s : Text) : Option (ℚ × Text) :=
  (scanMantissa s).map (fun m ↦
    (m.1 * 10 ^ (exponentPart 101 m.2).1, (exponentPart 101 m.2).2))

/-- Bytes `0` to `9` and `a` to `f`. -/
def isHexDigit (b : UInt8) : Bool := isDigit b || (97 ≤ toLower b && toLower b ≤ 102)

/-- The digit a byte stands for. -/
def hexDigitVal (b : UInt8) : ℕ := if isDigit b then digitVal b else (toLower b).toNat - 87

/-- Value of a string of hexadecimal digits. -/
def hexVal (l : Text) : ℕ := Nat.ofDigits 16 (l.map hexDigitVal).reverse

/-- A hexadecimal numeral behind `0x` and the rest. A point alone is taken and has no value. -/
def scanHex (s : Text) : Option (ℚ × Text) :=
  let whole := s.takeWhile isHexDigit
  let rest := s.dropWhile isHexDigit
  let point : Bool := rest.head? = some 46
  let frac := if point then rest.tail.takeWhile isHexDigit else []
  let rest := if point then rest.tail.dropWhile isHexDigit else rest
  if whole = [] ∧ frac = [] then if point then some (0, rest) else none
  else some (hexVal (whole ++ frac) / 16 ^ frac.length * 2 ^ (exponentPart 112 rest).1,
    (exponentPart 112 rest).2)

/-- The conversion `%lf`: the number and the rest, or none if there is no number. -/
def scanFloat (c : Arith) (s : Text) : Option (Number × Text) :=
  let neg := (signAndRest s).1
  let rest := (signAndRest s).2
  -- `nan`, `infinity`, and `inf` where it is not the beginning of `infinity`
  if beginsWith [110, 97, 110] rest then some (.nan, rest.drop 3)
  else if beginsWith [105, 110, 102, 105, 110, 105, 116, 121] rest then
    some (.inf neg, rest.drop 8)
  else if beginsWith [105, 110, 102] rest ∧ ¬beginsWith [105, 110, 102, 105] rest then
    some (.inf neg, rest.drop 3)
  else
    -- `0x` begins a hexadecimal numeral
    (if beginsWith [48, 120] rest then scanHex (rest.drop 2) else scanDecimal rest).map
      (fun m ↦ (.ofNumeral c (if neg then -m.1 else m.1), m.2))

/-! ### Printed numbers -/

section Printed

variable {c : Arith} {r whole frac : Text}

/-- Reading starts behind blanks and the sign. -/
theorem scanFloat_congr {s s' : Text} (h : signAndRest s = signAndRest s') :
    scanFloat c s = scanFloat c s' := by
  unfold scanFloat
  rw [h]

@[simp]
theorem beginsWith_cons (v b : UInt8) (w s : Text) :
    beginsWith (v :: w) (b :: s) = (decide (toLower b = v) && beginsWith w s) := by
  simp [beginsWith]

private theorem toLower_of_isDigit {b : UInt8} (h : isDigit b = true) : toLower b = b := by
  simp only [isDigit, Bool.and_eq_true, decide_eq_true_eq] at h
  unfold toLower
  grind

private theorem not_beginsWith_of_isDigit {b v : UInt8} (h : isDigit b = true)
    (hv : isDigit v = false) (w s : Text) : beginsWith (v :: w) (b :: s) = false := by
  rw [beginsWith_cons, toLower_of_isDigit h]
  have hne : b ≠ v := by
    rintro rfl
    rw [h] at hv
    cases hv
  simp [hne]

-- What comes behind the first digit is no letter.
private theorem toLower_ne_of_digit {b : UInt8} {w s : Text} (hw : ∀ d ∈ b :: w, isDigit d = true)
    (hr : Stops r) (h : withPoint (b :: w) frac ++ r = b :: s) :
    s.head?.map toLower ≠ some 120 := by
  have hpoint : toLower 46 ≠ 120 := by decide
  have hdigit : ∀ d, isDigit d = true → toLower d ≠ 120 := by
    intro d hd h120
    rw [toLower_of_isDigit hd] at h120
    rw [h120] at hd
    cases hd
  have hblank : ∀ d, isSpace d = true → toLower d ≠ 120 := by
    intro d hd
    simp only [isSpace] at hd
    unfold toLower
    grind
  unfold withPoint at h
  split at h
  · rw [List.cons_append, List.cons.injEq] at h
    rw [← h.2]
    rcases w with _ | ⟨d, w⟩
    · rcases r with _ | ⟨d, r⟩
      · simp
      · simpa using hblank d (hr d rfl)
    · simpa using hdigit d (hw d (by simp))
  · rw [List.append_assoc, List.cons_append, List.cons.injEq] at h
    rw [← h.2]
    rcases w with _ | ⟨d, w⟩
    · simpa using hpoint
    · simpa using hdigit d (hw d (by simp))

private theorem exponentPart_of_stops (hr : Stops r) : exponentPart 101 r = (0, r) := by
  refine if_neg ?_
  rcases r with _ | ⟨d, r⟩
  · simp
  · have hd := hr d rfl
    simp only [isSpace] at hd
    simp only [List.head?_cons, Option.map_some, Option.some.injEq, toLower]
    grind

/-- A number printed with a sign and digits around a point is read as a double. -/
theorem scanFloat_withPoint (q : ℚ) (hne : whole ≠ []) (hw : ∀ b ∈ whole, isDigit b = true)
    (hf : ∀ b ∈ frac, isDigit b = true) (hr : Stops r) :
    scanFloat c (signText q ++ withPoint whole frac ++ r) =
      some (.ofNumeral c (if q < 0 then -pointVal whole frac else pointVal whole frac), r) := by
  obtain ⟨b, w, rfl⟩ := List.exists_cons_of_ne_nil hne
  have hb := hw b List.mem_cons_self
  obtain ⟨s, hs⟩ : ∃ s, withPoint (b :: w) frac ++ r = b :: s := by
    unfold withPoint
    split <;> exact ⟨_, rfl⟩
  have hnan : ∀ w, beginsWith (110 :: w) (b :: s) = false :=
    fun w ↦ not_beginsWith_of_isDigit hb rfl w s
  have hinf : ∀ w, beginsWith (105 :: w) (b :: s) = false :=
    fun w ↦ not_beginsWith_of_isDigit hb rfl w s
  have hhex : beginsWith [48, 120] (b :: s) = false := by
    have hnext := toLower_ne_of_digit hw hr hs
    rcases s with _ | ⟨d, s⟩
    · simp [beginsWith]
    · simp only [List.head?_cons, Option.map_some, ne_eq, Option.some.injEq] at hnext
      simp [hnext]
  have hscan := scanMantissa_withPoint hne hw hf hr
  rw [hs] at hscan
  unfold scanFloat
  rw [signAndRest_withPoint q hne hw, hs]
  simp only [hnan, hinf, hhex, Bool.false_eq_true, false_and, if_false, scanDecimal,
    hscan, Option.map_some, exponentPart_of_stops hr, zpow_zero, mul_one, decide_eq_true_eq]

/-- A number printed with `%.pf` is read as the double of the decimal it was rounded to. -/
theorem scanFloat_fixed (p : ℕ) (q : ℚ) (hr : Stops r) :
    scanFloat c (fixed p q ++ r) = some (.ofNumeral c (rounded p q), r) := by
  rw [fixed, scanFloat_withPoint q (decimal_ne_nil _) (fun b hb ↦ isDigit_of_mem_decimal hb)
    (fun b hb ↦ isDigit_of_mem_fixedDigits hb) hr, pointVal_units]
  rfl

end Printed

end NatcpSpec.Base
