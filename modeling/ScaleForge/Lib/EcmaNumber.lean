import Mathlib.Algebra.GroupWithZero.Nat
import Mathlib.Data.Int.Log
import Mathlib.Data.List.DropRight
import Mathlib.Data.List.TakeWhile
import Mathlib.Data.Rat.Floor

/-!
# Texts as numbers

The conversion of a string to a number in ECMAScript: white space is trimmed, an empty
text is zero, a number may be written in decimal with an exponent or in base 2, 8 or 16,
and what is no number is `NaN`.  A value is rounded to the nearest double.  The sign of
a zero is not kept.

## Main definitions

* `Number` — a double, as the rational it is.
* `nearest`, `toDouble` — the nearest double, of two the one with the even significand.
* `Number.reachedBy` — the comparison with a finite double.
* `trim` — `String.prototype.trim`.
* `Number.ofChars` — `Number(text)`.

## Main results

* `ofChars_eq_nan` — **a text with a foreign character is not a number.**
-/

namespace EcmaNumber

/-- A double. -/
inductive Number
  | nan
  | infinity (negative : Bool)
  | finite (value : ℚ)
  deriving DecidableEq

/-! ### Rounding -/

/-- The nearest integer, and of two the even one. -/
def roundEven (x : ℚ) : ℤ :=
  let n := ⌊x⌋
  if x - n < 1 / 2 then n
  else if 1 / 2 < x - n then n + 1
  else if n % 2 = 0 then n else n + 1

/-- The nearest number with a significand of 53 bits and no unit below `2 ^ -1074`. -/
def nearest (x : ℚ) : ℚ :=
  let exponent := max (Int.log 2 |x| - 52) (-1074)
  roundEven (x / 2 ^ exponent) * (2 : ℚ) ^ exponent

/-- The nearest double, which may be infinite. -/
def toDouble (x : ℚ) : Number :=
  if 2 ^ 1024 ≤ |nearest x| then .infinity (nearest x < 0) else .finite (nearest x)

/-- `x >= n`. -/
def Number.reachedBy (n : Number) (x : ℚ) : Bool :=
  match n with
  | .nan => false
  | .infinity negative => negative
  | .finite y => y ≤ x

theorem Number.reachedBy_mono {n : Number} {x y : ℚ} (h : n.reachedBy x = true) (hxy : x ≤ y) :
    n.reachedBy y = true := by
  cases n with
  | nan => exact h
  | infinity negative => exact h
  | finite z => exact decide_eq_true ((of_decide_eq_true h).trans hxy)

/-- A third is nearest to a double below it. -/
example : toDouble (1 / 3) = .finite (6004799503160661 / 2 ^ 54) := by decide +kernel

/-! ### White space -/

/-- `WhiteSpace` and `LineTerminator`. -/
def isSpace (c : Char) : Bool :=
  c.toNat ∈ [0x09, 0x0A, 0x0B, 0x0C, 0x0D, 0x20, 0xA0, 0x1680, 0x2028, 0x2029, 0x202F, 0x205F,
    0x3000, 0xFEFF] || (0x2000 ≤ c.toNat && c.toNat ≤ 0x200A)

/-- `text.trim()`. -/
def trim (text : List Char) : List Char := (text.dropWhile isSpace).rdropWhile isSpace

theorem mem_dropWhile {α : Type*} {p : α → Bool} {l : List α} {a : α} (h : a ∈ l)
    (ha : p a = false) : a ∈ l.dropWhile p := by
  rw [← List.takeWhile_append_dropWhile (p := p) (l := l), List.mem_append] at h
  refine h.resolve_left fun htake => ?_
  rw [List.mem_takeWhile_imp htake] at ha
  exact Bool.noConfusion ha

/-- Trimming keeps what is not space. -/
theorem mem_trim {text : List Char} {c : Char} (h : c ∈ text) (hc : isSpace c = false) :
    c ∈ trim text := by
  have hfront : c ∈ text.dropWhile isSpace := mem_dropWhile h hc
  rw [trim, List.rdropWhile, List.mem_reverse]
  exact mem_dropWhile (List.mem_reverse.mpr hfront) hc

/-! ### Digits -/

/-- The value of a digit, in any base up to 36. -/
def digit (c : Char) : Option ℕ :=
  if '0' ≤ c ∧ c ≤ '9' then some (c.toNat - 48)
  else if 'a' ≤ c ∧ c ≤ 'z' then some (c.toNat - 87)
  else if 'A' ≤ c ∧ c ≤ 'Z' then some (c.toNat - 55)
  else none

/-- Read one digit more. -/
def addDigit (base n : ℕ) (c : Char) : Option ℕ :=
  match digit c with
  | none => none
  | some d => if d < base then some (n * base + d) else none

/-- A number written in a base, with one digit at least. -/
def digits (base : ℕ) (text : List Char) : Option ℕ :=
  if text = [] then none else text.foldlM (addDigit base) 0

theorem foldlM_addDigit {base : ℕ} {text : List Char} {c : Char} (h : c ∈ text)
    (hc : digit c = none) (n : ℕ) : text.foldlM (addDigit base) n = none := by
  induction text generalizing n with
  | nil => exact absurd h List.not_mem_nil
  | cons d text ih =>
    rw [List.foldlM_cons]
    rcases List.mem_cons.mp h with rfl | h
    · simp [addDigit, hc]
    · cases hd : addDigit base n d with
      | none => rfl
      | some m => exact ih h m

theorem digits_eq_none {base : ℕ} {text : List Char} {c : Char} (h : c ∈ text)
    (hc : digit c = none) : digits base text = none := by
  rw [digits, if_neg (List.ne_nil_of_mem h), foldlM_addDigit h hc]

/-! ### Literals -/

/-- `SignedInteger`. -/
def signedInteger : List Char → Option ℤ
  | '+' :: text => (digits 10 text).map fun n : ℕ => (n : ℤ)
  | '-' :: text => (digits 10 text).map fun n : ℕ => -(n : ℤ)
  | text => (digits 10 text).map fun n : ℕ => (n : ℤ)

/-- `ExponentPart`, which may be left out. -/
def exponentPart : List Char → Option ℤ
  | [] => some 0
  | c :: text => if c = 'e' ∨ c = 'E' then signedInteger text else none

/-- The digits after the point, and the text after them. -/
def fraction : List Char → List Char × List Char
  | '.' :: text => (text.takeWhile Char.isDigit, text.dropWhile Char.isDigit)
  | text => ([], text)

/-- `StrUnsignedDecimalLiteral` with digits; one digit has to stand before the point or
after it. -/
def unsignedDecimal (text : List Char) : Option ℚ :=
  let whole := text.takeWhile Char.isDigit
  let rest := fraction (text.dropWhile Char.isDigit)
  match digits 10 (whole ++ rest.1), exponentPart rest.2 with
  | some n, some exponent => some (n * (10 : ℚ) ^ (exponent - rest.1.length))
  | _, _ => none

/-- A number, or what is none. -/
def ofOption : Option ℚ → Number
  | none => .nan
  | some x => toDouble x

/-- `StrDecimalLiteral` after its sign. -/
def decimalLiteral (negative : Bool) (text : List Char) : Number :=
  if text = "Infinity".toList then .infinity negative
  else ofOption ((unsignedDecimal text).map fun x => if negative then -x else x)

/-- `NonDecimalIntegerLiteral` after its prefix. -/
def integerLiteral (base : ℕ) (text : List Char) : Number :=
  ofOption ((digits base text).map fun n : ℕ => (n : ℚ))

/-- `StringNumericLiteral` without the white space around it. -/
def literal : List Char → Number
  | [] => .finite 0
  | '0' :: 'x' :: text => integerLiteral 16 text
  | '0' :: 'X' :: text => integerLiteral 16 text
  | '0' :: 'o' :: text => integerLiteral 8 text
  | '0' :: 'O' :: text => integerLiteral 8 text
  | '0' :: 'b' :: text => integerLiteral 2 text
  | '0' :: 'B' :: text => integerLiteral 2 text
  | '+' :: text => decimalLiteral false text
  | '-' :: text => decimalLiteral true text
  | text => decimalLiteral false text

/-- `Number(text)`. -/
def Number.ofChars (text : List Char) : Number := literal (trim text)

/-- The two texts denote one number; a unit after the number makes it none. -/
example : Number.ofChars "\t2.5e3".toList = Number.ofChars "0x9C4 ".toList ∧
    Number.ofChars "2500ms".toList = .nan := by decide +kernel

/-! ### Foreign characters -/

/-- A character that occurs in no numeric literal. -/
structure Foreign (c : Char) : Prop where
  digit : digit c = none
  plus : c ≠ '+'
  minus : c ≠ '-'
  point : c ≠ '.'
  space : isSpace c = false

section Foreign

variable {c : Char} (hc : Foreign c)
include hc

theorem ne_of_digit {d : Char} (hd : (digit d).isSome) : c ≠ d := by
  rintro rfl
  rw [hc.digit] at hd
  exact Bool.noConfusion hd

theorem signedInteger_eq_none {text : List Char} (h : c ∈ text) : signedInteger text = none := by
  unfold signedInteger
  split
  · rw [digits_eq_none ((List.mem_cons.mp h).resolve_left hc.plus) hc.digit, Option.map_none]
  · rw [digits_eq_none ((List.mem_cons.mp h).resolve_left hc.minus) hc.digit, Option.map_none]
  · rw [digits_eq_none h hc.digit, Option.map_none]

theorem exponentPart_eq_none {text : List Char} (h : c ∈ text) : exponentPart text = none := by
  cases text with
  | nil => exact absurd h List.not_mem_nil
  | cons d text =>
    rw [exponentPart]
    split
    · rename_i hd
      have hne : c ≠ d := by
        rcases hd with rfl | rfl
        · exact ne_of_digit hc (by decide)
        · exact ne_of_digit hc (by decide)
      exact signedInteger_eq_none hc ((List.mem_cons.mp h).resolve_left hne)
    · rfl

/-- A foreign character stands among the digits after the point or behind them. -/
theorem mem_fraction {text : List Char} (h : c ∈ text) :
    c ∈ (fraction text).1 ∨ c ∈ (fraction text).2 := by
  unfold fraction
  split
  · rename_i text
    have htail : c ∈ text := (List.mem_cons.mp h).resolve_left hc.point
    rwa [← List.mem_append, List.takeWhile_append_dropWhile]
  · exact Or.inr h

theorem unsignedDecimal_eq_none {text : List Char} (h : c ∈ text) :
    unsignedDecimal text = none := by
  have hparts : c ∈ text.takeWhile Char.isDigit ++ (fraction (text.dropWhile Char.isDigit)).1 ∨
      c ∈ (fraction (text.dropWhile Char.isDigit)).2 := by
    rw [← List.takeWhile_append_dropWhile (p := Char.isDigit) (l := text),
      List.mem_append] at h
    rcases h with h | h
    · exact Or.inl (List.mem_append_left _ h)
    · exact (mem_fraction hc h).imp_left (List.mem_append_right _)
  unfold unsignedDecimal
  rcases hparts with h | h
  · simp only [digits_eq_none h hc.digit]
  · simp only [exponentPart_eq_none hc h]
    split
    · contradiction
    · rfl

theorem decimalLiteral_eq_nan {text : List Char} (h : c ∈ text) (negative : Bool) :
    decimalLiteral negative text = .nan := by
  have hinfinity : text ≠ "Infinity".toList := by
    rintro rfl
    have hdigits : "Infinity".toList.all (fun d => (digit d).isSome) = true := by decide
    exact ne_of_digit hc (List.all_eq_true.mp hdigits c h) rfl
  rw [decimalLiteral, if_neg hinfinity, unsignedDecimal_eq_none hc h, Option.map_none, ofOption]

theorem integerLiteral_eq_nan {text : List Char} (h : c ∈ text) (base : ℕ) :
    integerLiteral base text = .nan := by
  rw [integerLiteral, digits_eq_none h hc.digit, Option.map_none, ofOption]

theorem literal_eq_nan {text : List Char} (h : c ∈ text) : literal text = .nan := by
  -- a foreign character is neither the zero nor the letter of a prefix
  have hbehind : ∀ {d : Char} {rest : List Char}, (digit d).isSome → c ∈ '0' :: d :: rest →
      c ∈ rest := fun hd hmem =>
    (List.mem_cons.mp ((List.mem_cons.mp hmem).resolve_left
      (ne_of_digit hc (by decide)))).resolve_left (ne_of_digit hc hd)
  unfold literal
  split
  · exact absurd h List.not_mem_nil
  · exact integerLiteral_eq_nan hc (hbehind (by decide) h) 16
  · exact integerLiteral_eq_nan hc (hbehind (by decide) h) 16
  · exact integerLiteral_eq_nan hc (hbehind (by decide) h) 8
  · exact integerLiteral_eq_nan hc (hbehind (by decide) h) 8
  · exact integerLiteral_eq_nan hc (hbehind (by decide) h) 2
  · exact integerLiteral_eq_nan hc (hbehind (by decide) h) 2
  · exact decimalLiteral_eq_nan hc ((List.mem_cons.mp h).resolve_left hc.plus) false
  · exact decimalLiteral_eq_nan hc ((List.mem_cons.mp h).resolve_left hc.minus) true
  · exact decimalLiteral_eq_nan hc h false

/-- **A text with a foreign character is not a number.** -/
theorem ofChars_eq_nan {text : List Char} (h : c ∈ text) : Number.ofChars text = .nan :=
  literal_eq_nan hc (mem_trim h hc.space)

end Foreign

end EcmaNumber
