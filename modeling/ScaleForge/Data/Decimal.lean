import Mathlib.Data.List.Basic
import Mathlib.Data.Int.Notation
import Mathlib.Tactic.Ring

/-!
# Money

Prices and amounts are `DECIMAL(12,2)` columns and `Prisma.Decimal` values.
Every amount of the program is a price with two decimals, an integer multiple
of one, or a sum of such, so a value is a whole number of hundredths.
`Prisma.Decimal` rounds the result of an operation to twenty significant
digits, half away from zero, and `toString` writes a value without trailing
zeros.

## Main definitions

* `Decimal` — a number of hundredths.
* `Decimal.mul`, `Decimal.add` — the two operations the program uses.
* `Decimal.Fits` — the value is storable in a `DECIMAL(12,2)` column.
* `Decimal.significantDigits` — the digits a value needs.
* `Decimal.toString`, `Decimal.ofChars` — the text of a value, and the value a
  text denotes.

## Main results

* `Decimal.foldl_add_hundredths` — a sum of few enough small values is exact.
* `Decimal.ofChars_toChars` — **the text of a value denotes that value.**
-/

namespace ScaleForge

/-- A decimal with at most two decimals, as a number of hundredths. -/
structure Decimal where
  /-- One hundred times the value. -/
  hundredths : ℤ
  deriving DecidableEq, Repr

namespace Decimal

/-- The significant digits `Prisma.Decimal` keeps. -/
def precision : ℕ := 20

/-- Round a magnitude to `precision` significant digits, half up. -/
def roundNat (n : ℕ) : ℕ :=
  let unit := 10 ^ ((Nat.toDigits 10 n).length - precision)
  (n + unit / 2) / unit * unit

/-- Round to `precision` significant digits, half away from zero. -/
def round (n : ℤ) : ℤ := n.sign * roundNat n.natAbs

/-- `new Prisma.Decimal(0)`. -/
def zero : Decimal := ⟨0⟩

/-- `a.add(b)`. -/
def add (a b : Decimal) : Decimal := ⟨round (a.hundredths + b.hundredths)⟩

/-- `a.mul(n)` for an integer `n`. -/
def mul (a : Decimal) (n : ℕ) : Decimal := ⟨round (a.hundredths * n)⟩

/-- The value is storable in a `DECIMAL(12,2)` column: ten digits before the
point. -/
def Fits (d : Decimal) : Prop := d.hundredths.natAbs < 10 ^ 12

instance (d : Decimal) : Decidable d.Fits := inferInstanceAs (Decidable (_ < _))

/-- The significant digits of a number of hundredths: the trailing zeros do not
count. -/
def significantDigits (n : ℤ) : ℕ :=
  ((Nat.toDigits 10 n.natAbs).reverse.dropWhile (· = '0')).length

/-! ### Exactness -/

theorem significantDigits_le {n : ℤ} {k : ℕ} (hk : 0 < k) (h : n.natAbs < 10 ^ k) :
    significantDigits n ≤ k := by
  have hlength : (Nat.toDigits 10 n.natAbs).length ≤ k :=
    (Nat.length_toDigits_le_iff (by decide) hk).mpr h
  refine Nat.le_trans (List.dropWhile_sublist _).length_le ?_
  rwa [List.length_reverse]

/-- A magnitude of at most `precision` digits is not rounded. -/
theorem round_eq_self {n : ℤ} (h : n.natAbs < 10 ^ precision) : round n = n := by
  have hlength : (Nat.toDigits 10 n.natAbs).length - precision = 0 := by
    rw [Nat.sub_eq_zero_iff_le]
    exact (Nat.length_toDigits_le_iff (by decide) (by decide)).mpr h
  have hnat : roundNat n.natAbs = n.natAbs := by
    simp only [roundNat, hlength, Nat.pow_zero, Nat.div_one, Nat.mul_one]
    omega
  rw [round, hnat, Int.sign_mul_natAbs]

theorem mul_hundredths {a : Decimal} {n : ℕ} (h : (a.hundredths * n).natAbs < 10 ^ precision) :
    (a.mul n).hundredths = a.hundredths * n := round_eq_self h

theorem add_hundredths {a b : Decimal}
    (h : (a.hundredths + b.hundredths).natAbs < 10 ^ precision) :
    (a.add b).hundredths = a.hundredths + b.hundredths := round_eq_self h

/-- **A sum of few enough small values is exact**, at every partial sum. -/
theorem foldl_add_hundredths {ds : List Decimal} {a : Decimal} (bound : ℕ)
    (hds : ∀ d ∈ ds, d.hundredths.natAbs ≤ bound)
    (h : a.hundredths.natAbs + ds.length * bound < 10 ^ precision) :
    (ds.foldl add a).hundredths = a.hundredths + (ds.map hundredths).sum := by
  induction ds generalizing a with
  | nil => simp
  | cons d ds ih =>
    have hd := hds d List.mem_cons_self
    rw [List.length_cons, Nat.succ_mul] at h
    have hadd : (a.add d).hundredths = a.hundredths + d.hundredths := by
      refine add_hundredths (Nat.lt_of_le_of_lt (Int.natAbs_add_le _ _) ?_)
      omega
    have habs := Int.natAbs_add_le a.hundredths d.hundredths
    rw [List.foldl_cons, ih (fun d hd => hds d (List.mem_cons_of_mem _ hd))
      (by rw [hadd]; omega), hadd, List.map_cons, List.sum_cons, Int.add_assoc]

/-- The size of a sum. -/
theorem natAbs_sum_le {ns : List ℤ} {bound : ℕ} (h : ∀ n ∈ ns, n.natAbs ≤ bound) :
    ns.sum.natAbs ≤ ns.length * bound := by
  induction ns with
  | nil => simp
  | cons n ns ih =>
    have hn := h n List.mem_cons_self
    have hrest := ih fun n hn => h n (List.mem_cons_of_mem _ hn)
    have habs := Int.natAbs_add_le n ns.sum
    rw [List.sum_cons, List.length_cons, Nat.succ_mul]
    omega

/-! ### Text -/

/-- The decimals of a value of `f` hundredths, without trailing zeros. -/
def fractionChars (f : ℕ) : List Char :=
  if f = 0 then []
  else if f % 10 = 0 then ['.', (f / 10).digitChar]
  else ['.', (f / 10).digitChar, (f % 10).digitChar]

/-- The characters of a magnitude of `n` hundredths. -/
def magnitudeChars (n : ℕ) : List Char := Nat.toDigits 10 (n / 100) ++ fractionChars (n % 100)

/-- The characters of `toString()`. -/
def toChars (d : Decimal) : List Char :=
  if d.hundredths < 0 then '-' :: magnitudeChars d.hundredths.natAbs
  else magnitudeChars d.hundredths.natAbs

/-- `d.toString()`. -/
def toString (d : Decimal) : String := String.ofList d.toChars

/-- The hundredths an unsigned decimal text with at most two decimals denotes. -/
def ofMagnitudeChars (cs : List Char) : Option ℕ :=
  let int := cs.takeWhile (· ≠ '.')
  let frac := (cs.dropWhile (· ≠ '.')).drop 1
  if int ≠ [] ∧ int.all Char.isDigit ∧ frac.all Char.isDigit ∧ frac.length ≤ 2 then
    some (Nat.ofDigitChars 10 ((frac ++ ['0', '0']).take 2) (Nat.ofDigitChars 10 int 0))
  else none

/-- The value a decimal text denotes. -/
def ofChars : List Char → Option Decimal
  | '-' :: cs => (ofMagnitudeChars cs).map fun n => ⟨-n⟩
  | cs => (ofMagnitudeChars cs).map fun n => ⟨n⟩

theorem takeWhile_toDigits_append {n : ℕ} {cs : List Char} (h : cs = [] ∨ cs.head? = some '.') :
    (Nat.toDigits 10 n ++ cs).takeWhile (· ≠ '.') = Nat.toDigits 10 n ∧
      (Nat.toDigits 10 n ++ cs).dropWhile (· ≠ '.') = cs := by
  have hne : ∀ c ∈ Nat.toDigits 10 n, decide (c ≠ '.') = true := by
    intro c hc
    have := Nat.isDigit_of_mem_toDigits (by decide) (by decide) hc
    rw [decide_eq_true_eq]
    rintro rfl
    exact absurd this (by decide)
  rw [List.takeWhile_append_of_pos hne, List.dropWhile_append_of_pos hne]
  rcases h with rfl | h
  · simp
  · cases cs with
    | nil => simp at h
    | cons c cs =>
      simp only [List.head?_cons, Option.some.injEq] at h
      simp [h]

theorem ofMagnitudeChars_magnitudeChars (n : ℕ) :
    ofMagnitudeChars (magnitudeChars n) = some n := by
  have hdigits : (Nat.toDigits 10 (n / 100)).all Char.isDigit = true :=
    List.all_eq_true.mpr fun c hc => Nat.isDigit_of_mem_toDigits (by decide) (by decide) hc
  have hd : ∀ k : ℕ, k < 10 → k.digitChar.isDigit = true := by decide
  have hval : ∀ k : ℕ, k < 10 → k.digitChar.toNat - '0'.toNat = k := by decide
  have hfrac : n % 100 < 100 := Nat.mod_lt _ (by decide)
  have hhead : fractionChars (n % 100) = [] ∨ (fractionChars (n % 100)).head? = some '.' := by
    unfold fractionChars
    split
    · exact Or.inl rfl
    · split <;> exact Or.inr rfl
  obtain ⟨htake, hdrop⟩ := takeWhile_toDigits_append (n := n / 100) hhead
  unfold ofMagnitudeChars magnitudeChars
  simp only [htake, hdrop]
  -- what is left is to read the decimals back, padded to two
  have hread : (fractionChars (n % 100)).drop 1 = [] ∧ n % 100 = 0 ∨
      (∃ k < 10, (fractionChars (n % 100)).drop 1 = [k.digitChar] ∧ n % 100 = 10 * k) ∨
      ∃ k < 10, ∃ l < 10, (fractionChars (n % 100)).drop 1 = [k.digitChar, l.digitChar] ∧
        n % 100 = 10 * k + l := by
    unfold fractionChars
    split
    · next h => exact Or.inl ⟨rfl, h⟩
    · split
      · next h => exact Or.inr (Or.inl ⟨n % 100 / 10, by omega, rfl, by omega⟩)
      · exact Or.inr (Or.inr ⟨n % 100 / 10, by omega, n % 100 % 10, by omega, rfl, by omega⟩)
  rcases hread with ⟨hf, hn⟩ | ⟨k, hk, hf, hn⟩ | ⟨k, hk, l, hl, hf, hn⟩
  · rw [hf, if_pos ⟨Nat.toDigits_ne_nil, hdigits, rfl, by decide⟩]
    simp only [List.nil_append, List.take, Nat.ofDigitChars_cons, Nat.ofDigitChars_nil,
      Nat.ofDigitChars_ten_toDigits]
    exact congrArg some (by simp; omega)
  · rw [hf, if_pos ⟨Nat.toDigits_ne_nil, hdigits, by simp [hd k hk], by simp⟩]
    simp only [List.cons_append, List.nil_append, List.take, Nat.ofDigitChars_cons,
      Nat.ofDigitChars_nil, Nat.ofDigitChars_ten_toDigits, hval k hk]
    exact congrArg some (by simp; omega)
  · rw [hf, if_pos ⟨Nat.toDigits_ne_nil, hdigits, by simp [hd k hk, hd l hl], by simp⟩]
    simp only [List.cons_append, List.nil_append, List.take, Nat.ofDigitChars_cons,
      Nat.ofDigitChars_nil, Nat.ofDigitChars_ten_toDigits, hval k hk, hval l hl]
    exact congrArg some (by omega)

theorem magnitudeChars_head_ne (n : ℕ) (cs : List Char) : magnitudeChars n ≠ '-' :: cs := by
  intro h
  have hmem : '-' ∈ Nat.toDigits 10 (n / 100) := by
    unfold magnitudeChars at h
    cases hd : Nat.toDigits 10 (n / 100) with
    | nil => exact absurd hd Nat.toDigits_ne_nil
    | cons c ds =>
      rw [hd, List.cons_append, List.cons.injEq] at h
      rw [h.1]
      exact List.mem_cons_self
  have := Nat.isDigit_of_mem_toDigits (by decide) (by decide) hmem
  exact absurd this (by decide)

/-- **The text of a value denotes that value.** -/
theorem ofChars_toChars (d : Decimal) : ofChars d.toChars = some d := by
  obtain ⟨h⟩ := d
  unfold toChars
  split
  · next hneg =>
    change h < 0 at hneg
    rw [ofChars, ofMagnitudeChars_magnitudeChars]
    have habs : -(h.natAbs : ℤ) = h := by omega
    exact congrArg some (congrArg mk habs)
  · next hpos =>
    change ¬h < 0 at hpos
    rw [ofChars]
    · rw [ofMagnitudeChars_magnitudeChars]
      have habs : (h.natAbs : ℤ) = h := by omega
      exact congrArg some (congrArg mk habs)
    · intro cs hcs
      exact magnitudeChars_head_ne _ _ hcs

end Decimal

/-- `12.5 * 2` is written `25`. -/
example : ((⟨1250⟩ : Decimal).mul 2).toChars = ['2', '5'] := by decide

end ScaleForge
