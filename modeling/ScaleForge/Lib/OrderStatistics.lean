import Mathlib.Algebra.Order.Floor.Semiring
import Mathlib.Data.List.Count
import Mathlib.Data.List.Sort

/-!
# Order statistics

The element at a place of a sorted list is known by two counts: so many elements are
smaller, and so many are not greater.  The counts do not speak of the order of the list,
and fix the element.

## Main definitions

* `IsRank k values x` — `x` is at the place `k` when the values are sorted.
* `IsPercentile q values x` — the nearest-rank percentile, for a fraction `q`.

## Main results

* `isRank_getElem_insertionSort` — sorting finds the element of every rank.
* `IsPercentile.unique` — there is one percentile.
* `IsPercentile.le_of_le` — percentiles are in the order of their fractions.
* `isPercentile_iff_isRank` — a percentile is the element of a rank.
-/

namespace OrderStatistics

variable {α : Type*} [LinearOrder α]

/-- `x` is at the place `k`, from zero, when the values are sorted. -/
structure IsRank (k : ℕ) (values : List α) (x : α) : Prop where
  mem : x ∈ values
  lt : values.countP (· < x) ≤ k
  le : k < values.countP (· ≤ x)

/-- The counts do not depend on the order of the values. -/
theorem IsRank.perm {k : ℕ} {values values' : List α} {x : α} (h : IsRank k values x)
    (hperm : values.Perm values') : IsRank k values' x where
  mem := hperm.mem_iff.mp h.mem
  lt := by rw [← hperm.countP_eq]; exact h.lt
  le := by rw [← hperm.countP_eq]; exact h.le

/-- What is not greater than the smaller of two elements is smaller than the other. -/
theorem countP_le_countP_lt {values : List α} {x y : α} (h : x < y) :
    values.countP (· ≤ x) ≤ values.countP (· < y) :=
  List.countP_mono_left fun z _ hz => by
    simp only [decide_eq_true_eq] at hz ⊢
    exact lt_of_le_of_lt hz h

/-- The place of an element in a sorted list is its rank. -/
theorem isRank_getElem_of_sorted {values : List α} (h : values.SortedLE) {k : ℕ}
    (hk : k < values.length) : IsRank k values values[k] where
  mem := List.getElem_mem hk
  lt := by
    -- nothing from the place on is smaller
    have hlater : (values.drop k).countP (· < values[k]) = 0 := by
      rw [List.countP_eq_zero]
      intro z hz
      obtain ⟨i, hi, rfl⟩ := List.mem_iff_getElem.mp hz
      rw [List.getElem_drop]
      simp only [decide_eq_true_eq, not_lt]
      exact h.getElem_le_getElem_of_le (Nat.le_add_right k i)
    calc values.countP (· < values[k])
        = (values.take k).countP (· < values[k]) + (values.drop k).countP (· < values[k]) := by
          rw [← List.countP_append, List.take_append_drop]
      _ ≤ k := by
          rw [hlater, Nat.add_zero]
          exact List.countP_le_length.trans (List.length_take_le k values)
  le := by
    -- nothing up to the place is greater
    have hearlier : (values.take (k + 1)).countP (· ≤ values[k]) = k + 1 := by
      have hlength : (values.take (k + 1)).length = k + 1 :=
        List.length_take_of_le hk
      rw [List.countP_eq_length.mpr, hlength]
      intro z hz
      obtain ⟨i, hi, rfl⟩ := List.mem_iff_getElem.mp hz
      rw [List.getElem_take]
      simp only [decide_eq_true_eq]
      exact h.getElem_le_getElem_of_le (by omega)
    have htake := (List.take_sublist (k + 1) values).countP_le (p := fun z => z ≤ values[k])
    rwa [hearlier] at htake

/-- **Sorting finds the element of every rank.** -/
theorem isRank_getElem_insertionSort (values : List α) {k : ℕ}
    (hk : k < (values.insertionSort (· ≤ ·)).length) :
    IsRank k values (values.insertionSort (· ≤ ·))[k] :=
  (isRank_getElem_of_sorted List.sortedLE_insertionSort hk).perm
    (List.perm_insertionSort _ values)

/-! ### Percentiles -/

section Percentile

variable {K : Type*} [Semiring K] [LinearOrder K] [FloorSemiring K]

/-- The nearest-rank percentile: fewer than the fraction of the values are smaller, and at
least the fraction are not greater. -/
structure IsPercentile (q : K) (values : List α) (x : α) : Prop where
  mem : x ∈ values
  lt : (values.countP (· < x) : K) < q * values.length
  le : q * values.length ≤ values.countP (· ≤ x)

omit [FloorSemiring K] in
/-- The counts do not depend on the order of the values. -/
theorem IsPercentile.perm {q : K} {values values' : List α} {x : α}
    (h : IsPercentile q values x) (hperm : values.Perm values') : IsPercentile q values' x where
  mem := hperm.mem_iff.mp h.mem
  lt := by rw [← hperm.countP_eq, ← hperm.length_eq]; exact h.lt
  le := by rw [← hperm.countP_eq, ← hperm.length_eq]; exact h.le

/-- **Percentiles are in the order of their fractions.** -/
theorem IsPercentile.le_of_le {q q' : K} {values : List α} {x y : α}
    (hq : q * values.length ≤ q' * values.length) (hx : IsPercentile q values x)
    (hy : IsPercentile q' values y) : x ≤ y := by
  by_contra hlt
  have hcount : values.countP (· ≤ y) ≤ values.countP (· < x) :=
    countP_le_countP_lt (not_le.mp hlt)
  have hbelow : values.countP (· < x) < ⌈q * values.length⌉₊ := Nat.lt_ceil.mpr hx.lt
  have hceil : ⌈q * values.length⌉₊ ≤ ⌈q' * values.length⌉₊ := Nat.ceil_mono hq
  have habove : ⌈q' * values.length⌉₊ ≤ values.countP (· ≤ y) := Nat.ceil_le.mpr hy.le
  omega

/-- **There is one percentile.** -/
theorem IsPercentile.unique {q : K} {values : List α} {x y : α} (hx : IsPercentile q values x)
    (hy : IsPercentile q values y) : x = y :=
  le_antisymm (hx.le_of_le le_rfl hy) (hy.le_of_le le_rfl hx)

/-- **A percentile is the element of a rank.** -/
theorem isPercentile_iff_isRank {q : K} {values : List α} {x : α}
    (hq : 0 < ⌈q * values.length⌉₊) :
    IsPercentile q values x ↔ IsRank (⌈q * values.length⌉₊ - 1) values x := by
  constructor
  · rintro ⟨hmem, hlt, hle⟩
    have hlt := Nat.lt_ceil.mpr hlt
    have hle := Nat.ceil_le.mpr hle
    exact ⟨hmem, by omega, by omega⟩
  · rintro ⟨hmem, hlt, hle⟩
    exact ⟨hmem, Nat.lt_ceil.mp (by omega), Nat.ceil_le.mp (by omega)⟩

end Percentile

end OrderStatistics
