import ScaleForge.Lib.OrderStatistics
import ScaleForge.ScalingLab.Report
import Mathlib.Tactic.Linarith
import Mathlib.Tactic.Positivity

/-!
# The latencies of the load probe

`latencySummary` sorts the durations and takes the elements at some places.  The place
of a fraction is in the array, and its element is the nearest-rank percentile; rounding
to two decimals keeps the order.  A summary so depends on the counts of the durations
alone, and not on the order in which the requests were answered.

But `Math.min(...values)` takes the durations as its arguments, and throws when there are more
of them than a call can have: the summary of a long list is never made.

## Main definitions

* `Summarizes` — what a summary says of a list of durations.
* `SummaryExact` — there is a summary, made of order statistics.

## Main results

* `percentileIndex_lt` — the place is in the array.
* `percentile_eq_some` — `percentile` rounds the nearest-rank percentile.
* `toFixed_mono` — rounding keeps the order.
* `latencySummary_exact_iff` — **the summary is exact, for as many samples as a call has
  arguments.**
* `long_list_throws` — a phase of 150 000 requests has no summary.
-/

namespace ScaleForge

namespace ScalingLab

open OrderStatistics

/-! ### Percentiles -/

theorem percentileIndex_eq (fraction : ℚ) (length : ℕ) :
    percentileIndex fraction length = ⌈fraction * length⌉₊ - 1 := by
  unfold percentileIndex
  rw [← Int.ceil_toNat]
  omega

/-- **The place is in the array**, for every length. -/
theorem percentileIndex_lt {fraction : ℚ} {length : ℕ} (hle : fraction ≤ 1)
    (hlength : 0 < length) : percentileIndex fraction length < length := by
  have htop : ⌈fraction * length⌉₊ ≤ length :=
    Nat.ceil_le.mpr (mul_le_of_le_one_left (Nat.cast_nonneg _) hle)
  rw [percentileIndex_eq]
  omega

/-- **`percentile` rounds the nearest-rank percentile.** -/
theorem percentile_eq_some {values : List ℚ} {fraction : ℚ} (hvalues : values ≠ [])
    (hpos : 0 < fraction) (hle : fraction ≤ 1) :
    ∃ x, IsPercentile fraction values x ∧ percentile values fraction = some (toFixed 2 x) := by
  have hlength : 0 < values.length := List.length_pos_iff.mpr hvalues
  have hceil : 0 < ⌈fraction * values.length⌉₊ :=
    Nat.ceil_pos.mpr (mul_pos hpos (Nat.cast_pos.mpr hlength))
  have hindex : percentileIndex fraction (values.insertionSort (· ≤ ·)).length <
      (values.insertionSort (· ≤ ·)).length :=
    percentileIndex_lt hle (by rwa [List.length_insertionSort])
  refine ⟨(values.insertionSort (· ≤ ·))[percentileIndex fraction _], ?_, ?_⟩
  · have hplace : percentileIndex fraction (values.insertionSort (· ≤ ·)).length =
        ⌈fraction * values.length⌉₊ - 1 := by
      rw [percentileIndex_eq, List.length_insertionSort]
    rw [isPercentile_iff_isRank hceil, ← hplace]
    exact isRank_getElem_insertionSort values hindex
  · unfold percentile
    rw [if_neg hvalues]
    dsimp only
    rw [List.getElem?_eq_getElem hindex, Option.map_some]

/-! ### Rounding -/

/-- **Rounding keeps the order.** -/
theorem toFixed_mono (digits : ℕ) {x y : ℚ} (h : x ≤ y) : toFixed digits x ≤ toFixed digits y := by
  have hunit : (0 : ℚ) < 10 ^ digits := by positivity
  have hfloor : ∀ {a b : ℚ}, a ≤ b → ((⌊a * 10 ^ digits + 1 / 2⌋ : ℤ) : ℚ) / 10 ^ digits ≤
      (⌊b * 10 ^ digits + 1 / 2⌋ : ℤ) / 10 ^ digits := by
    intro a b hab
    have hscaled : a * 10 ^ digits ≤ b * 10 ^ digits := mul_le_mul_of_nonneg_right hab hunit.le
    have hint : ⌊a * 10 ^ digits + 1 / 2⌋ ≤ ⌊b * 10 ^ digits + 1 / 2⌋ :=
      Int.floor_le_floor (by linarith)
    exact div_le_div_of_nonneg_right (by exact_mod_cast hint) hunit.le
  have hnonneg : ∀ {a : ℚ}, 0 ≤ a → (0 : ℚ) ≤ (⌊a * 10 ^ digits + 1 / 2⌋ : ℤ) / 10 ^ digits := by
    intro a ha
    have hint : (0 : ℤ) ≤ ⌊a * 10 ^ digits + 1 / 2⌋ := Int.floor_nonneg.mpr (by positivity)
    exact div_nonneg (by exact_mod_cast hint) hunit.le
  unfold toFixed
  by_cases hx : x < 0
  · by_cases hy : y < 0
    · rw [if_pos hx, if_pos hy, neg_le_neg_iff]
      exact hfloor (neg_le_neg h)
    · rw [if_pos hx, if_neg hy]
      have hleft := hnonneg (a := -x) (by linarith)
      have hright := hnonneg (a := y) (not_lt.mp hy)
      linarith
  · rw [if_neg hx, if_neg fun hy => hx (h.trans_lt hy)]
    exact hfloor h

/-! ### The summary -/

/-- What a summary says of a list of durations: the ends and three percentiles, rounded. -/
structure Summarizes (values : List ℚ) (summary : LatencySummary) : Prop where
  min : ∃ x ∈ values, (∀ y ∈ values, x ≤ y) ∧ summary.min = some (toFixed 2 x)
  p50 : ∃ x, IsPercentile (50 / 100 : ℚ) values x ∧ summary.p50 = some (toFixed 2 x)
  p95 : ∃ x, IsPercentile (95 / 100 : ℚ) values x ∧ summary.p95 = some (toFixed 2 x)
  p99 : ∃ x, IsPercentile (99 / 100 : ℚ) values x ∧ summary.p99 = some (toFixed 2 x)
  max : ∃ x ∈ values, (∀ y ∈ values, y ≤ x) ∧ summary.max = some (toFixed 2 x)

theorem summarizes_of {values : List ℚ} (hvalues : values ≠ []) :
    Summarizes values (.of values) := by
  obtain ⟨least, hleast⟩ :=
    Option.isSome_iff_exists.mp (List.isSome_min?_of_ne_nil hvalues)
  obtain ⟨greatest, hgreatest⟩ :=
    Option.isSome_iff_exists.mp (List.isSome_max?_of_ne_nil hvalues)
  have hmin := List.min?_eq_some_iff.mp hleast
  have hmax := List.max?_eq_some_iff.mp hgreatest
  refine ⟨⟨least, hmin.1, hmin.2, ?_⟩, ?_, ?_, ?_, ⟨greatest, hmax.1, hmax.2, ?_⟩⟩
  · rw [LatencySummary.of, hleast, Option.map_some]
  · exact percentile_eq_some hvalues (by norm_num) (by norm_num)
  · exact percentile_eq_some hvalues (by norm_num) (by norm_num)
  · exact percentile_eq_some hvalues (by norm_num) (by norm_num)
  · rw [LatencySummary.of, hgreatest, Option.map_some]

/-- The durations may come in any order. -/
theorem Summarizes.perm {values values' : List ℚ} {summary : LatencySummary}
    (h : Summarizes values summary) (hperm : values.Perm values') : Summarizes values' summary where
  min := by
    obtain ⟨x, hx, hle, hmin⟩ := h.min
    exact ⟨x, hperm.mem_iff.mp hx, fun y hy => hle y (hperm.mem_iff.mpr hy), hmin⟩
  p50 := h.p50.imp fun _ hx => ⟨hx.1.perm hperm, hx.2⟩
  p95 := h.p95.imp fun _ hx => ⟨hx.1.perm hperm, hx.2⟩
  p99 := h.p99.imp fun _ hx => ⟨hx.1.perm hperm, hx.2⟩
  max := by
    obtain ⟨x, hx, hle, hmax⟩ := h.max
    exact ⟨x, hperm.mem_iff.mp hx, fun y hy => hle y (hperm.mem_iff.mpr hy), hmax⟩

/-- A percentile that two summaries round is one. -/
theorem eq_of_isPercentile {values : List ℚ} {q : ℚ} {p p' : Option ℚ}
    (h : ∃ x, IsPercentile q values x ∧ p = some (toFixed 2 x))
    (h' : ∃ x, IsPercentile q values x ∧ p' = some (toFixed 2 x)) : p = p' := by
  obtain ⟨x, hx, rfl⟩ := h
  obtain ⟨x', hx', rfl⟩ := h'
  rw [hx.unique hx']

/-- **A list has one summary.** -/
theorem Summarizes.unique {values : List ℚ} {summary summary' : LatencySummary}
    (h : Summarizes values summary) (h' : Summarizes values summary') : summary = summary' := by
  have hmin : summary.min = summary'.min := by
    obtain ⟨x, hx, hle, hmin⟩ := h.min
    obtain ⟨x', hx', hle', hmin'⟩ := h'.min
    rw [hmin, hmin', le_antisymm (hle x' hx') (hle' x hx)]
  have hmax : summary.max = summary'.max := by
    obtain ⟨x, hx, hle, hmax⟩ := h.max
    obtain ⟨x', hx', hle', hmax'⟩ := h'.max
    rw [hmax, hmax', le_antisymm (hle' x hx) (hle x' hx')]
  have hp50 := eq_of_isPercentile h.p50 h'.p50
  have hp95 := eq_of_isPercentile h.p95 h'.p95
  have hp99 := eq_of_isPercentile h.p99 h'.p99
  cases summary
  cases summary'
  simp_all

/-- The five numbers are there, and in order. -/
structure LatencySummary.Ordered (summary : LatencySummary) (min p50 p95 p99 max : ℚ) : Prop where
  eq : summary = ⟨some min, some p50, some p95, some p99, some max⟩
  min_le : min ≤ p50
  p50_le : p50 ≤ p95
  p95_le : p95 ≤ p99
  p99_le : p99 ≤ max

/-- **The numbers of a summary are in order.** -/
theorem Summarizes.ordered {values : List ℚ} {summary : LatencySummary}
    (h : Summarizes values summary) :
    ∃ min p50 p95 p99 max, summary.Ordered min p50 p95 p99 max := by
  obtain ⟨x₀, -, hle₀, hmin⟩ := h.min
  obtain ⟨x₅₀, hx₅₀, hp50⟩ := h.p50
  obtain ⟨x₉₅, hx₉₅, hp95⟩ := h.p95
  obtain ⟨x₉₉, hx₉₉, hp99⟩ := h.p99
  obtain ⟨x₁, -, hle₁, hmax⟩ := h.max
  have hscaled : ∀ {q q' : ℚ}, q ≤ q' → q * values.length ≤ q' * values.length := fun hq =>
    mul_le_mul_of_nonneg_right hq (Nat.cast_nonneg _)
  refine ⟨toFixed 2 x₀, toFixed 2 x₅₀, toFixed 2 x₉₅, toFixed 2 x₉₉, toFixed 2 x₁, ?_, ?_, ?_,
    ?_, ?_⟩
  · cases summary
    simp_all
  · exact toFixed_mono 2 (hle₀ x₅₀ hx₅₀.mem)
  · exact toFixed_mono 2 (hx₅₀.le_of_le (hscaled (by norm_num)) hx₉₅)
  · exact toFixed_mono 2 (hx₉₅.le_of_le (hscaled (by norm_num)) hx₉₉)
  · exact toFixed_mono 2 (hle₁ x₉₉ hx₉₉.mem)

/-- There is a summary, made of order statistics: its numbers are in order, each is the
rounding of the element its counts tell, every place is in the sorted array, and the order
of the samples does not matter. -/
def SummaryExact (maxArguments : ℕ) (samples : List RequestSample) : Prop :=
  ∃ summary, latencySummary maxArguments samples = .ok summary ∧
    (∃ min p50 p95 p99 max, summary.Ordered min p50 p95 p99 max) ∧
    Summarizes (samples.map RequestSample.durationMs) summary ∧
    (∀ fraction ∈ [(50 / 100 : ℚ), 95 / 100, 99 / 100],
      percentileIndex fraction
          ((samples.map RequestSample.durationMs).insertionSort (· ≤ ·)).length <
        ((samples.map RequestSample.durationMs).insertionSort (· ≤ ·)).length) ∧
    ∀ samples', samples.Perm samples' → latencySummary maxArguments samples' = .ok summary

/-- **The summary is exact for exactly as many samples as a call has arguments.** -/
theorem latencySummary_exact_iff (maxArguments : ℕ) (samples : List RequestSample)
    (hsamples : samples ≠ []) : SummaryExact maxArguments samples ↔
      samples.length ≤ maxArguments := by
  have hvalues : samples.map RequestSample.durationMs ≠ [] := by simpa using hsamples
  constructor
  · rintro ⟨summary, hsummary, -⟩
    by_contra hmany
    rw [latencySummary_eq, if_pos (not_le.mp hmany)] at hsummary
    cases hsummary
  · intro hfew
    have hsummary := summarizes_of hvalues
    refine ⟨_, by rw [latencySummary_eq, if_neg (not_lt.mpr hfew)], hsummary.ordered, hsummary,
      fun fraction hfraction => ?_, fun samples' hperm => ?_⟩
    · have hle : ∀ fraction ∈ [(50 / 100 : ℚ), 95 / 100, 99 / 100], fraction ≤ 1 := by
        simp only [List.forall_mem_cons]
        norm_num
      refine percentileIndex_lt (hle fraction hfraction) ?_
      rw [List.length_insertionSort]
      exact List.length_pos_iff.mpr hvalues
    · have hsame : LatencySummary.of (samples'.map RequestSample.durationMs) =
          .of (samples.map RequestSample.durationMs) := by
        refine (summarizes_of fun hnil => hvalues ?_).unique (hsummary.perm (hperm.map _))
        exact List.Perm.eq_nil (hnil ▸ hperm.map RequestSample.durationMs)
      rw [latencySummary_eq, if_neg (by rw [← hperm.length_eq]; omega), hsame]

/-- Two samples with one duration, and a failed one. -/
def sampleLatencies : List RequestSample :=
  [⟨30, some 503, none⟩, ⟨10016 / 1000, some 200, none⟩, ⟨10016 / 1000, some 200, none⟩]

theorem sample_latencySummary_exact :
    latencySummary 3 sampleLatencies =
        .ok ⟨some (1002 / 100), some (1002 / 100), some 30, some 30, some 30⟩ ∧
      SummaryExact 3 sampleLatencies :=
  ⟨by decide +kernel, (latencySummary_exact_iff 3 sampleLatencies (by decide)).mpr (by decide)⟩

/-- **A list that is too long has no summary**: 150 000 requests, where a call takes 126 000
arguments. -/
theorem long_list_throws : ¬∀ maxArguments samples, samples ≠ [] →
    SummaryExact maxArguments samples := by
  intro hall
  have hne : List.replicate 150000 (⟨10, some 200, none⟩ : RequestSample) ≠ [] :=
    List.ne_nil_of_length_pos (by rw [List.length_replicate]; decide)
  obtain ⟨summary, hsummary, -⟩ := hall 126000 _ hne
  rw [latencySummary_eq, List.length_replicate, if_pos (by decide)] at hsummary
  cases hsummary

end ScalingLab

end ScaleForge
