import ScaleForge.Lib.EcmaNumber
import ScaleForge.Lib.Transition
import Mathlib.Algebra.Order.Floor.Semiring
import Mathlib.Data.Rat.Floor

/-!
# The load probe

`runPhase` offers requests at a fixed rate for a fixed time.  Its loop computes when the
next request is due, waits until then, stops at the deadline, and otherwise starts the
request, or drops it when as many as allowed are in flight.  After the loop it awaits what
is still in flight.

Nothing else runs while the loop does; at its two awaits requests are answered, in any
order, and leave the set of active ones afterwards, in a callback of their own.  The clock
may advance at any point, and `delay` resolves when its time has passed.

Times are in milliseconds.  The clock is read as it stands; every number the loop computes
from it is a double, rounded after each operation.  A deadline too large for a double is
infinite, and no other number of the loop comes near that.

## Main definitions

* `RequestSample`, `executeRequest` — a request as the probe sees it.
* `Workload`, `PhaseState`, `PhaseAction` — the arguments, the states and the steps.
* `PhaseState.scheduledAt`, `waitMs`, `deadline` — the times of the loop, in doubles.
* `runPhase` — the system of one phase.

## Main results

* `executeRequest_settled` — a request ends with a status or with an error.
* `PhaseSteps`, `phaseSteps_of_step` — the ways a step can go.
-/

namespace ScaleForge

namespace ScalingLab

open EcmaNumber

/-! ### Requests -/

inductive RequestError
  | network
  | timeout
  deriving DecidableEq, Repr

/-- One request as the probe saw it; both properties are optional. -/
structure RequestSample where
  durationMs : ℚ
  status : Option ℕ
  error : Option RequestError
  deriving DecidableEq

/-- The request has ended with exactly one of status and error. -/
def RequestSample.Settled (sample : RequestSample) : Prop :=
  sample.status.isSome ≠ sample.error.isSome

/-- What `fetch` and the reading of the body come to. -/
inductive Fetched
  /-- A response, read to its end. -/
  | response (status : ℕ)
  /-- Something thrown; an `Error` has a name. -/
  | thrown (name : Option String)

/-- `executeRequest`, after so many milliseconds. -/
def executeRequest (durationMs : ℚ) : Fetched → RequestSample
  | .response status => ⟨durationMs, some status, none⟩
  | .thrown name =>
    ⟨durationMs, none, some (if name = some "AbortError" then .timeout else .network)⟩

/-- **A request ends with a status or with an error.** -/
theorem executeRequest_settled (durationMs : ℚ) (fetched : Fetched) :
    (executeRequest durationMs fetched).Settled := by
  cases fetched <;> simp [executeRequest, RequestSample.Settled]

/-! ### The phase -/

structure PhaseResult where
  samples : List RequestSample
  scheduled : ℕ
  clientBackpressureDrops : ℕ
  elapsedMs : ℚ

/-- The arguments of `runPhase`, but for the request. -/
structure Workload where
  durationSeconds : ℚ
  ratePerSecond : ℚ
  concurrency : ℕ

/-- `intervalMs`. -/
def Workload.intervalMs (l : Workload) : ℚ := nearest (1000 / l.ratePerSecond)

/-- Where the phase stands. -/
inductive PhasePc
  /-- At the head of the loop. -/
  | loop
  /-- Awaiting `delay`, which resolves at `wake` or later. -/
  | delaying (wake : ℚ)
  /-- About to look whether the deadline has passed. -/
  | due
  /-- Awaiting the requests that were active when the loop ended. -/
  | draining (awaited : List ℕ)
  /-- The phase has returned. -/
  | returned (result : PhaseResult)

/-- Other callbacks run only where the phase awaits something. -/
def PhasePc.awaiting : PhasePc → Bool
  | .delaying _ => true
  | .draining _ => true
  | _ => false

/-- The variables of `runPhase`.  A request is known by its number, the first being `1`. -/
structure PhaseState where
  /-- `performance.now()`. -/
  clock : ℚ
  started : ℚ
  pc : PhasePc
  samples : List RequestSample
  active : List ℕ
  /-- The active requests that have not been answered. -/
  running : List ℕ
  scheduled : ℕ
  clientBackpressureDrops : ℕ

/-- One step of a phase, or of what it runs in. -/
inductive PhaseAction
  /-- The clock advances. -/
  | tick (ms : ℚ)
  /-- The phase goes on. -/
  | step
  /-- A request is answered, and its sample recorded. -/
  | answer (k : ℕ) (sample : RequestSample)
  /-- An answered request leaves the set of active ones. -/
  | release (k : ℕ)

/-- `started + durationSeconds * 1_000`. -/
def PhaseState.deadline (l : Workload) (s : PhaseState) : Number :=
  toDouble (s.started + nearest (l.durationSeconds * 1000))

/-- When the next request is due. -/
def PhaseState.scheduledAt (l : Workload) (s : PhaseState) : ℚ :=
  nearest (s.started + nearest (s.scheduled * l.intervalMs))

/-- `waitMs`. -/
def PhaseState.waitMs (l : Workload) (s : PhaseState) : ℚ := nearest (s.scheduledAt l - s.clock)

/-- The part of an iteration after the deadline has been looked at. -/
def PhaseState.schedule (l : Workload) (s : PhaseState) : PhaseState :=
  if l.concurrency ≤ s.active.length then
    { s with
      pc := .loop
      scheduled := s.scheduled + 1
      clientBackpressureDrops := s.clientBackpressureDrops + 1 }
  else
    { s with
      pc := .loop
      scheduled := s.scheduled + 1
      active := s.active ++ [s.scheduled + 1]
      running := s.running ++ [s.scheduled + 1] }

/-- What `runPhase` returns. -/
def PhaseState.result (s : PhaseState) : PhaseResult where
  samples := s.samples
  scheduled := s.scheduled
  clientBackpressureDrops := s.clientBackpressureDrops
  elapsedMs := nearest (s.clock - s.started)

/-- The phase goes on, when it can. -/
def PhaseState.next (l : Workload) (s : PhaseState) : Option PhaseState :=
  match s.pc with
  | .loop =>
    some { s with pc := if 0 < s.waitMs l then .delaying (s.clock + s.waitMs l) else .due }
  | .delaying wake => if wake ≤ s.clock then some { s with pc := .due } else none
  | .due =>
    some (if (s.deadline l).reachedBy s.clock then { s with pc := .draining s.active }
      else s.schedule l)
  | .draining awaited =>
    -- `Promise.all` resolves when each of these has left the set
    if ∀ k ∈ awaited, k ∉ s.active then some { s with pc := .returned s.result } else none
  | .returned _ => none

/-- The state after an action, when it is enabled. -/
def PhaseState.step (l : Workload) (s : PhaseState) : PhaseAction → Option PhaseState
  | .tick ms => if 0 ≤ ms then some { s with clock := s.clock + ms } else none
  | .step => s.next l
  | .answer k sample =>
    if s.pc.awaiting ∧ k ∈ s.running then
      some { s with running := s.running.erase k, samples := s.samples ++ [sample] }
    else none
  | .release k =>
    if s.pc.awaiting ∧ k ∈ s.active ∧ k ∉ s.running then
      some { s with active := s.active.erase k }
    else none

/-- Nothing has been scheduled. -/
def PhaseState.Initial (s : PhaseState) : Prop :=
  s.clock = s.started ∧ s.pc = .loop ∧ s.samples = [] ∧ s.active = [] ∧ s.running = [] ∧
    s.scheduled = 0 ∧ s.clientBackpressureDrops = 0

/-- **The system of one phase.** -/
def runPhase (l : Workload) : Transition.Sys PhaseState PhaseAction where
  init := PhaseState.Initial
  step := PhaseState.step l

/-! ### A step taken apart -/

/-- The ways a step can go. -/
inductive PhaseSteps (l : Workload) (s : PhaseState) : PhaseAction → PhaseState → Prop
  | tick (ms : ℚ) (hms : 0 ≤ ms) :
      PhaseSteps l s (.tick ms) { s with clock := s.clock + ms }
  /-- The next request is not due yet. -/
  | wait (hpc : s.pc = .loop) (hdue : 0 < s.waitMs l) :
      PhaseSteps l s .step { s with pc := .delaying (s.clock + s.waitMs l) }
  /-- The next request is due. -/
  | late (hpc : s.pc = .loop) (hdue : s.waitMs l ≤ 0) :
      PhaseSteps l s .step { s with pc := .due }
  /-- The delay resolves. -/
  | wake (t : ℚ) (hpc : s.pc = .delaying t) (ht : t ≤ s.clock) :
      PhaseSteps l s .step { s with pc := .due }
  /-- The deadline has passed. -/
  | ended (hpc : s.pc = .due) (hdeadline : (s.deadline l).reachedBy s.clock = true) :
      PhaseSteps l s .step { s with pc := .draining s.active }
  /-- The request is dropped. -/
  | dropped (hpc : s.pc = .due) (hdeadline : (s.deadline l).reachedBy s.clock = false)
      (hfull : l.concurrency ≤ s.active.length) :
      PhaseSteps l s .step { s with
        pc := .loop
        scheduled := s.scheduled + 1
        clientBackpressureDrops := s.clientBackpressureDrops + 1 }
  /-- The request is started. -/
  | started (hpc : s.pc = .due) (hdeadline : (s.deadline l).reachedBy s.clock = false)
      (hfree : s.active.length < l.concurrency) :
      PhaseSteps l s .step { s with
        pc := .loop
        scheduled := s.scheduled + 1
        active := s.active ++ [s.scheduled + 1]
        running := s.running ++ [s.scheduled + 1] }
  /-- The last request has left. -/
  | returned (awaited : List ℕ) (hpc : s.pc = .draining awaited)
      (hall : ∀ k ∈ awaited, k ∉ s.active) :
      PhaseSteps l s .step { s with pc := .returned s.result }
  | answer (k : ℕ) (sample : RequestSample) (hpc : s.pc.awaiting = true) (hk : k ∈ s.running) :
      PhaseSteps l s (.answer k sample)
        { s with running := s.running.erase k, samples := s.samples ++ [sample] }
  | release (k : ℕ) (hpc : s.pc.awaiting = true) (hk : k ∈ s.active) (hnot : k ∉ s.running) :
      PhaseSteps l s (.release k) { s with active := s.active.erase k }

/-- **Every step goes one of these ways.** -/
theorem phaseSteps_of_step {l : Workload} {s s' : PhaseState} {a : PhaseAction}
    (h : s.step l a = some s') : PhaseSteps l s a s' := by
  cases a with
  | tick ms =>
    simp only [PhaseState.step, Option.ite_none_right_eq_some, Option.some.injEq] at h
    obtain ⟨hms, rfl⟩ := h
    exact .tick ms hms
  | step =>
    have h : s.next l = some s' := h
    unfold PhaseState.next at h
    split at h
    · next hpc =>
      cases h
      split
      · next hwait => exact .wait hpc hwait
      · next hlate => exact .late hpc (not_lt.mp hlate)
    · next t hpc =>
      simp only [Option.ite_none_right_eq_some, Option.some.injEq] at h
      obtain ⟨ht, rfl⟩ := h
      exact .wake t hpc ht
    · next hpc =>
      cases h
      split
      · next hdeadline => exact .ended hpc hdeadline
      · next hdeadline =>
        unfold PhaseState.schedule
        split
        · next hfull => exact .dropped hpc (Bool.eq_false_iff.mpr hdeadline) hfull
        · next hfree => exact .started hpc (Bool.eq_false_iff.mpr hdeadline) (not_le.mp hfree)
    · next awaited hpc =>
      simp only [Option.ite_none_right_eq_some, Option.some.injEq] at h
      obtain ⟨hall, rfl⟩ := h
      exact .returned awaited hpc hall
    · cases h
  | answer k sample =>
    simp only [PhaseState.step, Option.ite_none_right_eq_some, Option.some.injEq] at h
    obtain ⟨⟨hpc, hk⟩, rfl⟩ := h
    exact .answer k sample hpc hk
  | release k =>
    simp only [PhaseState.step, Option.ite_none_right_eq_some, Option.some.injEq] at h
    obtain ⟨⟨hpc, hk, hnot⟩, rfl⟩ := h
    exact .release k hpc hk hnot

end ScalingLab

end ScaleForge
