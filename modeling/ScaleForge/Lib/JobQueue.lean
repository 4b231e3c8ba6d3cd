import ScaleForge.Lib.Table

/-!
# A queue of jobs with identifiers, retries and retention

A job waits, is active under the lock of the run that took it, is delayed before its
next attempt, or has finished.  A limited number of finished jobs of either kind is
retained, the latest; the list has the jobs in the order of their last move.  A job is
added under an identifier, and adding does nothing while the queue has a job with that
identifier, a finished one included.

## Main definitions

* `Job`, `Phase`, `Limits` — the jobs, and what the queue is configured with.
* `add` — add a job.
* `take`, `promote`, `complete`, `fail`, `stall` — the moves of a job.

## Main results

* `unique_add`, `unique_move` — identifiers stay unique.
* `live_add_iff` — adding leaves a live job unless a finished one was there.
* `live_addAll_iff` — so it does for a list of identifiers.
-/

namespace JobQueue

open Table

/-- Where a job stands. -/
inductive Phase
  | waiting
  | delayed
  /-- A run holds it under the lock. -/
  | active (lock : ℕ)
  | completed
  | failed
  deriving DecidableEq, Repr

/-- The job is still to be run, or being run. -/
def Phase.live : Phase → Bool
  | completed => false
  | failed => false
  | _ => true

structure Job (κ : Type*) where
  id : κ
  phase : Phase
  attemptsMade : ℕ
  /-- How often its run lost the lock. -/
  stalls : ℕ
  deriving DecidableEq

/-- What the queue is configured with. -/
structure Limits where
  /-- The attempts of a job. -/
  attempts : ℕ
  /-- How often a job may stall. -/
  stalls : ℕ
  /-- How many completed jobs are retained. -/
  completed : ℕ
  /-- How many failed jobs are retained. -/
  failed : ℕ

/-- Only the last `n` elements that meet `p` are kept. -/
def retain {α : Type*} (p : α → Bool) (n : ℕ) : List α → List α
  | [] => []
  | x :: xs => if p x && decide (n ≤ xs.countP p) then retain p n xs else x :: retain p n xs

theorem retain_sublist {α : Type*} (p : α → Bool) (n : ℕ) (xs : List α) :
    (retain p n xs).Sublist xs := by
  induction xs with
  | nil => exact List.Sublist.slnil
  | cons x xs ih =>
    rw [retain]
    split
    · exact ih.cons x
    · exact ih.cons_cons x

variable {κ : Type*}

/-- What the retention leaves. -/
def trim (limits : Limits) (jobs : List (Job κ)) : List (Job κ) :=
  retain (fun j => j.phase = .failed) limits.failed
    (retain (fun j => j.phase = .completed) limits.completed jobs)

theorem trim_sublist (limits : Limits) (jobs : List (Job κ)) :
    (trim limits jobs).Sublist jobs :=
  (retain_sublist _ _ _).trans (retain_sublist _ _ _)

/-- There is a live job with the identifier. -/
def HasLive (jobs : List (Job κ)) (id : κ) : Prop :=
  ∃ job ∈ jobs, job.id = id ∧ job.phase.live = true

/-- A finished job with the identifier is retained. -/
def HasFinished (jobs : List (Job κ)) (id : κ) : Prop :=
  ∃ job ∈ jobs, job.id = id ∧ job.phase.live = false

/-- With unique identifiers a job is live or finished, not both. -/
theorem not_hasFinished_of_hasLive {id : κ} {jobs : List (Job κ)} (hu : UniqueOn Job.id jobs)
    (h : HasLive jobs id) : ¬HasFinished jobs id := by
  rintro ⟨job', hjob', hid', hphase'⟩
  obtain ⟨job, hjob, hid, hphase⟩ := h
  have hsame : job = job' := hu.eq_of_key hjob hjob' (hid.trans hid'.symm)
  rw [hsame, hphase'] at hphase
  cases hphase

section Moves

variable [DecidableEq κ]

/-- Add a job, unless there is one with the identifier. -/
def add (id : κ) (jobs : List (Job κ)) : List (Job κ) :=
  (insert Job.id ⟨id, .waiting, 0, 0⟩ jobs).getD jobs

/-- The job with the identifier goes on as `f` says, if it meets `p`. -/
def move (limits : Limits) (id : κ) (p : Phase → Bool) (f : Job κ → Job κ)
    (jobs : List (Job κ)) : List (Job κ) :=
  match jobs.find? fun j => j.id = id && p j.phase with
  | none => jobs
  | some job => trim limits ((jobs.filter fun j => j.id ≠ id) ++ [f job])

/-- A run takes a waiting job. -/
def take (limits : Limits) (id : κ) (lock : ℕ) : List (Job κ) → List (Job κ) :=
  move limits id (· = .waiting) fun job => { job with phase := .active lock }

/-- The delay of a job is over. -/
def promote (limits : Limits) (id : κ) : List (Job κ) → List (Job κ) :=
  move limits id (· = .delayed) fun job => { job with phase := .waiting }

/-- The run that holds the job has succeeded. -/
def complete (limits : Limits) (id : κ) (lock : ℕ) : List (Job κ) → List (Job κ) :=
  move limits id (· = .active lock) fun job =>
    { job with phase := .completed, attemptsMade := job.attemptsMade + 1 }

/-- The run that holds the job has failed. -/
def fail (limits : Limits) (id : κ) (lock : ℕ) : List (Job κ) → List (Job κ) :=
  move limits id (· = .active lock) fun job =>
    { job with
      phase := if job.attemptsMade + 1 < limits.attempts then .delayed else .failed
      attemptsMade := job.attemptsMade + 1 }

/-- The lock of a run has expired. -/
def stall (limits : Limits) (id : κ) : List (Job κ) → List (Job κ) :=
  move limits id (fun | .active _ => true | _ => false) fun job =>
    { job with
      phase := if job.stalls + 1 ≤ limits.stalls then .waiting else .failed
      stalls := job.stalls + 1 }

/-! ### Identifiers -/

theorem unique_add {id : κ} {jobs : List (Job κ)} (h : UniqueOn Job.id jobs) :
    UniqueOn Job.id (add id jobs) := by
  unfold add
  cases hadd : insert Job.id ⟨id, .waiting, 0, 0⟩ jobs with
  | none => exact h
  | some jobs' =>
    obtain ⟨hne, rfl⟩ := insert_eq_some_iff.mp hadd
    exact uniqueOn_append_singleton.mpr ⟨h, hne⟩

/-- **A move keeps the identifiers unique.** -/
theorem unique_move {limits : Limits} {id : κ} {p : Phase → Bool} {f : Job κ → Job κ}
    {jobs : List (Job κ)} (h : UniqueOn Job.id jobs)
    (hf : ∀ job, (f job).id = job.id := by exact fun _ => rfl) :
    UniqueOn Job.id (move limits id p f jobs) := by
  unfold move
  split
  · exact h
  · next job hfind =>
    have hid : job.id = id := by
      have hp := List.find?_some hfind
      simp only [Bool.and_eq_true, decide_eq_true_eq] at hp
      exact hp.1
    have hrest : UniqueOn Job.id (jobs.filter fun j => j.id ≠ id) :=
      h.sublist (List.filter_sublist.map Job.id)
    have happend : UniqueOn Job.id ((jobs.filter fun j => j.id ≠ id) ++ [f job]) := by
      refine uniqueOn_append_singleton.mpr ⟨hrest, ?_⟩
      intro j hj
      rw [hf, hid]
      exact of_decide_eq_true (List.mem_filter.mp hj).2
    exact happend.sublist ((trim_sublist limits _).map Job.id)

/-- A move brings no identifier. -/
theorem no_job_move {limits : Limits} {id id' : κ} {p : Phase → Bool} {f : Job κ → Job κ}
    {jobs : List (Job κ)} (h : ∀ j ∈ jobs, j.id ≠ id')
    (hf : ∀ job, (f job).id = job.id := by exact fun _ => rfl) :
    ∀ j ∈ move limits id p f jobs, j.id ≠ id' := by
  unfold move
  split
  · exact h
  · next job hfind =>
    intro j hj
    rcases List.mem_append.mp ((trim_sublist limits _).subset hj) with hold | hnew
    · exact h j (List.mem_of_mem_filter hold)
    · rw [List.mem_singleton.mp hnew, hf]
      exact h job (List.mem_of_find?_eq_some hfind)

/-- Adding brings the one that is added. -/
theorem no_job_add {id id' : κ} {jobs : List (Job κ)} (hne : id' ≠ id)
    (h : ∀ j ∈ jobs, j.id ≠ id') : ∀ j ∈ add id jobs, j.id ≠ id' := by
  unfold add
  cases hadd : insert Job.id ⟨id, .waiting, 0, 0⟩ jobs with
  | none => exact h
  | some jobs' =>
    obtain ⟨-, rfl⟩ := insert_eq_some_iff.mp hadd
    intro j hj
    rcases List.mem_append.mp hj with hold | hnew
    · exact h j hold
    · rw [List.mem_singleton.mp hnew]
      exact hne.symm

/-! ### The last job -/

/-- What is not too long is retained. -/
theorem retain_of_length_le {α : Type*} {p : α → Bool} {n : ℕ} {xs : List α}
    (h : xs.length ≤ n) : retain p n xs = xs := by
  induction xs with
  | nil => rfl
  | cons x xs ih =>
    rw [List.length_cons] at h
    have hle := List.countP_le_length (p := p) (l := xs)
    have hroom : ¬n ≤ xs.countP p := by omega
    rw [retain, decide_eq_false hroom, Bool.and_false, if_neg Bool.false_ne_true,
      ih (Nat.le_of_succ_le h)]

/-- **The last job moves**, where there is room for all of them. -/
theorem move_last {limits : Limits} {id : κ} {p : Phase → Bool} {f : Job κ → Job κ}
    {jobs : List (Job κ)} {job : Job κ} (hne : ∀ j ∈ jobs, j.id ≠ id) (hid : job.id = id)
    (hp : p job.phase = true) (hcompleted : jobs.length < limits.completed)
    (hfailed : jobs.length < limits.failed) :
    move limits id p f (jobs ++ [job]) = jobs ++ [f job] := by
  have hfind : ((jobs ++ [job]).find? fun j => j.id = id && p j.phase) = some job := by
    rw [List.find?_append, List.find?_eq_none.mpr fun j hj => by simp [hne j hj]]
    simp [hid, hp]
  have hfilter : ((jobs ++ [job]).filter fun j => j.id ≠ id) = jobs := by
    rw [List.filter_append, List.filter_eq_self.mpr fun j hj => by simpa using hne j hj]
    simp [hid]
  have hlength : (jobs ++ [f job]).length = jobs.length + 1 := by simp
  unfold move
  rw [hfind]
  show trim limits (List.filter _ _ ++ [f job]) = _
  have hall : retain (fun j : Job κ => j.phase = .completed) limits.completed (jobs ++ [f job]) =
      jobs ++ [f job] := retain_of_length_le (by omega)
  rw [hfilter, trim, hall, retain_of_length_le (by omega)]

/-- A new job is the last one. -/
theorem add_last {id : κ} {jobs : List (Job κ)} (hne : ∀ j ∈ jobs, j.id ≠ id) :
    add id jobs = jobs ++ [⟨id, .waiting, 0, 0⟩] := by
  have hadd : insert Job.id ⟨id, .waiting, 0, 0⟩ jobs = some (jobs ++ [⟨id, .waiting, 0, 0⟩]) :=
    insert_eq_some_iff.mpr ⟨hne, rfl⟩
  rw [add, hadd]
  rfl

/-! ### What adding leaves -/

/-- Add a job for each identifier, in order. -/
def addAll (ids : List κ) (jobs : List (Job κ)) : List (Job κ) :=
  ids.foldl (fun jobs id => add id jobs) jobs

/-- Adding keeps the jobs that are there. -/
theorem mem_add_of_mem {id : κ} {jobs : List (Job κ)} {job : Job κ} (h : job ∈ jobs) :
    job ∈ add id jobs := by
  unfold add
  cases hadd : insert Job.id ⟨id, .waiting, 0, 0⟩ jobs with
  | none => exact h
  | some jobs' =>
    obtain ⟨-, rfl⟩ := insert_eq_some_iff.mp hadd
    exact List.mem_append_left _ h

/-- Adding adds no finished job. -/
theorem hasFinished_add_iff {id id' : κ} {jobs : List (Job κ)} :
    HasFinished (add id jobs) id' ↔ HasFinished jobs id' := by
  constructor
  · rintro ⟨job, hjob, hid, hphase⟩
    unfold add at hjob
    cases hadd : insert Job.id ⟨id, .waiting, 0, 0⟩ jobs with
    | none =>
      rw [hadd] at hjob
      exact ⟨job, hjob, hid, hphase⟩
    | some jobs' =>
      obtain ⟨-, rfl⟩ := insert_eq_some_iff.mp hadd
      rw [hadd] at hjob
      rcases List.mem_append.mp hjob with hold | hnew
      · exact ⟨job, hold, hid, hphase⟩
      · rw [List.mem_singleton.mp hnew] at hphase
        cases hphase
  · rintro ⟨job, hjob, hid, hphase⟩
    exact ⟨job, mem_add_of_mem hjob, hid, hphase⟩

theorem hasLive_add {id id' : κ} {jobs : List (Job κ)} (h : HasLive jobs id') :
    HasLive (add id jobs) id' := by
  obtain ⟨job, hjob, hid, hphase⟩ := h
  exact ⟨job, mem_add_of_mem hjob, hid, hphase⟩

/-- **Adding leaves a live job, unless a finished one is retained.** -/
theorem live_add_iff {id : κ} {jobs : List (Job κ)} (hu : UniqueOn Job.id jobs) :
    HasLive (add id jobs) id ↔ ¬HasFinished jobs id := by
  constructor
  · intro hlive hfinished
    exact not_hasFinished_of_hasLive (unique_add hu) hlive (hasFinished_add_iff.mpr hfinished)
  · intro hnone
    by_cases hid : id ∈ jobs.map Job.id
    · -- the job that is there is live
      obtain ⟨job, hjob, hid⟩ := List.mem_map.mp hid
      refine hasLive_add ⟨job, hjob, hid, ?_⟩
      by_contra hphase
      exact hnone ⟨job, hjob, hid, Bool.eq_false_iff.mpr hphase⟩
    · refine ⟨⟨id, .waiting, 0, 0⟩, ?_, rfl, rfl⟩
      have hadd : insert Job.id ⟨id, .waiting, 0, 0⟩ jobs = some (jobs ++ [⟨id, .waiting, 0, 0⟩]) :=
        insert_eq_some_iff.mpr ⟨fun job hjob heq => hid (List.mem_map.mpr ⟨job, hjob, heq⟩), rfl⟩
      rw [add, hadd]
      exact List.mem_append_right _ (List.mem_singleton.mpr rfl)

theorem unique_addAll {ids : List κ} {jobs : List (Job κ)} (h : UniqueOn Job.id jobs) :
    UniqueOn Job.id (addAll ids jobs) := by
  induction ids generalizing jobs with
  | nil => exact h
  | cons id ids ih => exact ih (unique_add h)

theorem hasFinished_addAll_iff {ids : List κ} {id : κ} {jobs : List (Job κ)} :
    HasFinished (addAll ids jobs) id ↔ HasFinished jobs id := by
  induction ids generalizing jobs with
  | nil => exact Iff.rfl
  | cons id' ids ih => exact ih.trans hasFinished_add_iff

theorem hasLive_addAll {ids : List κ} {id : κ} {jobs : List (Job κ)} (h : HasLive jobs id) :
    HasLive (addAll ids jobs) id := by
  induction ids generalizing jobs with
  | nil => exact h
  | cons id' ids ih => exact ih (hasLive_add h)

/-- **Adding a list of identifiers leaves a live job for each of them for which no
finished one is retained.** -/
theorem live_addAll_iff {ids : List κ} {jobs : List (Job κ)} (hu : UniqueOn Job.id jobs)
    {id : κ} (hid : id ∈ ids) : HasLive (addAll ids jobs) id ↔ ¬HasFinished jobs id := by
  constructor
  · intro hlive hfinished
    exact not_hasFinished_of_hasLive (unique_addAll hu) hlive (hasFinished_addAll_iff.mpr hfinished)
  · intro hnone
    induction ids generalizing jobs with
    | nil => cases hid
    | cons id' ids ih =>
      rcases List.mem_cons.mp hid with rfl | hlater
      · show HasLive (addAll ids (add id jobs)) id
        exact hasLive_addAll ((live_add_iff hu).mpr hnone)
      · exact ih (unique_add hu) hlater fun h => hnone (hasFinished_add_iff.mp h)

end Moves

end JobQueue
