import ScaleForge.DeliveryRecovery
import ScaleForge.Lib.Listing
import ScaleForge.Lib.Progress

/-!
# Deliveries that starve

`recoverPending` lists the hundred oldest deliveries that are `PENDING` or `FAILED` with attempts
left.  A delivery whose finished job is retained stays on that list, as its `add` is ignored and
no run claims it.  A hundred of them fill the list: a later delivery whose `add` was lost is
never listed, and has nobody to deliver it.

## Main definitions

* `NotificationWorld.Stuck` — a delivery that is listed in vain.
* `NotificationWorld.Starves` — a hundred of those, and a later delivery without a job.

## Main results

* `not_mem_findPending` — what is not among the oldest is not listed.
* `Starves.step` — the later delivery keeps starving.
* `recovery_starves` — **a delivery can starve, and does so as long as the jobs of the others are
  retained.**
-/

namespace ScaleForge

open JobQueue NotificationsRepository NotificationQueueService Transition

/-! ### The list -/

/-- The rows that can be recovered and are older. -/
def older (before : ℕ) (rows : List DeliveryRow) : List DeliveryRow :=
  rows.filter fun d => recoverable d && decide (d.createdAt < before)

/-- The order of the list: by age, and rows of one `createdAt` as `order` has them. -/
def Listed (order : Uuid → ℕ) (d e : DeliveryRow) : Prop :=
  d.createdAt < e.createdAt ∨ d.createdAt = e.createdAt ∧ order d.id ≤ order e.id

instance (order : Uuid → ℕ) : DecidableRel (Listed order) := fun d e =>
  inferInstanceAs (Decidable (d.createdAt < e.createdAt ∨
    d.createdAt = e.createdAt ∧ order d.id ≤ order e.id))

instance (order : Uuid → ℕ) : Std.Total (Listed order) where
  total d e := by
    unfold Listed
    omega

instance (order : Uuid → ℕ) : IsTrans DeliveryRow (Listed order) where
  trans d e f hde hef := by
    unfold Listed at *
    omega

/-- **What is not among the oldest is not listed.** -/
theorem not_mem_findPending {limit : ℕ} {order : Uuid → ℕ} {rows : List DeliveryRow}
    {d : DeliveryRow} (hunique : Table.UniqueOn (fun d => d.id) rows) (hd : d ∈ rows)
    (hfull : limit ≤ (older d.createdAt rows).length) :
    d.id ∉ findPending limit order rows := by
  intro hmem
  obtain ⟨e, he, hid⟩ := List.mem_map.mp hmem
  have hsorted := List.pairwise_insertionSort (Listed order) (rows.filter recoverable)
  have hlt := Listing.countP_lt_of_mem_take (p := fun x => decide (x.createdAt < d.createdAt))
    hsorted he ?_ ?_
  · rw [(List.perm_insertionSort (Listed order) _).countP_eq, List.countP_filter,
      List.countP_eq_length_filter] at hlt
    have hsame : (older d.createdAt rows).length = (rows.filter fun x =>
        decide (x.createdAt < d.createdAt) && recoverable x).length := by
      refine congrArg List.length (List.filter_congr fun x _ => ?_)
      rw [Bool.and_comm]
    omega
  all_goals
    have hrow : e = d := hunique.eq_of_key
      (List.mem_of_mem_filter ((List.mem_insertionSort (Listed order)).mp
        (List.mem_of_mem_take he))) hd hid
    subst hrow
  · simp
  · intro x hx
    unfold Listed at hx
    simp only [decide_eq_false_iff_not]
    omega

/-! ### Who is left alone -/

/-- The run is about to write its row. -/
def NotificationPc.writing : NotificationPc → Bool
  | claiming _ => true
  | delivering _ => true
  | failing _ _ _ => true
  | _ => false

/-- The call is about to add a job for the delivery, or will be. -/
def NotificationPc.adding (id : Uuid) : NotificationPc → Bool
  | enqueueing id' rest => id ∈ id' :: rest
  | _ => false

/-- No run is about to write the row of the delivery. -/
def NotificationWorld.Idle (w : NotificationWorld) (id : Uuid) : Prop :=
  ∀ i pc, w.calls i = some ⟨.process id, pc⟩ → pc.writing = false

section Alone

variable {w w' : NotificationWorld} {a : NotificationAction} {id : Uuid}

/-- **A row that no run is about to write stays as it is.** -/
theorem untouched_of_step {d : DeliveryRow} (hd : d ∈ w.shared.deliveries) (hidle : w.Idle d.id)
    (h : notificationSystem.step w a = some w') : d ∈ w'.shared.deliveries := by
  cases notificationStep_of_step h with
  | unwritten hdeliveries hwrites hcalls => exact hdeliveries ▸ hd
  | created ha hfresh hdeliveries hwrites =>
    show d ∈ _
    rw [hdeliveries]
    exact List.mem_append_left _ hd
  | @run i c id' pc pc' s' ha hcall hadvance hstep =>
    show d ∈ s'.deliveries
    by_cases hid : d.id = id'
    · subst hid
      have hpc := hidle i pc hcall
      cases hstep with
      | unwritten hdeliveries hwrites hclaim hknows => exact hdeliveries ▸ hd
      | claimed hwon hpc' => cases hpc
      | delivered hpc' => cases hpc
      | markedFailed lock claim lastError => cases hpc
    · cases hstep with
      | unwritten hdeliveries hwrites hclaim hknows => exact hdeliveries ▸ hd
      | claimed hwon hpc' => exact Table.mem_update_of_neg hd (by simp [hid])
      | delivered hpc' => exact Table.mem_update_of_neg hd (by simp [hid])
      | markedFailed lock claim lastError => exact Table.mem_update_of_neg hd (by simp [hid])

/-- A run begins to write with a job that waits. -/
theorem NotificationWorld.Idle.step (hidle : w.Idle id)
    (hjobs : ∀ j ∈ w.shared.jobs, j.id = id → j.phase ≠ .waiting)
    (h : notificationSystem.step w a = some w') : w'.Idle id := by
  intro j pc' hj
  cases notificationStep_of_step h with
  | unwritten hdeliveries hwrites hcalls =>
    rcases hcalls j id pc' hj with hold | rfl
    · exact hidle j pc' hold
    · rfl
  | created ha hfresh hdeliveries hwrites => exact hidle j pc' hj
  | @run i c id' pc pc₁ s' ha hcall hadvance hstep =>
    rcases Calls.move_calls_cases hj with ⟨rfl, hr, rfl⟩ | ⟨-, hold⟩
    · cases hr
      have hpc := hidle _ pc hcall
      rcases advanceNotification_cases hadvance with ⟨-, rfl⟩ | hadvance
      · rfl
      cases pc with
      | start =>
        simp only [advance] at hadvance
        split at hadvance
        · next hany =>
          obtain ⟨job, hjob, hphase⟩ := List.any_eq_true.mp hany
          simp only [Bool.and_eq_true, decide_eq_true_eq] at hphase
          exact absurd hphase.2 (hjobs job hjob hphase.1)
        · cases hadvance
      | finishing lock claim succeeded =>
        simp only [advance, Option.some.injEq, Prod.mk.injEq] at hadvance
        rw [← hadvance.2]
        split <;> rfl
      | claiming lock => cases hpc
      | delivering lock => cases hpc
      | failing lock claim lastError => cases hpc
      | enqueueing id₁ rest => cases hadvance
      | returned claim => cases hadvance
      | threw claim => cases hadvance
      | crashed claim => cases hadvance
    · exact hidle j pc' hold

/-- A job after a step of a call has the identifier of one before, or of one the call adds. -/
theorem no_job_of_advance {s s' : NotificationState} {c : NotificationChoice}
    {r : NotificationCall} {pc pc' : NotificationPc} (hjobs : ∀ j ∈ s.jobs, j.id ≠ id)
    (hpc : pc.adding id = false) (hr : r = .enqueue id → pc ≠ .start)
    (hlist : ∀ order, id ∉ findPending 100 order s.deliveries)
    (h : advanceNotification s c r pc = some (s', pc')) :
    (∀ j ∈ s'.jobs, j.id ≠ id) ∧ pc'.adding id = false ∧ pc' ≠ .start := by
  have hnext : ∀ ids, id ∉ ids →
      (enqueueNext ids).adding id = false ∧ enqueueNext ids ≠ .start := by
    intro ids hids
    cases ids with
    | nil => exact ⟨rfl, NotificationPc.noConfusion⟩
    | cons id' rest => exact ⟨decide_eq_false hids, NotificationPc.noConfusion⟩
  rcases advanceNotification_cases h with ⟨rfl, rfl⟩ | h
  · exact ⟨hjobs, rfl, NotificationPc.noConfusion⟩
  unfold NotificationQueueService.advance at h
  split at h
  · -- the consumer begins to enqueue another delivery
    next id' =>
    split at h <;> cases h
    refine ⟨hjobs, decide_eq_false ?_, NotificationPc.noConfusion⟩
    rw [List.mem_singleton]
    rintro rfl
    exact hr rfl rfl
  · split at h <;> cases h
    · exact ⟨hjobs, hnext _ (hlist c.order)⟩
    · exact ⟨hjobs, rfl, NotificationPc.noConfusion⟩
  · split at h <;> cases h
    refine ⟨?_, rfl, NotificationPc.noConfusion⟩
    show ∀ j ∈ take jobLimits _ s.locks s.jobs, j.id ≠ id
    exact no_job_move hjobs
  · split at h <;> cases h
    · refine ⟨hjobs, ?_⟩
      split
      · exact ⟨rfl, NotificationPc.noConfusion⟩
      · exact ⟨rfl, NotificationPc.noConfusion⟩
    · exact ⟨hjobs, rfl, NotificationPc.noConfusion⟩
    · exact ⟨hjobs, rfl, NotificationPc.noConfusion⟩
  · split at h <;> cases h <;> exact ⟨hjobs, rfl, NotificationPc.noConfusion⟩
  · split at h <;> cases h <;> exact ⟨hjobs, rfl, NotificationPc.noConfusion⟩
  · cases h
    refine ⟨?_, ?_⟩
    · split
      · exact hjobs
      · show ∀ (j : Job Uuid), j ∈ ite _ _ _ → j.id ≠ id
        split
        · exact no_job_move hjobs
        · exact no_job_move hjobs
    · split
      · exact ⟨rfl, NotificationPc.noConfusion⟩
      · exact ⟨rfl, NotificationPc.noConfusion⟩
  · cases h
  · next id' rest _ _ =>
    have hids : id ∉ id' :: rest := of_decide_eq_false hpc
    rw [List.mem_cons, not_or] at hids
    split at h <;> cases h
    · exact ⟨no_job_add hids.1 hjobs, hnext _ hids.2⟩
    · exact ⟨hjobs, rfl, NotificationPc.noConfusion⟩
    · exact ⟨no_job_add hids.1 hjobs, rfl, NotificationPc.noConfusion⟩
  · cases h

end Alone

/-! ### Starvation -/

/-- A delivery that is listed in vain: it can be recovered, its finished job is retained, and no
run is about to write it. -/
structure NotificationWorld.Stuck (w : NotificationWorld) (before : ℕ) (id : Uuid) : Prop where
  row : ∃ d ∈ w.shared.deliveries, d.id = id ∧ recoverable d = true ∧ d.createdAt < before
  finished : HasFinished w.shared.jobs id
  idle : w.Idle id

/-- A delivery that waits, without a job and without a call that would add one, behind others
that are listed in vain. -/
structure NotificationWorld.Starves (w : NotificationWorld) (stuck : List Uuid)
    (d : DeliveryRow) : Prop where
  row : d ∈ w.shared.deliveries
  pending : d.status = .pending
  idle : w.Idle d.id
  jobs : ∀ j ∈ w.shared.jobs, j.id ≠ d.id
  calls : ∀ i r pc, w.calls i = some ⟨r, pc⟩ →
    pc.adding d.id = false ∧ (r = .enqueue d.id → pc ≠ .start)
  stuck : ∀ id ∈ stuck, w.Stuck d.createdAt id

section Starvation

variable {w w' : NotificationWorld} {a : NotificationAction} {as : List NotificationAction}
  {stuck : List Uuid} {d : DeliveryRow} {id : Uuid} {before : ℕ}

theorem NotificationWorld.Stuck.step (h : w.Stuck before id) (hw : notificationSystem.Reachable w)
    (hstep : notificationSystem.step w a = some w')
    (hkept : HasFinished w'.shared.jobs id) : w'.Stuck before id := by
  obtain ⟨⟨d, hd, rfl, hrecoverable, hbefore⟩, hfinished, hidle⟩ := h
  refine ⟨⟨d, untouched_of_step hd hidle hstep, rfl, hrecoverable, hbefore⟩, hkept,
    hidle.step (fun j hj hid hwaiting => ?_) hstep⟩
  -- the one job with the identifier is finished
  exact not_hasFinished_of_hasLive (unique_jobs_of_reachable hw)
    ⟨j, hj, hid, by rw [hwaiting]; rfl⟩ hfinished

/-- The older ones fill the list. -/
theorem NotificationWorld.Starves.length_le (h : w.Starves stuck d) (hnodup : stuck.Nodup) :
    stuck.length ≤ (older d.createdAt w.shared.deliveries).length := by
  have hsub : stuck ⊆ (older d.createdAt w.shared.deliveries).map fun d => d.id := by
    intro id hid
    obtain ⟨e, he, rfl, hrecoverable, hbefore⟩ := (h.stuck id hid).row
    refine List.mem_map_of_mem (List.mem_filter.mpr ⟨he, ?_⟩)
    rw [hrecoverable, Bool.true_and, decide_eq_true_eq]
    exact hbefore
  have hle := (hnodup.subperm hsub).length_le
  rwa [List.length_map] at hle

/-- **One step leaves the delivery starving**, as long as the jobs of the others are retained. -/
theorem NotificationWorld.Starves.step (h : w.Starves stuck d)
    (hw : notificationSystem.Reachable w) (hnodup : stuck.Nodup) (hfull : 100 ≤ stuck.length)
    (hstep : notificationSystem.step w a = some w')
    (hkept : ∀ id ∈ stuck, HasFinished w'.shared.jobs id)
    (hnew : ∀ i, a ≠ .request i (.enqueue d.id)) : w'.Starves stuck d := by
  have hlist : ∀ order, d.id ∉ findPending 100 order w.shared.deliveries := fun order =>
    not_mem_findPending (lifecycles_of_reachable hw).1.unique h.row
      (hfull.trans (h.length_le hnodup))
  have hidle := h.idle.step (fun j hj hid => absurd hid (h.jobs j hj)) hstep
  have hrow := untouched_of_step h.row h.idle hstep
  have hstuck : ∀ id ∈ stuck, w'.Stuck d.createdAt id := fun id hid =>
    (h.stuck id hid).step hw hstep (hkept id hid)
  rcases Calls.step_cases hstep with ⟨e, s', rfl, henv, rfl⟩ | ⟨i, r, rfl, hnone, rfl⟩ |
    ⟨i, c, r, pc, s', pc', rfl, hcall, hadvance, rfl⟩
  · refine ⟨hrow, h.pending, hidle, ?_, h.calls, hstuck⟩
    cases e with
    | tick ms =>
      cases henv
      exact h.jobs
    | processOrderCreated id eventId userId payload createdAt =>
      simp only [notificationEnvironment] at henv
      split at henv <;> cases henv
      exact h.jobs
    | promote id =>
      cases henv
      show ∀ j ∈ promote jobLimits id w.shared.jobs, j.id ≠ d.id
      exact no_job_move h.jobs
    | stall id =>
      cases henv
      show ∀ j ∈ JobQueue.stall jobLimits id w.shared.jobs, j.id ≠ d.id
      exact no_job_move h.jobs
  · refine ⟨hrow, h.pending, hidle, h.jobs, fun j r' pc hj => ?_, hstuck⟩
    rcases Calls.move_calls_cases hj with ⟨rfl, rfl, rfl⟩ | ⟨-, hold⟩
    · refine ⟨rfl, fun hr => ?_⟩
      subst hr
      exact absurd rfl (hnew j)
    · exact h.calls j r' pc hold
  · obtain ⟨hadding, hstart⟩ := h.calls i r pc hcall
    obtain ⟨hjobs, hadding', hstart'⟩ := no_job_of_advance h.jobs hadding hstart hlist hadvance
    refine ⟨hrow, h.pending, hidle, hjobs, fun j r' pc₁ hj => ?_, hstuck⟩
    rcases Calls.move_calls_cases hj with ⟨rfl, rfl, rfl⟩ | ⟨-, hold⟩
    · exact ⟨hadding', fun _ => hstart'⟩
    · exact h.calls j r' pc₁ hold

/-- **A run leaves the delivery starving**, as long as the jobs of the others are retained. -/
theorem NotificationWorld.Starves.exec (h : w.Starves stuck d)
    (hw : notificationSystem.Reachable w) (hnodup : stuck.Nodup) (hfull : 100 ≤ stuck.length)
    (hexec : notificationSystem.exec w as = some w')
    (hkept : ∀ v a v', notificationSystem.Takes w as v a v' →
      ∀ id ∈ stuck, HasFinished v'.shared.jobs id)
    (hnew : ∀ i, .request i (.enqueue d.id) ∉ as) : w'.Starves stuck d := by
  induction as generalizing w with
  | nil =>
    rw [Sys.exec_nil, Option.some.injEq] at hexec
    exact hexec ▸ h
  | cons a as ih =>
    rw [Sys.exec_cons, Option.bind_eq_some_iff] at hexec
    obtain ⟨v, hstep, hrest⟩ := hexec
    have hv := h.step hw hnodup hfull hstep (hkept w a v (.here hstep))
      fun i hi => hnew i (hi ▸ List.mem_cons_self)
    exact ih hv (hw.step hstep) hrest (fun t b t' ht => hkept t b t' (.there hstep ht))
      fun i hi => hnew i (List.mem_cons_of_mem _ hi)

end Starvation

/-! ### A hundred deliveries that are stuck -/

/-- The last hexadecimal digit of a number. -/
def lastNibble (n : ℕ) : Fin 16 := ⟨n % 16, Nat.mod_lt n (Nat.zero_lt_succ 15)⟩

/-- The `n`-th of some version 4 identifiers, different ones for the first 256. -/
def Uuid.numbered (n : ℕ) : Uuid :=
  ⟨lastNibble (n / 16) :: lastNibble n :: (List.replicate 10 (lastNibble 0) ++ lastNibble 4 ::
    (List.replicate 3 (lastNibble 0) ++ lastNibble 8 :: List.replicate 15 (lastNibble 0))), rfl⟩

theorem Uuid.numbered_inj {m n : ℕ} (hm : m < 256) (hn : n < 256)
    (h : Uuid.numbered m = Uuid.numbered n) : m = n := by
  simp only [Uuid.numbered, Uuid.mk.injEq, List.cons.injEq, and_true, lastNibble,
    Fin.mk.injEq] at h
  omega

theorem Uuid.numbered_ne {m n : ℕ} (hlt : m < n) (hn : n < 256) :
    Uuid.numbered m ≠ Uuid.numbered n :=
  fun h => hlt.ne (Uuid.numbered_inj (hlt.trans hn) hn h)

/-- The death of the process. -/
def NotificationChoice.crash : NotificationChoice := ⟨true, .none, .other, fun _ => 0⟩

/-- The state after a worker has taken the job of the delivery. -/
def NotificationState.taken (s : NotificationState) (id : Uuid) : NotificationState :=
  { s with jobs := take jobLimits id s.locks s.jobs, locks := s.locks + 1 }

/-- The state after the lock on the job of the delivery has expired. -/
def NotificationState.stalled (s : NotificationState) (id : Uuid) : NotificationState :=
  { s with jobs := JobQueue.stall jobLimits id s.jobs }

/-- The state with one more delivery. -/
def NotificationState.insert (s : NotificationState) (d : DeliveryRow) : NotificationState :=
  { s with deliveries := s.deliveries ++ [d] }

section Parked

variable {w : NotificationWorld} {id : Uuid} {jobs : List (Job Uuid)} {i stalls createdAt : ℕ}

/-- A worker takes the job of the delivery. -/
theorem leads_taken
    (hwaits : (w.shared.jobs.any fun j => j.id = id && j.phase = .waiting) = true)
    (hnone : w.calls i = none) : notificationSystem.Leads w
      (w.move i (.process id) (w.shared.taken id) (.claiming w.shared.locks)) := by
  have hstart : notificationMachine.advance w.shared (.ends .none) (.process id) .start =
      some (w.shared.taken id, .claiming w.shared.locks) := by
    show advance w.shared (.ends .none) (.process id) .start = _
    simp only [advance, hwaits, if_true, NotificationState.taken]
  rw [← w.move_move i (.process id) w.shared .start]
  exact (Calls.leads_request i (.process id) hnone).trans
    (Calls.leads_advance (Calls.move_calls_self _ _ _ _ _) hstart)

/-- The worker dies, and its lock expires. -/
theorem leads_stalled {s : NotificationState} {lock : ℕ} : notificationSystem.Leads
    (w.move i (.process id) s (.claiming lock))
    (w.move i (.process id) (s.stalled id) (.crashed .none)) := by
  have hdies : notificationSystem.Leads (w.move i (.process id) s (.claiming lock))
      (w.move i (.process id) s (.crashed .none)) := by
    rw [← w.move_move i (.process id) s (.claiming lock) s (.crashed .none)]
    refine Calls.leads_advance (c := NotificationChoice.crash) (Calls.move_calls_self _ _ _ _ _) ?_
    rfl
  exact hdies.trans (Calls.leads_environment (e := NotificationEnvironment.stall id) rfl)

/-- **A worker takes the last job and dies**, and its lock expires. -/
theorem exists_stalled (hw : notificationSystem.Reachable w)
    (hjobs : w.shared.jobs = jobs ++ [⟨id, .waiting, 0, stalls⟩])
    (hne : ∀ j ∈ jobs, j.id ≠ id) (hroom : jobs.length < 1000) (hnone : w.calls i = none) :
    ∃ w', notificationSystem.Reachable w' ∧
      w'.shared.deliveries = w.shared.deliveries ∧
      w'.shared.jobs = jobs ++
        [⟨id, if stalls + 1 ≤ 1 then .waiting else .failed, 0, stalls + 1⟩] ∧
      w'.calls = Function.update w.calls i (some ⟨.process id, .crashed .none⟩) := by
  have hwaits : (w.shared.jobs.any fun j => j.id = id && j.phase = .waiting) = true := by
    rw [hjobs]
    simp
  have htake : take jobLimits id w.shared.locks w.shared.jobs =
      jobs ++ [⟨id, .active w.shared.locks, 0, stalls⟩] := by
    rw [hjobs]
    exact move_last hne rfl rfl hroom (hroom.trans (by decide))
  have hstall : JobQueue.stall jobLimits id (jobs ++ [⟨id, .active w.shared.locks, 0, stalls⟩]) =
      jobs ++ [⟨id, if stalls + 1 ≤ 1 then .waiting else .failed, 0, stalls + 1⟩] :=
    move_last hne rfl rfl hroom (hroom.trans (by decide))
  refine ⟨_, ((leads_taken hwaits hnone).trans leads_stalled).reachable hw, rfl, ?_, rfl⟩
  show JobQueue.stall jobLimits id (take jobLimits id w.shared.locks w.shared.jobs) = _
  rw [htake, hstall]

/-- The notification handler creates a delivery. -/
theorem leads_created (hfresh : ∀ d ∈ w.shared.deliveries, d.id ≠ id ∧ d.eventId ≠ id)
    (hclock : createdAt ≤ w.shared.clock) : notificationSystem.Leads w
      { w with shared := w.shared.insert (created id id id .null createdAt) } := by
  refine Calls.leads_environment (e := .processOrderCreated id id id .null createdAt) ?_
  simp only [notificationEnvironment]
  rw [if_pos]
  · rfl
  · simpa [hclock] using hfresh

/-- The consumer enqueues a delivery. -/
theorem leads_enqueued (hd : ∃ d ∈ w.shared.deliveries, d.id = id) (hnone : w.calls i = none) :
    notificationSystem.Leads w (w.move i (.enqueue id)
      { w.shared with jobs := add id w.shared.jobs } (.returned .none)) := by
  have hstart : notificationMachine.advance w.shared (.ends .none) (.enqueue id) .start =
      some (w.shared, .enqueueing id []) := by
    show advance w.shared (.ends .none) (.enqueue id) .start = _
    simp only [advance]
    rw [if_pos]
    simpa using hd
  rw [← w.move_move i (.enqueue id) w.shared (.enqueueing id [])]
  refine Sys.Leads.trans ?_ (Calls.leads_advance (c := NotificationChoice.ends .none)
    (Calls.move_calls_self _ _ _ _ _) rfl)
  rw [← w.move_move i (.enqueue id) w.shared .start]
  exact (Calls.leads_request i (.enqueue id) hnone).trans
    (Calls.leads_advance (Calls.move_calls_self _ _ _ _ _) hstart)

/-- **A delivery is created**, and the consumer enqueues it. -/
theorem exists_enqueued (hw : notificationSystem.Reachable w)
    (hfresh : ∀ d ∈ w.shared.deliveries, d.id ≠ id ∧ d.eventId ≠ id)
    (hne : ∀ j ∈ w.shared.jobs, j.id ≠ id) (hnone : w.calls i = none) :
    ∃ w', notificationSystem.Reachable w' ∧
      w'.shared.deliveries = w.shared.deliveries ++ [created id id id .null 0] ∧
      w'.shared.jobs = w.shared.jobs ++ [⟨id, .waiting, 0, 0⟩] ∧
      w'.calls = Function.update w.calls i (some ⟨.enqueue id, .returned .none⟩) := by
  have hadded : notificationSystem.Leads
      { w with shared := w.shared.insert (created id id id .null 0) } _ :=
    leads_enqueued ⟨_, List.mem_append_right _ (List.mem_singleton_self _), rfl⟩ hnone
  have hcreated := leads_created hfresh (Nat.zero_le w.shared.clock)
  exact ⟨_, (hcreated.trans hadded).reachable hw, rfl, add_last hne, rfl⟩

end Parked

/-- The first `n` of the numbered deliveries are stuck, and nothing else is there. -/
structure Parked (n : ℕ) (w : NotificationWorld) : Prop where
  reachable : notificationSystem.Reachable w
  deliveries : w.shared.deliveries = (List.range n).map fun k =>
    created (.numbered k) (.numbered k) (.numbered k) .null 0
  jobs : w.shared.jobs = (List.range n).map fun k => ⟨.numbered k, .failed, 0, 2⟩
  calls : ∀ i, 3 * n ≤ i → w.calls i = none
  final : ∀ i call, w.calls i = some call → call.pc.final = true

section Parked

variable {w : NotificationWorld} {n : ℕ}

theorem Parked.fresh (h : Parked n w) (hn : n < 256) : ∀ d ∈ w.shared.deliveries,
    d.id ≠ .numbered n ∧ d.eventId ≠ .numbered n := by
  intro d hd
  rw [h.deliveries] at hd
  obtain ⟨k, hk, rfl⟩ := List.mem_map.mp hd
  have hne := Uuid.numbered_ne (List.mem_range.mp hk) hn
  exact ⟨hne, hne⟩

theorem Parked.no_job (h : Parked n w) (hn : n < 256) :
    ∀ j ∈ w.shared.jobs, j.id ≠ .numbered n := by
  intro j hj
  rw [h.jobs] at hj
  obtain ⟨k, hk, rfl⟩ := List.mem_map.mp hj
  exact Uuid.numbered_ne (List.mem_range.mp hk) hn

/-- One more delivery is stuck: two workers die over its job. -/
theorem Parked.succ (h : Parked n w) (hn : n < 100) : ∃ w', Parked (n + 1) w' := by
  have hne := h.no_job (hn.trans (by decide))
  have hroom : w.shared.jobs.length < 1000 := by
    rw [h.jobs, List.length_map, List.length_range]
    omega
  obtain ⟨w₁, hw₁, hdeliveries₁, hjobs₁, hcalls₁⟩ := exists_enqueued (i := 3 * n) h.reachable
    (h.fresh (hn.trans (by decide))) hne (h.calls _ (Nat.le_refl _))
  have hnone₁ : w₁.calls (3 * n + 1) = none := by
    rw [hcalls₁, Function.update_of_ne (by omega)]
    exact h.calls _ (by omega)
  obtain ⟨w₂, hw₂, hdeliveries₂, hjobs₂, hcalls₂⟩ :=
    exists_stalled (i := 3 * n + 1) hw₁ hjobs₁ hne hroom hnone₁
  have hnone₂ : w₂.calls (3 * n + 2) = none := by
    rw [hcalls₂, Function.update_of_ne (by omega), hcalls₁, Function.update_of_ne (by omega)]
    exact h.calls _ (by omega)
  obtain ⟨w₃, hw₃, hdeliveries₃, hjobs₃, hcalls₃⟩ :=
    exists_stalled (i := 3 * n + 2) hw₂ hjobs₂ hne hroom hnone₂
  refine ⟨w₃, hw₃, ?_, ?_, fun i hi => ?_, fun i call hcall => ?_⟩
  · rw [hdeliveries₃, hdeliveries₂, hdeliveries₁, h.deliveries, List.range_succ, List.map_append]
    rfl
  · rw [hjobs₃, h.jobs, List.range_succ, List.map_append]
    rfl
  · rw [hcalls₃, Function.update_of_ne (by omega), hcalls₂, Function.update_of_ne (by omega),
      hcalls₁, Function.update_of_ne (by omega)]
    exact h.calls i (by omega)
  · rw [hcalls₃, hcalls₂, hcalls₁] at hcall
    simp only [Function.update_apply] at hcall
    split at hcall
    · cases hcall
      rfl
    · split at hcall
      · cases hcall
        rfl
      · split at hcall
        · cases hcall
          rfl
        · exact h.final i call hcall

theorem exists_parked (hn : n ≤ 100) : ∃ w, Parked n w := by
  induction n with
  | zero =>
    exact ⟨.sample, .init NotificationWorld.sample_init, rfl, rfl, fun _ _ => rfl,
      fun _ _ hcall => by cases hcall⟩
  | succ n ih =>
    obtain ⟨w, hw⟩ := ih (Nat.le_of_succ_le hn)
    exact hw.succ hn

/-- A call that has ended neither writes nor adds. -/
theorem NotificationPc.of_final {pc : NotificationPc} (h : pc.final = true) (id : Uuid) :
    pc.writing = false ∧ pc.adding id = false ∧ pc ≠ .start := by
  cases pc with
  | returned claim => exact ⟨rfl, rfl, NotificationPc.noConfusion⟩
  | threw claim => exact ⟨rfl, rfl, NotificationPc.noConfusion⟩
  | crashed claim => exact ⟨rfl, rfl, NotificationPc.noConfusion⟩
  | _ => cases h

/-- The next delivery, created a moment later. -/
def laterDelivery (n : ℕ) : DeliveryRow :=
  created (.numbered n) (.numbered n) (.numbered n) .null 1

/-- The later delivery has been created. -/
def NotificationWorld.queuedBehind (w : NotificationWorld) (n : ℕ) : NotificationWorld :=
  { w with
    shared := { w.shared with clock := w.shared.clock + 1 }.insert (laterDelivery n) }

theorem Parked.leads_queuedBehind (h : Parked n w) (hn : n < 256) :
    notificationSystem.Leads w (w.queuedBehind n) := by
  have hticks : notificationSystem.Leads w
      { w with shared := { w.shared with clock := w.shared.clock + 1 } } :=
    Calls.leads_environment (e := NotificationEnvironment.tick 1) rfl
  exact hticks.trans (leads_created (h.fresh hn) (Nat.le_add_left 1 _))

/-- **A later delivery starves behind them.** -/
theorem Parked.starves (h : Parked n w) (hn : n < 256) :
    (w.queuedBehind n).Starves ((List.range n).map Uuid.numbered) (laterDelivery n) := by
  have hidle : ∀ id, (w.queuedBehind n).Idle id :=
    fun id i pc hcall => (NotificationPc.of_final (h.final i _ hcall) id).1
  refine ⟨List.mem_append_right _ (List.mem_singleton_self _), rfl, hidle _, h.no_job hn,
    fun i r pc hcall => ?_, fun id hid => ?_⟩
  · obtain ⟨-, hadding, hstart⟩ := NotificationPc.of_final (h.final i _ hcall) (laterDelivery n).id
    exact ⟨hadding, fun _ => hstart⟩
  · obtain ⟨k, hk, rfl⟩ := List.mem_map.mp hid
    refine ⟨⟨created (.numbered k) (.numbered k) (.numbered k) .null 0,
      List.mem_append_left _ ?_, rfl, rfl, Nat.zero_lt_one⟩,
      ⟨⟨.numbered k, .failed, 0, 2⟩, ?_, rfl, rfl⟩, hidle _⟩
    · show _ ∈ w.shared.deliveries
      rw [h.deliveries]
      exact List.mem_map_of_mem hk
    · show _ ∈ w.shared.jobs
      rw [h.jobs]
      exact List.mem_map_of_mem hk

end Parked

/-- **A delivery can starve.**  There is a run after which a hundred deliveries have failed jobs
and a later one, which is pending, has none; and whatever happens then, as long as the jobs of
the hundred are retained and the consumer does not enqueue the delivery again, it stays pending
without a job, and no call of `recoverPending` is about to add one. -/
theorem recovery_starves :
    (∃ w stuck d, notificationSystem.Reachable w ∧ stuck.Nodup ∧ 100 ≤ stuck.length ∧
      w.Starves stuck d) ∧
    ∀ w stuck d as w', notificationSystem.Reachable w → stuck.Nodup → 100 ≤ stuck.length →
      w.Starves stuck d → notificationSystem.exec w as = some w' →
      (∀ v a v', notificationSystem.Takes w as v a v' →
        ∀ id ∈ stuck, HasFinished v'.shared.jobs id) →
      (∀ i, .request i (.enqueue d.id) ∉ as) → w'.Starves stuck d := by
  refine ⟨?_, fun w stuck d as w' hw hnodup hfull h hexec hkept hnew =>
    h.exec hw hnodup hfull hexec hkept hnew⟩
  obtain ⟨w, hw⟩ := exists_parked (Nat.le_refl 100)
  have hlater := hw.leads_queuedBehind (by decide)
  refine ⟨_, _, _, hlater.reachable hw.reachable, ?_, ?_, hw.starves (by decide)⟩
  · refine List.Nodup.map_on (fun m hm n hn heq => ?_) List.nodup_range
    have hlt := List.mem_range.mp hm
    have hlt' := List.mem_range.mp hn
    exact Uuid.numbered_inj (by omega) (by omega) heq
  · rw [List.length_map, List.length_range]

end ScaleForge
