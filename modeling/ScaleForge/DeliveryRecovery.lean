import ScaleForge.DeliveryLifecycle

/-!
# Recovering deliveries

`recoverPending` enqueues the oldest deliveries that are `PENDING` or `FAILED` and have
attempts left.  BullMQ ignores the `add` of a job it still has, and it keeps the last
completed and failed jobs: a delivery whose job has used up its own five attempts, or
has completed without a claim, is enqueued in vain until its job is forgotten.

## Main definitions

* `recoverRun` — a call of `recoverPending` that nothing comes between.

## Main results

* `jobs_of_recoverRun` — what such a call does to the queue.
* `recoverPending_returns` — such a call comes to its end.
* `recovers_iff` — **`recoverPending` leaves a live job for every delivery it lists if and
  only if no finished job of one of them is retained.**
-/

namespace ScaleForge

open JobQueue NotificationsRepository NotificationQueueService Transition

/-- A call of `recoverPending` under the number `i`, its listing and the rest of its
steps. -/
def recoverRun (i : ℕ) (listing : NotificationChoice) (rest : List NotificationChoice) :
    List NotificationAction :=
  .request i .recoverPending :: .advance i listing :: rest.map fun c => .advance i c

section Run

variable {w w' : NotificationWorld} {i : ℕ} {c : NotificationChoice} {cs : List NotificationChoice}

/-- The step of a call, from the step of its code. -/
theorem step_of_advance {r : NotificationCall} {pc : NotificationPc}
    (hcall : w.calls i = some ⟨r, pc⟩) :
    notificationSystem.step w (.advance i c) =
      (advanceNotification w.shared c r pc).map fun q => w.move i r q.1 q.2 := by
  show Calls.step notificationMachine notificationEnvironment w (.advance i c) = _
  simp only [Calls.step, hcall]
  rfl

/-- One `add` of `recoverPending` goes on or throws. -/
theorem advance_enqueueing {s s' : NotificationState} {id : Uuid} {ids : List Uuid}
    {pc' : NotificationPc}
    (h : advanceNotification s c .recoverPending (.enqueueing id ids) = some (s', pc')) :
    (s' = { s with jobs := add id s.jobs } ∧ pc' = enqueueNext ids) ∨ pc'.final = true ∧
      pc' ≠ .returned .none := by
  have hthrew : ∀ claim, NotificationPc.threw claim ≠ .returned .none := by
    intro claim hreturned
    cases hreturned
  rcases advanceNotification_cases h with ⟨-, rfl⟩ | h
  · refine Or.inr ⟨rfl, fun hreturned => ?_⟩
    cases hreturned
  · cases hfault : c.fault with
    | none =>
      simp only [advance, hfault, Option.some.injEq, Prod.mk.injEq] at h
      exact Or.inl ⟨h.1.symm, h.2.symm⟩
    | notExecuted | replyLost =>
      simp only [advance, hfault, Option.some.injEq, Prod.mk.injEq] at h
      rw [← h.2]
      exact Or.inr ⟨rfl, hthrew _⟩

/-- A call that has ended takes no step. -/
theorem exec_of_final {r : NotificationCall} {pc : NotificationPc}
    (hcall : w.calls i = some ⟨r, pc⟩) (hfinal : pc.final = true)
    (h : notificationSystem.exec w (cs.map fun c => .advance i c) = some w') : w' = w := by
  cases cs with
  | nil =>
    cases h
    rfl
  | cons c cs =>
    rw [List.map_cons, Sys.exec_cons, step_of_advance hcall, advanceNotification, hfinal] at h
    cases h

/-- **The loop of `recoverPending`** adds the rest of its list. -/
theorem jobs_of_enqueueNext {ids : List Uuid}
    (hcall : w.calls i = some ⟨.recoverPending, enqueueNext ids⟩)
    (h : notificationSystem.exec w (cs.map fun c => .advance i c) = some w')
    (hdone : w'.calls i = some ⟨.recoverPending, .returned .none⟩) :
    w'.shared = { w.shared with jobs := addAll ids w.shared.jobs } := by
  induction ids generalizing w cs with
  | nil =>
    rw [exec_of_final hcall rfl h]
    rfl
  | cons id ids ih =>
    cases cs with
    | nil =>
      cases h
      rw [hcall] at hdone
      cases hdone
    | cons c cs =>
      rw [List.map_cons, Sys.exec_cons, step_of_advance hcall, Option.bind_eq_some_iff] at h
      obtain ⟨v, hv, hrest⟩ := h
      obtain ⟨⟨s', pc'⟩, hadvance, rfl⟩ := Option.map_eq_some_iff.mp hv
      have hcall' := Calls.move_calls_self w i .recoverPending s' pc'
      rcases advance_enqueueing hadvance with ⟨rfl, rfl⟩ | ⟨hfinal, hne⟩
      · exact ih hcall' hrest
      · -- a call that has thrown does not return
        rw [exec_of_final hcall' hfinal hrest, hcall'] at hdone
        cases hdone
        exact absurd rfl hne

/-- **What an undisturbed `recoverPending` does**: it adds a job for each delivery it
lists. -/
theorem jobs_of_recoverRun (h : notificationSystem.exec w (recoverRun i c cs) = some w')
    (hdone : w'.calls i = some ⟨.recoverPending, .returned .none⟩) :
    w'.shared = { w.shared with
      jobs := addAll (findPending 100 c.order w.shared.deliveries) w.shared.jobs } := by
  rw [recoverRun, Sys.exec_cons, Option.bind_eq_some_iff] at h
  obtain ⟨v, hv, h⟩ := h
  have hv : Calls.step notificationMachine notificationEnvironment w (.request i .recoverPending) =
    some v := hv
  simp only [Calls.step] at hv
  split at hv
  · cases hv
    have hstart := Calls.move_calls_self w i .recoverPending w.shared notificationMachine.start
    rw [Sys.exec_cons, step_of_advance hstart, Option.bind_eq_some_iff] at h
    obtain ⟨v, hv, h⟩ := h
    obtain ⟨⟨s', pc'⟩, hadvance, rfl⟩ := Option.map_eq_some_iff.mp hv
    have hcall := Calls.move_calls_self
      (w.move i .recoverPending w.shared notificationMachine.start) i .recoverPending s' pc'
    rcases advanceNotification_cases hadvance with ⟨rfl, rfl⟩ | hadvance
    · rw [exec_of_final hcall rfl h, hcall] at hdone
      cases hdone
    · simp only [notificationMachine, advance] at hadvance
      split at hadvance
      · cases hadvance
        have hjobs := jobs_of_enqueueNext hcall h hdone
        exact hjobs
      · cases hadvance
        rw [exec_of_final hcall rfl h, hcall] at hdone
        cases hdone
  · cases hv

/-- **An undisturbed `recoverPending` comes to its end** when no statement and no command
fails. -/
theorem recoverPending_returns (hnew : w.calls i = none) : ∃ w',
    notificationSystem.exec w (recoverRun i (.ends .none) (List.replicate
      (findPending 100 (fun _ => 0) w.shared.deliveries).length (.ends .none))) = some w' ∧
    w'.calls i = some ⟨.recoverPending, .returned .none⟩ := by
  have hloop : ∀ (ids : List Uuid) (v : NotificationWorld),
      v.calls i = some ⟨.recoverPending, enqueueNext ids⟩ → ∃ w',
        notificationSystem.exec v ((List.replicate ids.length (NotificationChoice.ends .none)).map
          fun c => .advance i c) = some w' ∧
        w'.calls i = some ⟨.recoverPending, .returned .none⟩ := by
    intro ids
    induction ids with
    | nil => exact fun v hv => ⟨v, rfl, hv⟩
    | cons id ids ih =>
      intro v hv
      obtain ⟨w', hw', hdone⟩ := ih _ (Calls.move_calls_self v i .recoverPending
        { v.shared with jobs := add id v.shared.jobs } (enqueueNext ids))
      refine ⟨w', ?_, hdone⟩
      rw [List.length_cons, List.replicate_succ, List.map_cons, Sys.exec_cons, step_of_advance hv]
      exact hw'
  obtain ⟨w', hw', hdone⟩ := hloop (findPending 100 (fun _ => 0) w.shared.deliveries)
    ((w.move i .recoverPending w.shared .start).move i .recoverPending w.shared
      (enqueueNext (findPending 100 (fun _ => 0) w.shared.deliveries)))
    (Calls.move_calls_self _ _ _ _ _)
  refine ⟨w', ?_, hdone⟩
  have hrequest : notificationSystem.step w (.request i .recoverPending) =
      some (w.move i .recoverPending w.shared .start) := by
    show Calls.step notificationMachine notificationEnvironment w
      (.request i .recoverPending) = _
    simp only [Calls.step, hnew]
    rfl
  rw [recoverRun, Sys.exec_cons, hrequest, Option.bind_some, Sys.exec_cons,
    step_of_advance (Calls.move_calls_self _ _ _ _ _)]
  exact hw'

end Run

/-! ### The theorem -/

/-- **When recovery re-enqueues.**  In every reachable state, an undisturbed call of
`recoverPending` that returns leaves a live job for every delivery it lists if and only
if no completed or failed job of one of them is retained.  And whatever comes between
its steps, an `add` that succeeds leaves a live job for its delivery if and only if no
such job is retained at that moment. -/
theorem recovers_iff {w w' : NotificationWorld} (hw : notificationSystem.Reachable w) {i : ℕ}
    {c : NotificationChoice} {cs : List NotificationChoice}
    (h : notificationSystem.exec w (recoverRun i c cs) = some w')
    (hdone : w'.calls i = some ⟨.recoverPending, .returned .none⟩) :
    ((∀ id ∈ findPending 100 c.order w'.shared.deliveries, HasLive w'.shared.jobs id) ↔
      ∀ id ∈ findPending 100 c.order w.shared.deliveries, ¬HasFinished w.shared.jobs id) ∧
    ∀ v j c' id rest v', notificationSystem.Reachable v →
      v.calls j = some ⟨.recoverPending, .enqueueing id rest⟩ →
      notificationSystem.step v (.advance j c') = some v' →
      v'.calls j = some ⟨.recoverPending, enqueueNext rest⟩ →
        (HasLive v'.shared.jobs id ↔ ¬HasFinished v.shared.jobs id) := by
  refine ⟨?_, ?_⟩
  · rw [jobs_of_recoverRun h hdone]
    refine forall₂_congr fun id hid => ?_
    exact live_addAll_iff (unique_jobs_of_reachable hw) hid
  · intro v j c' id rest v' hv hcall hstep hnext
    rw [step_of_advance hcall] at hstep
    obtain ⟨⟨s', pc'⟩, hadvance, rfl⟩ := Option.map_eq_some_iff.mp hstep
    rw [Calls.move_calls_self, Option.some.injEq, Calls.Call.mk.injEq] at hnext
    rcases advance_enqueueing hadvance with ⟨rfl, -⟩ | ⟨hfinal, hne⟩
    · exact live_add_iff (unique_jobs_of_reachable hv)
    · -- a call that has thrown does not go on
      have hpc : pc' = enqueueNext rest := hnext.2
      cases rest with
      | nil => exact absurd hpc hne
      | cons id' rest =>
        rw [hpc] at hfinal
        cases hfinal

/-- The call of `recoverPending` under the number `i` has returned. -/
def NotificationWorld.recovered (w : NotificationWorld) (i : ℕ) : Bool :=
  match w.calls i with
  | some ⟨.recoverPending, .returned .none⟩ => true
  | _ => false

theorem NotificationWorld.calls_of_recovered {w : NotificationWorld} {i : ℕ}
    (h : w.recovered i = true) : w.calls i = some ⟨.recoverPending, .returned .none⟩ := by
  unfold recovered at h
  split at h
  · assumption
  · cases h

/-- A delivery is created, and nobody enqueues it. -/
def unenqueuedDelivery : List NotificationAction := enqueuedDelivery.take 1

/-- A call that lists one delivery. -/
def sampleRecovery : List NotificationAction := recoverRun 9 (.ends .none) [.ends .none]

/-- What a recovery leaves: whether it has returned, what it has listed, and the jobs. -/
def NotificationWorld.recovery (w : NotificationWorld) :
    Bool × List Uuid × List (Uuid × Phase) :=
  (w.recovered 9, findPending 100 (fun _ => 0) w.shared.deliveries,
    w.shared.jobs.map fun job => (job.id, job.phase))

/-- A delivery that was not enqueued is recovered. -/
theorem sample_recovered : ∃ v w, notificationSystem.exec NotificationWorld.sample
      unenqueuedDelivery = some v ∧ notificationSystem.exec v sampleRecovery = some w ∧
    HasLive w.shared.jobs (Uuid.repeated 1) := by
  have hbefore : (notificationSystem.exec NotificationWorld.sample unenqueuedDelivery).map
      NotificationWorld.recovery = some (false, [Uuid.repeated 1], []) := by decide
  have hafter : (notificationSystem.exec NotificationWorld.sample
      (unenqueuedDelivery ++ sampleRecovery)).map (fun w => (NotificationWorld.recovery w).1) =
        some true := by decide
  obtain ⟨v, hv, hempty⟩ := Option.map_eq_some_iff.mp hbefore
  simp only [NotificationWorld.recovery, Prod.mk.injEq, List.map_eq_nil_iff] at hempty
  obtain ⟨-, hlisted, hjobs⟩ := hempty
  rw [Sys.exec_append, hv, Option.bind_some] at hafter
  obtain ⟨w, hw, hreturned⟩ := Option.map_eq_some_iff.mp hafter
  have hdone := NotificationWorld.calls_of_recovered hreturned
  have hreach : notificationSystem.Reachable v := .exec (.init NotificationWorld.sample_init) hv
  have hlive := (recovers_iff hreach hw hdone).1.mpr (by simp [HasFinished, hjobs])
  refine ⟨v, w, hv, hw, hlive _ ?_⟩
  rw [jobs_of_recoverRun hw hdone]
  show Uuid.repeated 1 ∈ findPending 100 (fun _ => 0) v.shared.deliveries
  rw [hlisted]
  exact List.mem_singleton.mpr rfl

/-- PostgreSQL does not answer while the job of a delivery has its five attempts. -/
def databaseOutage : List NotificationAction :=
  enqueuedDelivery ++ (List.range 5).flatMap fun n =>
    deliveryRun (n + 1) [.notExecuted, .notExecuted, .none] ++
      [.environment (.promote (Uuid.repeated 1))]

/-- **A delivery whose job has failed is not recovered**: it is still `PENDING` without an
attempt of its own, `recoverPending` lists it, and its job stays failed. -/
theorem failed_job_kept : ¬∀ (w w' : NotificationWorld) (i : ℕ) (c : NotificationChoice)
    (cs : List NotificationChoice), notificationSystem.Reachable w →
      notificationSystem.exec w (recoverRun i c cs) = some w' →
      w'.calls i = some ⟨.recoverPending, .returned .none⟩ →
        ∀ id ∈ findPending 100 c.order w'.shared.deliveries, HasLive w'.shared.jobs id := by
  intro hclaim
  have hrun : (notificationSystem.exec NotificationWorld.sample
      (databaseOutage ++ sampleRecovery)).map NotificationWorld.recovery =
        some (true, [Uuid.repeated 1], [(Uuid.repeated 1, .failed)]) := by decide
  obtain ⟨w', hw', hrecovery⟩ := Option.map_eq_some_iff.mp hrun
  simp only [NotificationWorld.recovery, Prod.mk.injEq] at hrecovery
  obtain ⟨hreturned, hlisted, hjobs⟩ := hrecovery
  rw [Sys.exec_append, Option.bind_eq_some_iff] at hw'
  obtain ⟨w, hw, hrecover⟩ := hw'
  have hreach : notificationSystem.Reachable w := .exec (.init NotificationWorld.sample_init) hw
  have hlive := hclaim w w' 9 (.ends .none) [.ends .none] hreach hrecover
    (NotificationWorld.calls_of_recovered hreturned) (Uuid.repeated 1) (by
      show Uuid.repeated 1 ∈ findPending 100 (fun _ => 0) w'.shared.deliveries
      rw [hlisted]
      exact List.mem_singleton.mpr rfl)
  obtain ⟨job, hjob, -, hphase⟩ := hlive
  have hmem : (job.id, job.phase) ∈ w'.shared.jobs.map fun job => (job.id, job.phase) :=
    List.mem_map_of_mem hjob
  rw [hjobs, List.mem_singleton, Prod.mk.injEq] at hmem
  rw [hmem.2] at hphase
  cases hphase

end ScaleForge
