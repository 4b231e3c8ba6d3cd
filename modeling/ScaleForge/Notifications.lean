import ScaleForge.Effects
import ScaleForge.Lib.JobQueue
import ScaleForge.Outbox

/-!
# The notification queue

`NotificationQueueService` on the rows of `notification_deliveries` and the BullMQ
queue, await by await: `enqueue` as the consumer calls it, `recoverPending`, and
`process`, which a worker runs for each job it takes.  Any number of calls run at
once; a worker whose lock expires goes on with its run, while its job is taken again.

What surrounds a call decides whether a statement or a Redis command fails, whether
what failed has taken effect all the same, when a delay or a lock ends, and when a
process dies.  Of BullMQ it is assumed that `add` does nothing while there is a job
with the identifier, retained ones included.

## Main definitions

* `DeliveryRow`, `DeliveryWrite`, `NotificationState` — the rows, the writes that have
  changed one, and the queue.
* `NotificationsRepository.findPending`, `claim`, `recordDelivered`, `markFailed` — the
  statements.
* `NotificationCall`, `NotificationPc`, `advanceNotification` — the calls, await by await.
* `notificationSystem` — any number of calls.

## Main results

* `deliveryStep_of_machine` — what a step of a call does to the rows.
* `deliveries_of_step` — what a step of the system does to them.
-/

namespace ScaleForge

open JobQueue

/-! ### Rows -/

/-- A row of `notification_deliveries`, with the column `findPending` orders by. -/
structure DeliveryRow extends NotificationDelivery where
  createdAt : ℕ

/-- A write that has changed a row. -/
inductive DeliveryWrite
  | claimed (id : Uuid)
  | delivered (id : Uuid)
  | markedFailed (id : Uuid)
  deriving DecidableEq

namespace NotificationsRepository

/-- `status: { in: ['PENDING', 'FAILED'] }, attempts: { lt: 5 }`. -/
def recoverable (d : DeliveryRow) : Bool :=
  (d.status = .pending || d.status = .failed) && decide (d.attempts < 5)

/-- The identifiers `findPending` returns, oldest first; rows of one `createdAt` come as
`order` has them. -/
def findPending (limit : ℕ) (order : Uuid → ℕ) (rows : List DeliveryRow) : List Uuid :=
  (((rows.filter recoverable).insertionSort fun d e => d.createdAt < e.createdAt ∨
    d.createdAt = e.createdAt ∧ order d.id ≤ order e.id).take limit).map fun d => d.id

/-- The row of `notificationDelivery.create` in `processOrderCreated`. -/
def created (id eventId userId : Uuid) (payload : Json) (createdAt : ℕ) : DeliveryRow :=
  ⟨⟨id, eventId, userId, "IN_APP", "ORDER_CREATED", payload, .pending, 0, none⟩, createdAt⟩

/-- `claimed.count ≠ 0`. -/
def claimable (id : Uuid) (rows : List DeliveryRow) : Bool :=
  rows.any fun d => d.id = id && recoverable d

/-- The `updateMany` of `deliver`. -/
def claim (id : Uuid) (rows : List DeliveryRow) : List DeliveryRow :=
  Table.update (fun d => d.id = id && recoverable d)
    (fun d => { d with status := .processing, attempts := d.attempts + 1, lastError := none }) rows

/-- The `update` of `deliver`. -/
def recordDelivered (id : Uuid) (rows : List DeliveryRow) : List DeliveryRow :=
  Table.update (fun d => d.id = id) (fun d => { d with status := .delivered }) rows

/-- The row of a delivery is `PROCESSING`. -/
def processing (id : Uuid) (rows : List DeliveryRow) : Bool :=
  rows.any fun d => d.id = id && d.status = .processing

/-- The `updateMany` of `markFailed`. -/
def markFailed (id : Uuid) (lastError : String) (rows : List DeliveryRow) : List DeliveryRow :=
  Table.update (fun d => d.id = id && d.status = .processing)
    (fun d => { d with status := .failed, lastError := some lastError }) rows

/-- The `lastError` of `markFailed`. -/
def errorText : Thrown → String
  | .error message => String.ofList (message.toList.take 2000)
  | .other => "Unknown delivery error"

end NotificationsRepository

open NotificationsRepository

/-- The committed rows and the queue. -/
structure NotificationState where
  clock : ℕ
  deliveries : List DeliveryRow
  jobs : List (Job Uuid)
  /-- The number of locks that have been taken. -/
  locks : ℕ
  /-- The writes that have changed a row, in order; nothing reads them. -/
  writes : List DeliveryWrite

/-- `attempts: 5`, `removeOnComplete: 1_000`, `removeOnFail: 5_000`, and the default of
`maxStalledCount`. -/
def jobLimits : Limits where
  attempts := 5
  stalls := 1
  completed := 1000
  failed := 5000

namespace NotificationState

/-- The claim takes effect. -/
def claim (s : NotificationState) (id : Uuid) : NotificationState :=
  { s with
    deliveries := NotificationsRepository.claim id s.deliveries
    writes := s.writes ++ if claimable id s.deliveries then [.claimed id] else [] }

/-- The `DELIVERED` write takes effect. -/
def recordDelivered (s : NotificationState) (id : Uuid) : NotificationState :=
  { s with
    deliveries := NotificationsRepository.recordDelivered id s.deliveries
    writes := s.writes ++ [.delivered id] }

/-- The write of `markFailed` takes effect. -/
def markFailed (s : NotificationState) (id : Uuid) (lastError : String) : NotificationState :=
  { s with
    deliveries := NotificationsRepository.markFailed id lastError s.deliveries
    writes := s.writes ++ if processing id s.deliveries then [.markedFailed id] else [] }

end NotificationState

/-! ### The calls -/

/-- A call of the service. -/
inductive NotificationCall
  /-- The consumer enqueues a delivery it has committed. -/
  | enqueue (deliveryId : Uuid)
  | recoverPending
  /-- A worker runs the job of a delivery. -/
  | process (deliveryId : Uuid)

/-- What the writes of a run have done so far; the code does not keep this. -/
inductive RunClaim
  /-- It has claimed nothing. -/
  | none
  /-- Its claim took effect, and no closing write of its own has. -/
  | held
  /-- A closing write of its own took effect. -/
  | closed
  deriving DecidableEq

/-- A closing write takes effect. -/
def RunClaim.close : RunClaim → RunClaim
  | none => none
  | _ => closed

/-- How far a call has come. -/
inductive NotificationPc
  | start
  /-- Awaiting `queue.add`; `rest` is the list after it. -/
  | enqueueing (deliveryId : Uuid) (rest : List Uuid)
  /-- Awaiting the claim. -/
  | claiming (lock : ℕ)
  /-- Awaiting the `DELIVERED` write. -/
  | delivering (lock : ℕ)
  /-- Awaiting `markFailed`. -/
  | failing (lock : ℕ) (claim : RunClaim) (lastError : String)
  /-- The processor has returned or thrown; BullMQ moves the job. -/
  | finishing (lock : ℕ) (claim : RunClaim) (succeeded : Bool)
  | returned (claim : RunClaim)
  | threw (claim : RunClaim)
  /-- The process died. -/
  | crashed (claim : RunClaim)

/-- What the run has done to its delivery. -/
def NotificationPc.claim : NotificationPc → RunClaim
  | delivering _ => .held
  | failing _ claim _ => claim
  | finishing _ claim _ => claim
  | returned claim => claim
  | threw claim => claim
  | crashed claim => claim
  | _ => .none

/-- The call has ended. -/
def NotificationPc.final : NotificationPc → Bool
  | returned _ => true
  | threw _ => true
  | crashed _ => true
  | _ => false

/-- What surrounds one step. -/
structure NotificationChoice where
  crashes : Bool
  /-- How the statement or the command ends. -/
  fault : Fault
  /-- What an error would be. -/
  thrown : Thrown
  /-- How `findPending` orders rows of one `createdAt`. -/
  order : Uuid → ℕ

namespace NotificationQueueService

/-- The loop of `recoverPending` moves on. -/
def enqueueNext : List Uuid → NotificationPc
  | [] => .returned .none
  | id :: rest => .enqueueing id rest

/-- The next await of a call. -/
def advance (s : NotificationState) (c : NotificationChoice) :
    NotificationCall → NotificationPc → Option (NotificationState × NotificationPc)
  | .enqueue id, .start =>
    if s.deliveries.any fun d => d.id = id then some (s, .enqueueing id []) else none
  | .recoverPending, .start =>
    if c.fault = .none then some (s, enqueueNext (findPending 100 c.order s.deliveries))
    else some (s, .threw .none)
  | .process id, .start =>
    -- a worker takes the job
    if s.jobs.any fun j => j.id = id && j.phase = .waiting then
      some ({ s with jobs := take jobLimits id s.locks s.jobs, locks := s.locks + 1 },
        .claiming s.locks)
    else none
  | .process id, .claiming lock =>
    let won := claimable id s.deliveries
    match c.fault with
    | .none => some (s.claim id, if won then .delivering lock else .finishing lock .none true)
    | .notExecuted => some (s, .failing lock .none (errorText c.thrown))
    | .replyLost =>
      some (s.claim id, .failing lock (if won then .held else .none) (errorText c.thrown))
  | .process id, .delivering lock =>
    match c.fault with
    | .none => some (s.recordDelivered id, .finishing lock .closed true)
    | .notExecuted => some (s, .failing lock .held (errorText c.thrown))
    | .replyLost => some (s.recordDelivered id, .failing lock .closed (errorText c.thrown))
  | .process id, .failing lock claim lastError =>
    -- whether `markFailed` throws or not, the processor throws
    match c.fault with
    | .notExecuted => some (s, .finishing lock claim false)
    | _ => some (s.markFailed id lastError, .finishing lock claim.close false)
  | .process id, .finishing lock claim succeeded =>
    let moved := if succeeded then complete jobLimits id lock s.jobs
      else fail jobLimits id lock s.jobs
    some (if c.fault = .notExecuted then s else { s with jobs := moved },
      if succeeded then .returned claim else .threw claim)
  | .process _, _ => none
  | _, .enqueueing id rest =>
    match c.fault with
    | .none => some ({ s with jobs := add id s.jobs }, enqueueNext rest)
    | .notExecuted => some (s, .threw .none)
    | .replyLost => some ({ s with jobs := add id s.jobs }, .threw .none)
  | _, _ => none

end NotificationQueueService

/-- One step of a call: its next await, or the death of its process. -/
def advanceNotification (s : NotificationState) (c : NotificationChoice) (r : NotificationCall)
    (pc : NotificationPc) : Option (NotificationState × NotificationPc) :=
  if pc.final then none
  else if c.crashes then some (s, .crashed pc.claim)
  else NotificationQueueService.advance s c r pc

/-- The calls as a machine. -/
def notificationMachine : Calls.Machine NotificationState NotificationChoice NotificationCall
    NotificationPc where
  start := .start
  advance := advanceNotification

/-- What else happens. -/
inductive NotificationEnvironment
  | tick (ms : ℕ)
  /-- A transaction of `processOrderCreated` commits; its `now()` was `createdAt`. -/
  | processOrderCreated (id eventId userId : Uuid) (payload : Json) (createdAt : ℕ)
  /-- The delay of a job is over. -/
  | promote (id : Uuid)
  /-- The lock of a job's run expires. -/
  | stall (id : Uuid)

/-- A step of the surroundings. -/
def notificationEnvironment (s : NotificationState) :
    NotificationEnvironment → Option NotificationState
  | .tick ms => some { s with clock := s.clock + ms }
  | .processOrderCreated id eventId userId payload createdAt =>
    if s.deliveries.all (fun d => d.id ≠ id && d.eventId ≠ eventId) && decide (createdAt ≤ s.clock)
    then some { s with
      deliveries := s.deliveries ++ [created id eventId userId payload createdAt] }
    else none
  | .promote id => some { s with jobs := promote jobLimits id s.jobs }
  | .stall id => some { s with jobs := stall jobLimits id s.jobs }

/-- There are no rows and no jobs. -/
def NotificationState.Empty (s : NotificationState) : Prop :=
  s.deliveries = [] ∧ s.jobs = [] ∧ s.writes = []

/-- The calls on the rows and the queue. -/
abbrev NotificationWorld := Calls.State NotificationState NotificationCall NotificationPc

/-- A step of a call, or of what surrounds them. -/
abbrev NotificationAction :=
  Calls.Action NotificationEnvironment NotificationChoice NotificationCall

/-- **The system**: any number of calls, in any interleaving of their awaits. -/
abbrev notificationSystem : Transition.Sys NotificationWorld NotificationAction :=
  Calls.system notificationMachine notificationEnvironment NotificationState.Empty

/-! ### Taking a step apart -/

/-- What a run knows of the row of its delivery at some of its awaits: there it has
claimed, here it has recorded the delivery. -/
def NotificationPc.Knows (id : Uuid) (rows : List DeliveryRow) : NotificationPc → Prop
  | delivering _ => ∃ d ∈ rows, d.id = id ∧ 0 < d.attempts
  | failing _ .closed _ => ∃ d ∈ rows, d.id = id ∧ d.status = .delivered
  | _ => True

/-- What a step of the run of a delivery does to the rows. -/
inductive DeliveryStep (s : NotificationState) (id : Uuid) :
    NotificationPc → NotificationState → NotificationPc → Prop
  /-- No row is written. -/
  | unwritten {pc pc' : NotificationPc} {s' : NotificationState}
      (hdeliveries : s'.deliveries = s.deliveries) (hwrites : s'.writes = s.writes)
      (hclaim : pc'.claim = pc.claim) (hknows : ∀ rows, pc'.Knows id rows) :
      DeliveryStep s id pc s' pc'
  /-- The run claims the delivery. -/
  | claimed {lock : ℕ} {pc' : NotificationPc} (hwon : claimable id s.deliveries = true)
      (hpc' : pc' = .delivering lock ∨ ∃ lastError, pc' = .failing lock .held lastError) :
      DeliveryStep s id (.claiming lock) (s.claim id) pc'
  /-- The run records the delivery. -/
  | delivered {lock : ℕ} {pc' : NotificationPc}
      (hpc' : pc' = .finishing lock .closed true ∨
        ∃ lastError, pc' = .failing lock .closed lastError) :
      DeliveryStep s id (.delivering lock) (s.recordDelivered id) pc'
  /-- `markFailed` runs. -/
  | markedFailed (lock : ℕ) (claim : RunClaim) (lastError : String) :
      DeliveryStep s id (.failing lock claim lastError) (s.markFailed id lastError)
        (.finishing lock claim.close false)

/-- A claim that meets no row changes nothing. -/
theorem claim_of_not_claimable {id : Uuid} {rows : List DeliveryRow}
    (h : claimable id rows = false) : claim id rows = rows := by
  rw [claimable, List.any_eq_false] at h
  exact Table.update_eq_self fun d hd => Bool.eq_false_iff.mpr (h d hd)

/-- Nor does `markFailed` where no row is `PROCESSING`. -/
theorem markFailed_of_not_processing {id : Uuid} {lastError : String} {rows : List DeliveryRow}
    (h : processing id rows = false) : markFailed id lastError rows = rows := by
  rw [processing, List.any_eq_false] at h
  exact Table.update_eq_self fun d hd => Bool.eq_false_iff.mpr (h d hd)

theorem NotificationState.claim_of_not_claimable {s : NotificationState} {id : Uuid}
    (h : claimable id s.deliveries = false) : s.claim id = s := by
  simp [NotificationState.claim, h, ScaleForge.claim_of_not_claimable h]

section Steps

variable {s s' : NotificationState} {c : NotificationChoice} {r : NotificationCall}
  {pc pc' : NotificationPc}

theorem deliveryStep_of_advance {id : Uuid}
    (h : NotificationQueueService.advance s c (.process id) pc = some (s', pc')) :
    DeliveryStep s id pc s' pc' := by
  cases pc with
  | start =>
    simp only [NotificationQueueService.advance] at h
    split at h
    · cases h
      exact .unwritten rfl rfl rfl fun _ => trivial
    · cases h
  | claiming lock =>
    simp only [NotificationQueueService.advance] at h
    cases hwon : claimable id s.deliveries with
    | true =>
      simp only [hwon, if_true] at h
      split at h
      · cases h
        exact .claimed hwon (Or.inl rfl)
      · cases h
        exact .unwritten rfl rfl rfl fun _ => trivial
      · cases h
        exact .claimed hwon (Or.inr ⟨_, rfl⟩)
    | false =>
      simp only [hwon, NotificationState.claim_of_not_claimable hwon] at h
      split at h
      · cases h
        exact .unwritten rfl rfl rfl fun _ => trivial
      · cases h
        exact .unwritten rfl rfl rfl fun _ => trivial
      · cases h
        exact .unwritten rfl rfl rfl fun _ => trivial
  | delivering lock =>
    simp only [NotificationQueueService.advance] at h
    split at h
    · cases h
      exact .delivered (Or.inl rfl)
    · cases h
      exact .unwritten rfl rfl rfl fun _ => trivial
    · cases h
      exact .delivered (Or.inr ⟨_, rfl⟩)
  | failing lock claim lastError =>
    simp only [NotificationQueueService.advance] at h
    split at h
    · cases h
      exact .unwritten rfl rfl rfl fun _ => trivial
    · cases h
      exact .markedFailed lock claim lastError
  | finishing lock claim succeeded =>
    simp only [NotificationQueueService.advance, Option.some.injEq, Prod.mk.injEq] at h
    obtain ⟨rfl, rfl⟩ := h
    refine .unwritten ?_ ?_ ?_ ?_
    · split <;> rfl
    · split <;> rfl
    · split <;> rfl
    · intro rows
      split <;> trivial
  | enqueueing id' rest => cases h
  | returned claim => cases h
  | threw claim => cases h
  | crashed claim => cases h

/-- The other calls write no rows, and claim nothing. -/
theorem deliveries_of_advance (hr : ∀ id, r ≠ .process id)
    (h : NotificationQueueService.advance s c r pc = some (s', pc')) :
    s'.deliveries = s.deliveries ∧ s'.writes = s.writes := by
  unfold NotificationQueueService.advance at h
  split at h
  · split at h <;> cases h
    exact ⟨rfl, rfl⟩
  · split at h <;> cases h <;> exact ⟨rfl, rfl⟩
  · exact absurd rfl (hr _)
  · exact absurd rfl (hr _)
  · exact absurd rfl (hr _)
  · exact absurd rfl (hr _)
  · exact absurd rfl (hr _)
  · exact absurd rfl (hr _)
  · split at h <;> cases h <;> exact ⟨rfl, rfl⟩
  · cases h

/-- A step of a call: its process dies, or its code goes on. -/
theorem advanceNotification_cases (h : advanceNotification s c r pc = some (s', pc')) :
    (s' = s ∧ pc' = .crashed pc.claim) ∨
      NotificationQueueService.advance s c r pc = some (s', pc') := by
  unfold advanceNotification at h
  split at h
  · cases h
  · split at h
    · cases h
      exact Or.inl ⟨rfl, rfl⟩
    · exact Or.inr h

/-- **What a step of a call does to the rows**: only runs write them. -/
theorem deliveryStep_of_machine (h : advanceNotification s c r pc = some (s', pc')) :
    (∃ id, r = .process id ∧ DeliveryStep s id pc s' pc') ∨
      (∀ id, r ≠ .process id) ∧ s'.deliveries = s.deliveries ∧ s'.writes = s.writes := by
  rcases advanceNotification_cases h with ⟨rfl, rfl⟩ | hadvance
  · by_cases hprocess : ∃ id, r = .process id
    · obtain ⟨id, rfl⟩ := hprocess
      exact Or.inl ⟨id, rfl, .unwritten rfl rfl rfl fun _ => trivial⟩
    · exact Or.inr ⟨fun id hid => hprocess ⟨id, hid⟩, rfl, rfl⟩
  · by_cases hprocess : ∃ id, r = .process id
    · obtain ⟨id, rfl⟩ := hprocess
      exact Or.inl ⟨id, rfl, deliveryStep_of_advance hadvance⟩
    · have hr : ∀ id, r ≠ .process id := fun id hid => hprocess ⟨id, hid⟩
      exact Or.inr ⟨hr, deliveries_of_advance hr hadvance⟩

end Steps

/-- What a step of the system does to the rows. -/
inductive NotificationStep (w : NotificationWorld) (a : NotificationAction) :
    NotificationWorld → Prop
  /-- No row is written, and no run moves. -/
  | unwritten {w' : NotificationWorld} (hdeliveries : w'.shared.deliveries = w.shared.deliveries)
      (hwrites : w'.shared.writes = w.shared.writes)
      (hcalls : ∀ i id pc, w'.calls i = some ⟨.process id, pc⟩ →
        w.calls i = some ⟨.process id, pc⟩ ∨ pc = .start) : NotificationStep w a w'
  /-- A delivery is created. -/
  | created {id eventId userId : Uuid} {payload : Json} {createdAt : ℕ} {s' : NotificationState}
      (ha : ∃ e, a = .environment e) (hfresh : ∀ d ∈ w.shared.deliveries, d.id ≠ id)
      (hdeliveries : s'.deliveries = w.shared.deliveries ++
        [NotificationsRepository.created id eventId userId payload createdAt])
      (hwrites : s'.writes = w.shared.writes) : NotificationStep w a { w with shared := s' }
  /-- A run moves. -/
  | run {i : ℕ} {c : NotificationChoice} {id : Uuid} {pc pc' : NotificationPc}
      {s' : NotificationState} (ha : a = .advance i c)
      (hcall : w.calls i = some ⟨.process id, pc⟩)
      (hadvance : advanceNotification w.shared c (.process id) pc = some (s', pc'))
      (hstep : DeliveryStep w.shared id pc s' pc') :
      NotificationStep w a (w.move i (.process id) s' pc')

section System

variable {w w' : NotificationWorld} {a : NotificationAction}

/-- **What a step of the system does to the rows.** -/
theorem notificationStep_of_step (h : notificationSystem.step w a = some w') :
    NotificationStep w a w' := by
  rcases Calls.step_cases h with ⟨e, d, ha, henv, rfl⟩ | ⟨i, r, -, -, rfl⟩ |
    ⟨i, c, r, pc, d, pc', ha, hcall, hadv, rfl⟩
  · cases e with
    | tick ms =>
      cases henv
      exact .unwritten rfl rfl fun i id pc hi => Or.inl hi
    | processOrderCreated id eventId userId payload createdAt =>
      simp only [notificationEnvironment] at henv
      split at henv
      · next hguard =>
        cases henv
        simp only [Bool.and_eq_true, List.all_eq_true, decide_eq_true_eq] at hguard
        exact .created ⟨_, ha⟩ (fun d hd => (hguard.1 d hd).1) rfl rfl
      · cases henv
    | promote id =>
      cases henv
      exact .unwritten rfl rfl fun i id pc hi => Or.inl hi
    | stall id =>
      cases henv
      exact .unwritten rfl rfl fun i id pc hi => Or.inl hi
  · refine .unwritten rfl rfl fun j id pc hj => ?_
    rcases Calls.move_calls_cases hj with ⟨-, -, rfl⟩ | ⟨-, hold⟩
    · exact Or.inr rfl
    · exact Or.inl hold
  · rcases deliveryStep_of_machine hadv with ⟨id, rfl, hstep⟩ | ⟨hr, hdeliveries, hwrites⟩
    · exact .run ha hcall hadv hstep
    · refine .unwritten hdeliveries hwrites fun j id pc hj => ?_
      rcases Calls.move_calls_cases hj with ⟨-, heq, -⟩ | ⟨-, hold⟩
      · exact absurd heq (hr id)
      · exact Or.inl hold

/-- A run after a step that is not its own: it stands where it stood, or has just
been started. -/
theorem run_of_step (h : NotificationStep w a w') {j : ℕ} {id : Uuid} {pc : NotificationPc}
    (hj : w'.calls j = some ⟨.process id, pc⟩)
    (hother : ∀ c, a ≠ .advance j c) : w.calls j = some ⟨.process id, pc⟩ ∨ pc = .start := by
  cases h with
  | unwritten hdeliveries hwrites hcalls => exact hcalls j id pc hj
  | created ha hfresh hdeliveries hwrites => exact Or.inl hj
  | run ha hcall hadvance hstep =>
    rcases Calls.move_calls_cases hj with ⟨rfl, -, -⟩ | ⟨-, hold⟩
    · exact absurd ha (hother _)
    · exact Or.inl hold

end System

/-! ### The jobs -/

/-- **The identifiers of the jobs are unique.** -/
theorem unique_jobs_of_reachable {w : NotificationWorld} (hw : notificationSystem.Reachable w) :
    Table.UniqueOn Job.id w.shared.jobs := by
  refine Calls.shared_invariant (I := fun s => Table.UniqueOn Job.id s.jobs) ?_ ?_ ?_ hw
  · rintro s ⟨-, hjobs, -⟩
    rw [hjobs]
    exact Table.uniqueOn_nil _
  · intro s e s' hu henv
    cases e with
    | tick ms =>
      cases henv
      exact hu
    | processOrderCreated id eventId userId payload createdAt =>
      simp only [notificationEnvironment] at henv
      split at henv <;> cases henv
      exact hu
    | promote id =>
      cases henv
      show Table.UniqueOn Job.id (promote jobLimits id s.jobs)
      exact unique_move hu
    | stall id =>
      cases henv
      show Table.UniqueOn Job.id (stall jobLimits id s.jobs)
      exact unique_move hu
  · intro s c r pc s' pc' hu hadv
    rcases advanceNotification_cases hadv with ⟨rfl, -⟩ | hadv
    · exact hu
    unfold NotificationQueueService.advance at hadv
    split at hadv
    · split at hadv <;> cases hadv
      exact hu
    · split at hadv <;> cases hadv <;> exact hu
    · split at hadv <;> cases hadv
      show Table.UniqueOn Job.id (take jobLimits _ s.locks s.jobs)
      exact unique_move hu
    · split at hadv <;> cases hadv <;> exact hu
    · split at hadv <;> cases hadv <;> exact hu
    · split at hadv <;> cases hadv <;> exact hu
    · -- the run ends, and BullMQ moves its job
      cases hadv
      split
      · exact hu
      · show Table.UniqueOn Job.id (ite _ _ _)
        split
        · exact unique_move hu
        · exact unique_move hu
    · cases hadv
    · split at hadv <;> cases hadv
      · exact unique_add hu
      · exact hu
      · exact unique_add hu
    · cases hadv

end ScaleForge
