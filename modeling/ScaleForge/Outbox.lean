import ScaleForge.Schema
import Mathlib.Data.List.Sort

/-!
# The outbox poller

`OutboxPublisherService` leases due rows of `outbox_events`, publishes them one
after another and marks each published, or defers it when publishing or marking
fails.  A poller is in one of the states below; between two of its steps other
pollers run, the clock advances, and the process may crash.

A database error leaves open whether the statement took effect: `Fault.replyLost`
is the statement that did.

## Main definitions

* `leasable` — the predicate of the lease query.
* `OutboxPublisherService.lease`, `markPublished`, `deferral` — the three
  writes.
* `Poller`, `PollAction` — the states and the steps of one instance.
* `Poller.batch`, `Poller.sending` — the records an instance works on.
* `OutboxPublisherService.step` — one step of an instance on the table.
* `OutboxPublisherService.Polls`, `Writes` — the ways a step can go, and its writes.
-/

namespace ScaleForge

/-- How a statement ends. -/
inductive Fault
  /-- It runs, and the caller learns so. -/
  | none
  /-- It fails without taking effect. -/
  | notExecuted
  /-- It takes effect, and the caller sees an error. -/
  | replyLost
  deriving DecidableEq, Repr

/-- The columns the lease query returns. -/
structure LeasedOutboxEvent where
  id : Uuid
  type : EventType
  aggregateType : String
  aggregateId : String
  payload : Json
  correlationId : Option String
  attempts : ℕ
  createdAt : ℕ

/-- `RETURNING event.id, event.type, …`. -/
def OutboxEvent.leased (e : OutboxEvent) : LeasedOutboxEvent where
  id := e.id
  type := e.type
  aggregateType := e.aggregateType
  aggregateId := e.aggregateId
  payload := e.payload
  correlationId := e.correlationId
  attempts := e.attempts
  createdAt := e.createdAt

/-- The `WHERE` clause of the lease query at the time `now`: unpublished, due,
and not locked in the last thirty seconds. -/
def leasable (now : ℕ) (e : OutboxEvent) : Bool :=
  e.publishedAt.isNone && decide (e.nextAttemptAt ≤ now) &&
    e.lockedAt.all fun t => decide (t + 30000 < now)

theorem publishedAt_of_leasable {now : ℕ} {e : OutboxEvent} (h : leasable now e = true) :
    e.publishedAt = none := by
  simp only [leasable, Bool.and_eq_true, Option.isNone_iff_eq_none] at h
  exact h.1.1

/-- The seconds a row that failed `attempts` times waits. -/
def delaySeconds (attempts : ℕ) : ℕ := min 60 (2 ^ min attempts 6)

theorem delaySeconds_le (attempts : ℕ) : delaySeconds attempts ≤ 60 := min_le_left _ _

namespace OutboxPublisherService

/-- The rows the lease query picks, oldest first: `FOR UPDATE SKIP LOCKED`
passes over the rows another statement holds. -/
def picked (limit : ℕ) (now : ℕ) (skipped : List Uuid) (rows : List OutboxEvent) :
    List Uuid :=
  (((rows.filter fun e => leasable now e && e.id ∉ skipped).insertionSort
    fun e e' => e.createdAt ≤ e'.createdAt).take limit).map OutboxEvent.id

/-- What leasing does to a row. -/
def lock (instanceId : ℕ) (now : ℕ) (e : OutboxEvent) : OutboxEvent :=
  { e with lockedAt := some now, lockedBy := some instanceId }

/-- The `UPDATE` of `lease`. -/
def lease (limit instanceId : ℕ) (now : ℕ) (skipped : List Uuid) (rows : List OutboxEvent) :
    List OutboxEvent :=
  Table.update (fun e => e.id ∈ picked limit now skipped rows) (lock instanceId now) rows

/-- The records `lease` returns. -/
def leasedRecords (limit instanceId : ℕ) (now : ℕ) (skipped : List Uuid)
    (rows : List OutboxEvent) : List LeasedOutboxEvent :=
  ((lease limit instanceId now skipped rows).filter fun e =>
    e.id ∈ picked limit now skipped rows).map OutboxEvent.leased

/-- `where: { id: record.id, lockedBy: this.instanceId }`. -/
def owned (instanceId : ℕ) (id : Uuid) (e : OutboxEvent) : Bool :=
  e.id = id && e.lockedBy = some instanceId

/-- What marking does to a row. -/
def publish (publishedAt : ℕ) (e : OutboxEvent) : OutboxEvent :=
  { e with publishedAt := some publishedAt, lockedAt := none, lockedBy := none, lastError := none }

/-- The `updateMany` after a confirmed publish. -/
def markPublished (instanceId : ℕ) (id : Uuid) (publishedAt : ℕ) (rows : List OutboxEvent) :
    List OutboxEvent :=
  Table.update (owned instanceId id) (publish publishedAt) rows

/-- What deferring does to a row. -/
def defer (nextAttemptAt : ℕ) (lastError : String) (e : OutboxEvent) : OutboxEvent :=
  { e with
    attempts := e.attempts + 1
    nextAttemptAt := nextAttemptAt
    lockedAt := none
    lockedBy := none
    lastError := some lastError }

/-- The `updateMany` of the catch block. -/
def deferral (instanceId : ℕ) (id : Uuid) (nextAttemptAt : ℕ) (lastError : String)
    (rows : List OutboxEvent) : List OutboxEvent :=
  Table.update (owned instanceId id) (defer nextAttemptAt lastError) rows

/-- The `lastError` of a deferral. -/
def errorText : Thrown → String
  | .error message => String.ofList (message.toList.take 2000)
  | .other => "Unknown publish error"

end OutboxPublisherService

/-- The state of one instance, at the await it has reached. -/
inductive Poller
  /-- No batch is running. -/
  | idle
  /-- Awaiting the lease query. -/
  | leasing
  /-- Awaiting `rabbit.publish` of a record; `rest` is the batch after it. -/
  | publishing (record : LeasedOutboxEvent) (rest : List LeasedOutboxEvent)
  /-- Awaiting the write that marks it published. -/
  | marking (record : LeasedOutboxEvent) (rest : List LeasedOutboxEvent) (publishedAt : ℕ)
  /-- Awaiting the write that defers it. -/
  | deferring (record : LeasedOutboxEvent) (rest : List LeasedOutboxEvent)
      (nextAttemptAt : ℕ) (lastError : String)
  /-- The process died; a restarted one has another `instanceId`. -/
  | crashed

/-- The records of the batch an instance has not dealt with, the one at hand first. -/
def Poller.batch : Poller → List LeasedOutboxEvent
  | .publishing record rest => record :: rest
  | .marking record rest _ => record :: rest
  | .deferring record rest _ _ => record :: rest
  | _ => []

/-- The record whose publish an instance awaits. -/
def Poller.sending : Poller → Option LeasedOutboxEvent
  | .publishing record _ => some record
  | _ => none

/-- One step of an instance. -/
inductive PollAction
  /-- The interval fires. -/
  | interval
  /-- The lease query ends. -/
  | lease (skipped : List Uuid) (fault : Fault)
  /-- The broker confirms the publish. -/
  | confirm
  /-- The publish fails. -/
  | publishFails (thrown : Thrown)
  /-- The marking write ends; `thrown` is what an error would be. -/
  | mark (fault : Fault) (thrown : Thrown)
  /-- The deferring write ends. -/
  | defer (fault : Fault)
  /-- The process dies. -/
  | crash

namespace OutboxPublisherService

/-- The loop of `publishBatch` moves on to the next record. -/
def next : List LeasedOutboxEvent → Poller
  | [] => .idle
  | record :: rest => .publishing record rest

/-- The catch block of `publishOne` up to its write. -/
def caught (now : ℕ) (record : LeasedOutboxEvent) (rest : List LeasedOutboxEvent)
    (thrown : Thrown) : Poller :=
  .deferring record rest (now + delaySeconds (record.attempts + 1) * 1000) (errorText thrown)

/-- A statement with its fault: its effect, unless it was not executed. -/
def effect (fault : Fault) (write : List OutboxEvent → List OutboxEvent)
    (rows : List OutboxEvent) : List OutboxEvent :=
  match fault with
  | .notExecuted => rows
  | _ => write rows

/-- One step of the instance `instanceId` at the time `now`: its next state, the
rows, and whether the broker has just confirmed a publish of some event. -/
def step (instanceId : ℕ) (now : ℕ) (rows : List OutboxEvent) :
    Poller → PollAction → Option (Poller × List OutboxEvent × Option Uuid)
  | .idle, .interval => some (.leasing, rows, none)
  | .leasing, .lease skipped fault =>
    -- an error of the lease query ends the batch in the catch of `publishBatch`
    some (if fault = .none then next (leasedRecords 25 instanceId now skipped rows) else .idle,
      effect fault (lease 25 instanceId now skipped) rows, none)
  | .publishing record rest, .confirm => some (.marking record rest now, rows, some record.id)
  | .publishing record rest, .publishFails thrown =>
    some (caught now record rest thrown, rows, none)
  | .marking record rest publishedAt, .mark fault thrown =>
    -- a failed mark falls into the same catch block as a failed publish
    some (if fault = .none then next rest else caught now record rest thrown,
      effect fault (markPublished instanceId record.id publishedAt) rows, none)
  | .deferring record rest nextAttemptAt lastError, .defer fault =>
    some (if fault = .none then next rest else .idle,
      effect fault (deferral instanceId record.id nextAttemptAt lastError) rows, none)
  | .crashed, .crash => none
  | _, .crash => some (.crashed, rows, none)
  | _, _ => none

/-! ### A step taken apart -/

/-- The ways one step of an instance can go: from, action, to, the rows after it,
and the event the broker confirms. -/
inductive Polls (instanceId : ℕ) (now : ℕ) (rows : List OutboxEvent) :
    Poller → PollAction → Poller → List OutboxEvent → Option Uuid → Prop
  /-- The interval fires. -/
  | interval : Polls instanceId now rows .idle .interval .leasing rows none
  /-- The lease query returns its records. -/
  | leased (skipped : List Uuid) :
      Polls instanceId now rows .leasing (.lease skipped .none)
        (next (leasedRecords 25 instanceId now skipped rows))
        (lease 25 instanceId now skipped rows) none
  /-- The lease query ends in an error. -/
  | leaseFailed (skipped : List Uuid) {fault : Fault} (hfault : fault ≠ .none) :
      Polls instanceId now rows .leasing (.lease skipped fault) .idle
        (effect fault (lease 25 instanceId now skipped) rows) none
  /-- The broker confirms. -/
  | confirmed (record : LeasedOutboxEvent) (rest : List LeasedOutboxEvent) :
      Polls instanceId now rows (.publishing record rest) .confirm (.marking record rest now)
        rows (some record.id)
  /-- The publish fails. -/
  | publishFailed (record : LeasedOutboxEvent) (rest : List LeasedOutboxEvent)
      (thrown : Thrown) :
      Polls instanceId now rows (.publishing record rest) (.publishFails thrown)
        (caught now record rest thrown) rows none
  /-- The row is marked published. -/
  | marked (record : LeasedOutboxEvent) (rest : List LeasedOutboxEvent) (publishedAt : ℕ)
      (thrown : Thrown) :
      Polls instanceId now rows (.marking record rest publishedAt) (.mark .none thrown)
        (next rest) (markPublished instanceId record.id publishedAt rows) none
  /-- The marking write ends in an error. -/
  | markFailed (record : LeasedOutboxEvent) (rest : List LeasedOutboxEvent) (publishedAt : ℕ)
      (thrown : Thrown) {fault : Fault} (hfault : fault ≠ .none) :
      Polls instanceId now rows (.marking record rest publishedAt) (.mark fault thrown)
        (caught now record rest thrown)
        (effect fault (markPublished instanceId record.id publishedAt) rows) none
  /-- The row is deferred. -/
  | deferred (record : LeasedOutboxEvent) (rest : List LeasedOutboxEvent) (nextAttemptAt : ℕ)
      (lastError : String) :
      Polls instanceId now rows (.deferring record rest nextAttemptAt lastError) (.defer .none)
        (next rest) (deferral instanceId record.id nextAttemptAt lastError rows) none
  /-- The deferring write ends in an error, and the batch with it. -/
  | deferFailed (record : LeasedOutboxEvent) (rest : List LeasedOutboxEvent)
      (nextAttemptAt : ℕ) (lastError : String) {fault : Fault} (hfault : fault ≠ .none) :
      Polls instanceId now rows (.deferring record rest nextAttemptAt lastError) (.defer fault)
        .idle (effect fault (deferral instanceId record.id nextAttemptAt lastError) rows) none
  /-- The process dies. -/
  | crashed (p : Poller) (hp : p ≠ .crashed) :
      Polls instanceId now rows p .crash .crashed rows none

/-- **A step of a poller, taken apart.** -/
theorem step_cases {instanceId : ℕ} {now : ℕ} {rows rows' : List OutboxEvent} {p p' : Poller}
    {a : PollAction} {confirmed : Option Uuid}
    (h : step instanceId now rows p a = some (p', rows', confirmed)) :
    Polls instanceId now rows p a p' rows' confirmed := by
  unfold step at h
  split at h <;> cases h
  case h_1 => exact .interval
  case h_2 skipped fault =>
    cases fault with
    | none => exact .leased skipped
    | notExecuted => exact .leaseFailed skipped (by decide)
    | replyLost => exact .leaseFailed skipped (by decide)
  case h_3 record rest => exact .confirmed record rest
  case h_4 record rest thrown => exact .publishFailed record rest thrown
  case h_5 record rest publishedAt fault thrown =>
    cases fault with
    | none => exact .marked record rest publishedAt thrown
    | notExecuted => exact .markFailed record rest publishedAt thrown (by decide)
    | replyLost => exact .markFailed record rest publishedAt thrown (by decide)
  case h_6 record rest nextAttemptAt lastError fault =>
    cases fault with
    | none => exact .deferred record rest nextAttemptAt lastError
    | notExecuted => exact .deferFailed record rest nextAttemptAt lastError (by decide)
    | replyLost => exact .deferFailed record rest nextAttemptAt lastError (by decide)
  case h_8 hp => exact .crashed _ hp

@[simp] theorem batch_next (rest : List LeasedOutboxEvent) : (next rest).batch = rest := by
  cases rest <;> rfl

/-- **The batch after a step is what is left of it, or has just been leased.** -/
theorem mem_batch_of_polls {instanceId : ℕ} {now : ℕ} {rows rows' : List OutboxEvent}
    {p p' : Poller} {a : PollAction} {confirmed : Option Uuid}
    (h : Polls instanceId now rows p a p' rows' confirmed) {record : LeasedOutboxEvent}
    (hrecord : record ∈ p'.batch) :
    record ∈ p.batch ∨ ∃ skipped, a = .lease skipped .none ∧ p = .leasing ∧
      record ∈ leasedRecords 25 instanceId now skipped rows ∧
      rows' = lease 25 instanceId now skipped rows := by
  cases h with
  | leased skipped =>
    rw [batch_next] at hrecord
    exact Or.inr ⟨skipped, rfl, rfl, hrecord, rfl⟩
  | confirmed record rest => exact Or.inl hrecord
  | publishFailed record rest thrown => exact Or.inl hrecord
  | marked record rest publishedAt thrown =>
    rw [batch_next] at hrecord
    exact Or.inl (List.mem_cons_of_mem _ hrecord)
  | markFailed record rest publishedAt thrown hfault => exact Or.inl hrecord
  | deferred record rest nextAttemptAt lastError =>
    rw [batch_next] at hrecord
    exact Or.inl (List.mem_cons_of_mem _ hrecord)
  | _ => cases hrecord

/-! ### What a step does to the table -/

/-- The three writes of a poller, as the effect of a step on the rows. -/
inductive Writes (instanceId : ℕ) (now : ℕ) :
    Poller → List OutboxEvent → List OutboxEvent → Prop
  /-- The step leaves the rows alone. -/
  | same (p : Poller) (rows : List OutboxEvent) : Writes instanceId now p rows rows
  /-- The step is the effect of the lease query. -/
  | lease (skipped : List Uuid) (rows : List OutboxEvent) :
      Writes instanceId now .leasing rows (lease 25 instanceId now skipped rows)
  /-- The step marks a row published. -/
  | mark (record : LeasedOutboxEvent) (rest : List LeasedOutboxEvent) (publishedAt : ℕ)
      (rows : List OutboxEvent) :
      Writes instanceId now (.marking record rest publishedAt) rows
        (markPublished instanceId record.id publishedAt rows)
  /-- The step defers a row. -/
  | defer (record : LeasedOutboxEvent) (rest : List LeasedOutboxEvent) (nextAttemptAt : ℕ)
      (lastError : String) (rows : List OutboxEvent) :
      Writes instanceId now (.deferring record rest nextAttemptAt lastError) rows
        (deferral instanceId record.id nextAttemptAt lastError rows)

/-- A write that ends in an error is the write, or none. -/
theorem Writes.of_effect {instanceId : ℕ} {now : ℕ} {p : Poller} {rows : List OutboxEvent}
    {write : List OutboxEvent → List OutboxEvent}
    (h : Writes instanceId now p rows (write rows)) (fault : Fault) :
    Writes instanceId now p rows (effect fault write rows) := by
  cases fault with
  | notExecuted => exact .same p rows
  | none => exact h
  | replyLost => exact h

/-- **Every step of a poller is one of its three writes, or none.** -/
theorem writes_of_step {instanceId : ℕ} {now : ℕ} {rows rows' : List OutboxEvent}
    {p p' : Poller} {a : PollAction} {confirmed : Option Uuid}
    (h : step instanceId now rows p a = some (p', rows', confirmed)) :
    Writes instanceId now p rows rows' := by
  cases step_cases h with
  | leased skipped => exact .lease skipped rows
  | @leaseFailed skipped fault hfault => exact (Writes.lease skipped rows).of_effect fault
  | marked record rest publishedAt thrown => exact .mark record rest publishedAt rows
  | @markFailed record rest publishedAt thrown fault hfault =>
    exact (Writes.mark record rest publishedAt rows).of_effect fault
  | deferred record rest nextAttemptAt lastError =>
    exact .defer record rest nextAttemptAt lastError rows
  | @deferFailed record rest nextAttemptAt lastError fault hfault =>
    exact (Writes.defer record rest nextAttemptAt lastError rows).of_effect fault
  | _ => exact .same _ _

end OutboxPublisherService

end ScaleForge
