import ScaleForge.Lib.Calls
import ScaleForge.Schema
import ScaleForge.Topology

/-!
# The effects of the consumers

`AuditRepository.processEvent` and `NotificationsRepository.processOrderCreated`,
statement by statement.  Each is a read-committed transaction: a statement reads
the rows committed before it, its own inserts stay private until it commits, and
other transactions run between its statements.

A unique index is where two such transactions meet.  An insert whose key is
committed fails; an insert whose key another transaction has inserted and not
yet committed waits for that transaction to end.  So an insert takes its key as
a lock and holds it to the end of its transaction, and an insert that finds its
key locked is not enabled.  Any statement may also fail on its own account
(a lost connection, a deadlock victim, a missing user), and a failed statement
ends the transaction.

The event is whatever JSON the message held.

## Main definitions

* `EffectTables`, `IndexKey` — the rows and the keys of the two unique indexes.
* `auditData`, `deliveryData` — the rows the handlers insert.
* `EffectCall`, `EffectPc`, `advanceEffect` — the statements of the two handlers.
* `effectSystem` — any number of handler calls on the tables.

## Main results

* `effectStep_of_machine` — the ways a statement can go.
-/

namespace ScaleForge

/-! ### Rows -/

structure ProcessedMessage where
  consumer : ConsumerName
  eventId : Uuid
  deriving DecidableEq

inductive DeliveryStatus
  | pending
  | processing
  | delivered
  | failed
  deriving DecidableEq, Repr

structure NotificationDelivery where
  id : Uuid
  eventId : Uuid
  userId : Uuid
  channel : String
  template : String
  payload : Json
  status : DeliveryStatus
  attempts : ℕ
  lastError : Option String

/-- An audit row, with the event `processEvent` wrote it for; the request path
writes its rows for none.  No column holds that event, and nothing reads it. -/
structure AuditEntry where
  row : AuditLog
  event : Option Uuid

/-- The committed rows. -/
structure EffectTables where
  processedMessages : List ProcessedMessage
  auditLogs : List AuditEntry
  notificationDeliveries : List NotificationDelivery

/-- The keys of the unique indexes on `(consumer, eventId)` and on
`(eventId, channel)`, whose channel is always the column's default. -/
inductive IndexKey
  | marker (consumer : ConsumerName) (eventId : Uuid)
  | delivery (eventId : Uuid)
  deriving DecidableEq

/-- `processedMessage.findUnique`. -/
def EffectTables.processed (db : EffectTables) (consumer : ConsumerName) (eventId : Uuid) : Bool :=
  db.processedMessages.any fun m => m.consumer = consumer && m.eventId = eventId

/-- `notificationDelivery.findUnique` on the channel `IN_APP`. -/
def EffectTables.findDelivery (db : EffectTables) (eventId : Uuid) : Option NotificationDelivery :=
  db.notificationDeliveries.find? fun d => d.eventId = eventId && d.channel = "IN_APP"

/-- The key is in the committed part of its index. -/
def EffectTables.indexed (db : EffectTables) : IndexKey → Bool
  | .marker consumer eventId => db.processed consumer eventId
  | .delivery eventId => (db.findDelivery eventId).isSome

/-! ### What the handlers read from the event -/

/-- How PostgreSQL reads the text of a UUID. -/
structure UuidSyntax where
  parse : String → Option Uuid

/-- A JSON value as a `uuid` column: a text PostgreSQL can read. -/
def UuidSyntax.ofJson (u : UuidSyntax) (j : Option Json) : Option Uuid :=
  (Json.string? j).bind u.parse

/-- A text that fits its `VARCHAR` column. -/
def varchar (n : ℕ) (j : Option Json) : Option String :=
  (Json.string? j).filter fun s => s.length ≤ n

/-- An optional text: absent, `null`, or a text that fits. -/
def optionalVarchar (n : ℕ) : Option Json → Option (Option String)
  | none => some none
  | some .null => some none
  | some j => (varchar n (some j)).map some

/-- `event.type.toUpperCase()`; event types are ASCII. -/
def toUpperCase (s : String) : String := String.ofList (s.toList.map Char.toUpper)

section Data

variable (u : UuidSyntax) (event : Json)

/-- `event.payload.userId`. -/
def payloadUserId : Option Json := (event.get "payload").bind (Json.get "userId")

/-- `typeof event.payload.userId === 'string' ? event.payload.userId : undefined`,
as a `uuid` column. -/
def auditActor : Option (Option Uuid) :=
  match payloadUserId event with
  | some (.str s) => (u.parse s).map some
  | _ => some none

/-- The row of `auditLog.create`, or `none` where a value has the wrong type or
does not fit. -/
def auditData (id : Uuid) (now : ℕ) : Option AuditLog := do
  let actorId ← auditActor u event
  let type ← Json.string? (event.get "type")
  let action ← varchar 100 (some (.str ("EVENT_" ++ toUpperCase type)))
  let aggregateType ← varchar 80 (event.get "aggregateType")
  let aggregateId ← varchar 100 (event.get "aggregateId")
  let correlationId ← optionalVarchar 100 (event.get "correlationId")
  let metadata ← event.get "payload"
  return ⟨id, actorId, action, aggregateType, aggregateId, metadata, correlationId, now⟩

/-- The row of `notificationDelivery.create`; a `userId` that is no text is the
error `OrderCreated event is missing userId`. -/
def deliveryData (id eventId : Uuid) : Option NotificationDelivery := do
  let userId ← u.ofJson (payloadUserId event)
  let payload ← event.get "payload"
  return ⟨id, eventId, userId, "IN_APP", "ORDER_CREATED", payload, .pending, 0, none⟩

variable {u event}

theorem deliveryData_eq_some {id eventId : Uuid} {row : NotificationDelivery}
    (h : deliveryData u event id eventId = some row) :
    row.eventId = eventId ∧ row.channel = "IN_APP" := by
  unfold deliveryData at h
  obtain ⟨userId, -, h⟩ := Option.bind_eq_some_iff.mp h
  obtain ⟨payload, -, h⟩ := Option.bind_eq_some_iff.mp h
  cases h
  exact ⟨rfl, rfl⟩

end Data

/-! ### The calls -/

/-- A call of one of the two handlers. -/
inductive EffectCall
  | processEvent (event : Json)
  | processOrderCreated (event : Json)

namespace EffectCall

def event : EffectCall → Json
  | processEvent event => event
  | processOrderCreated event => event

def consumer : EffectCall → ConsumerName
  | processEvent _ => .audit
  | processOrderCreated _ => .notification

end EffectCall

/-- The row a call has inserted and not yet committed. -/
inductive Effect
  | audit (entry : AuditEntry)
  | delivery (row : NotificationDelivery)

/-- What a call returns. -/
inductive EffectResult
  /-- Of `processEvent`: whether it wrote. -/
  | audited (fresh : Bool)
  /-- Of `processOrderCreated`: the delivery, or `null`. -/
  | delivery (id : Option Uuid)

/-- How far a call has come. -/
inductive EffectPc
  /-- Nothing has run. -/
  | start
  /-- The marker is there; `processOrderCreated` looks its delivery up. -/
  | lookup (eventId : Uuid)
  /-- The marker is not there; the effect is inserted next. -/
  | effect (eventId : Uuid)
  /-- The effect is inserted; the marker is next. -/
  | marker (eventId : Uuid) (effect : Effect)
  /-- Both are inserted; the commit is next. -/
  | commit (eventId : Uuid) (effect : Effect)
  /-- The call has returned. -/
  | returned (result : EffectResult)
  /-- The call has thrown. -/
  | thrown

/-- What the environment decides in a statement: whether it fails, and the
identifier of the row it inserts. -/
structure EffectChoice where
  fails : Bool
  id : Uuid

/-- The committed rows and the keys locked by transactions in progress. -/
structure EffectState where
  clock : ℕ
  db : EffectTables
  locked : List IndexKey

namespace EffectState

/-- Take a key. -/
def lock (s : EffectState) (k : IndexKey) : EffectState := { s with locked := k :: s.locked }

/-- Give the keys of a transaction back. -/
def release (s : EffectState) (ks : List IndexKey) : EffectState :=
  { s with locked := s.locked.filter fun k => k ∉ ks }

end EffectState

/-- The key an effect has inserted; audit rows have no unique key of their own. -/
def Effect.keys (eventId : Uuid) : Effect → List IndexKey
  | audit _ => []
  | delivery _ => [.delivery eventId]

/-- The keys a call has locked. -/
def EffectPc.held (r : EffectCall) : EffectPc → List IndexKey
  | marker eventId e => e.keys eventId
  | commit eventId e => .marker r.consumer eventId :: e.keys eventId
  | _ => []

/-- The rows after the commit of an effect and its marker. -/
def EffectTables.commit (db : EffectTables) (consumer : ConsumerName) (eventId : Uuid) :
    Effect → EffectTables
  | .audit entry => { db with
      processedMessages := db.processedMessages ++ [⟨consumer, eventId⟩]
      auditLogs := db.auditLogs ++ [entry] }
  | .delivery row => { db with
      processedMessages := db.processedMessages ++ [⟨consumer, eventId⟩]
      notificationDeliveries := db.notificationDeliveries ++ [row] }

/-- What a committed call returns. -/
def Effect.result : Effect → EffectResult
  | audit _ => .audited true
  | delivery row => .delivery (some row.id)

/-- Insert a key into its index and go on: a committed key is a violation, a
locked one has to be waited for. -/
def insertKey (s : EffectState) (r : EffectCall) (pc : EffectPc) (k : IndexKey) (pc' : EffectPc) :
    Option (EffectState × EffectPc) :=
  if s.db.indexed k then some (s.release (pc.held r), .thrown)
  else if k ∈ s.locked then none
  else some (s.lock k, pc')

/-- The next statement of a call. -/
def advanceEffect (u : UuidSyntax) (s : EffectState) (c : EffectChoice) (r : EffectCall)
    (pc : EffectPc) : Option (EffectState × EffectPc) :=
  if c.fails then
    -- a failed statement ends the transaction, also one that was waiting
    match pc with
    | .returned _ | .thrown => none
    | _ => some (s.release (pc.held r), .thrown)
  else
    match pc with
    | .start =>
      match u.ofJson (r.event.get "id") with
      | none => some (s, .thrown)
      | some eventId =>
        if s.db.processed r.consumer eventId then
          match r with
          | .processEvent _ => some (s, .returned (.audited false))
          | .processOrderCreated _ => some (s, .lookup eventId)
        else some (s, .effect eventId)
    | .lookup eventId =>
      some (s, .returned (.delivery ((s.db.findDelivery eventId).map NotificationDelivery.id)))
    | .effect eventId =>
      match r with
      | .processEvent event =>
        match auditData u event c.id s.clock with
        | none => some (s, .thrown)
        | some row => some (s, .marker eventId (.audit ⟨row, some eventId⟩))
      | .processOrderCreated event =>
        match deliveryData u event c.id eventId with
        | none => some (s, .thrown)
        | some row => insertKey s r pc (.delivery eventId) (.marker eventId (.delivery row))
    | .marker eventId effect =>
      insertKey s r pc (.marker r.consumer eventId) (.commit eventId effect)
    | .commit eventId effect =>
      some ({ s.release (pc.held r) with db := s.db.commit r.consumer eventId effect },
        .returned effect.result)
    | .returned _ => none
    | .thrown => none

/-- The machine of the calls. -/
def effectMachine (u : UuidSyntax) :
    Calls.Machine EffectState EffectChoice EffectCall EffectPc where
  start := .start
  advance := advanceEffect u

/-- What else writes these tables. -/
inductive EffectEnvironment
  /-- Time passes. -/
  | tick (ms : ℕ)
  /-- The request path inserts an audit row. -/
  | auditRow (row : AuditLog)
  /-- A delivery worker updates the status of a delivery. -/
  | deliveryStatus (id : Uuid) (status : DeliveryStatus) (attempts : ℕ) (lastError : Option String)

/-- A step of the environment. -/
def effectEnvironment (s : EffectState) : EffectEnvironment → Option EffectState
  | .tick ms => some { s with clock := s.clock + ms }
  | .auditRow row => some { s with
      db := { s.db with auditLogs := s.db.auditLogs ++ [⟨row, none⟩] } }
  | .deliveryStatus id status attempts lastError => some { s with
      db := { s.db with
        notificationDeliveries := Table.update (fun d => d.id = id)
          (fun d => { d with status := status, attempts := attempts, lastError := lastError })
          s.db.notificationDeliveries } }

/-- The tables are empty and nothing is locked. -/
def EffectState.Empty (s : EffectState) : Prop :=
  s.db.processedMessages = [] ∧ (∀ a ∈ s.db.auditLogs, a.event = none) ∧
    s.db.notificationDeliveries = [] ∧ s.locked = []

/-- The handler calls on the tables. -/
abbrev EffectWorld := Calls.State EffectState EffectCall EffectPc

/-- A step of a handler call, or of what surrounds them. -/
abbrev EffectAction := Calls.Action EffectEnvironment EffectChoice EffectCall

/-- **The system**: handler calls, in any interleaving of their statements. -/
abbrev effectSystem (u : UuidSyntax) : Transition.Sys EffectWorld EffectAction :=
  Calls.system (effectMachine u) effectEnvironment EffectState.Empty

/-! ### Taking a statement apart -/

/-- A call that has returned does nothing more. -/
theorem advanceEffect_returned (u : UuidSyntax) (s : EffectState) (c : EffectChoice)
    (r : EffectCall) (result : EffectResult) :
    advanceEffect u s c r (.returned result) = none := by
  unfold advanceEffect
  split <;> rfl

@[simp] theorem EffectState.release_nil (s : EffectState) : s.release [] = s := by
  unfold EffectState.release
  simp

/-- The effect is one the call inserts for the event. -/
def Effect.For (r : EffectCall) (eventId : Uuid) : Effect → Prop
  | audit entry => r.consumer = .audit ∧ entry.event = some eventId
  | delivery row => r.consumer = .notification ∧ row.eventId = eventId ∧ row.channel = "IN_APP"

/-- The ways the next statement of a call can go. -/
inductive EffectStep (u : UuidSyntax) (s : EffectState) (r : EffectCall) :
    EffectPc → EffectState → EffectPc → Prop
  /-- It throws, and the transaction is rolled back. -/
  | throws (pc : EffectPc) : EffectStep u s r pc (s.release (pc.held r)) .thrown
  /-- `processEvent` finds its marker. -/
  | repeated {eventId : Uuid} (hid : u.ofJson (r.event.get "id") = some eventId)
      (hr : r.consumer = .audit) (hmarker : s.db.processed .audit eventId = true) :
      EffectStep u s r .start s (.returned (.audited false))
  /-- `processOrderCreated` finds its marker. -/
  | marked {eventId : Uuid} (hid : u.ofJson (r.event.get "id") = some eventId)
      (hr : r.consumer = .notification) (hmarker : s.db.processed .notification eventId = true) :
      EffectStep u s r .start s (.lookup eventId)
  /-- There is no marker. -/
  | unmarked {eventId : Uuid} (hid : u.ofJson (r.event.get "id") = some eventId) :
      EffectStep u s r .start s (.effect eventId)
  /-- `processOrderCreated` answers with the delivery it looked up. -/
  | found (eventId : Uuid) : EffectStep u s r (.lookup eventId) s
      (.returned (.delivery ((s.db.findDelivery eventId).map NotificationDelivery.id)))
  /-- The audit row is inserted. -/
  | audited {eventId : Uuid} {entry : AuditEntry} (hfor : (Effect.audit entry).For r eventId) :
      EffectStep u s r (.effect eventId) s (.marker eventId (.audit entry))
  /-- The delivery is inserted. -/
  | delivered {eventId : Uuid} {row : NotificationDelivery}
      (hfor : (Effect.delivery row).For r eventId)
      (hindex : s.db.indexed (.delivery eventId) = false)
      (hfree : IndexKey.delivery eventId ∉ s.locked) :
      EffectStep u s r (.effect eventId) (s.lock (.delivery eventId))
        (.marker eventId (.delivery row))
  /-- The marker is inserted. -/
  | marking {eventId : Uuid} {effect : Effect}
      (hindex : s.db.indexed (.marker r.consumer eventId) = false)
      (hfree : IndexKey.marker r.consumer eventId ∉ s.locked) :
      EffectStep u s r (.marker eventId effect) (s.lock (.marker r.consumer eventId))
        (.commit eventId effect)
  /-- The transaction commits. -/
  | committed (eventId : Uuid) (effect : Effect) :
      EffectStep u s r (.commit eventId effect)
        { s.release ((EffectPc.commit eventId effect).held r) with
          db := s.db.commit r.consumer eventId effect }
        (.returned effect.result)

section Cases

variable {u : UuidSyntax} {s s' : EffectState} {c : EffectChoice} {r : EffectCall}
  {pc pc' : EffectPc}

/-- A call that throws before it has inserted anything changes nothing. -/
theorem EffectStep.throws_of_held (h : pc.held r = []) : EffectStep u s r pc s .thrown := by
  have hstep := EffectStep.throws (u := u) (s := s) (r := r) pc
  rwa [h, EffectState.release_nil] at hstep

theorem effectStep_of_insertKey {k : IndexKey}
    (hinsert : s.db.indexed k = false → k ∉ s.locked → EffectStep u s r pc (s.lock k) pc')
    {q : EffectState × EffectPc} (h : insertKey s r pc k pc' = some q) :
    EffectStep u s r pc q.1 q.2 := by
  unfold insertKey at h
  split at h
  · cases h
    exact .throws pc
  · next hindex =>
    split at h
    · cases h
    · next hfree =>
      cases h
      exact hinsert (Bool.eq_false_iff.mpr hindex) hfree

/-- **The ways the next statement of a call can go.** -/
theorem effectStep_of_advance {q : EffectState × EffectPc}
    (h : advanceEffect u s c r pc = some q) : EffectStep u s r pc q.1 q.2 := by
  unfold advanceEffect at h
  split at h
  · split at h <;> cases h
    exact .throws _
  · split at h
    · -- the marker is looked up
      split at h
      · cases h
        exact .throws_of_held rfl
      · next eventId hid =>
        split at h
        · next hmarker =>
          split at h <;> cases h
          · exact .repeated hid rfl hmarker
          · exact .marked hid rfl hmarker
        · cases h
          exact .unmarked hid
    · cases h
      exact .found _
    · -- the effect is inserted
      split at h
      · split at h <;> cases h
        · exact .throws_of_held rfl
        · exact .audited ⟨rfl, rfl⟩
      · split at h
        · cases h
          exact .throws_of_held rfl
        · next row hrow =>
          refine effectStep_of_insertKey (fun hindex hfree => .delivered ?_ hindex hfree) h
          obtain ⟨hevent, hchannel⟩ := deliveryData_eq_some hrow
          exact ⟨rfl, hevent, hchannel⟩
    · exact effectStep_of_insertKey (fun hindex hfree => .marking hindex hfree) h
    · cases h
      exact .committed _ _
    · cases h
    · cases h

/-- `effectStep_of_advance` for a step of the machine. -/
theorem effectStep_of_machine (h : (effectMachine u).advance s c r pc = some (s', pc')) :
    EffectStep u s r pc s' pc' :=
  effectStep_of_advance h

end Cases

end ScaleForge
