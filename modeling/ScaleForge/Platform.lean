import ScaleForge.Evolution
import ScaleForge.NoLoss

/-!
# From the outbox to the consumers

The requests and pollers on one side and the consumers on the other share nothing
but the messages: a poller that publishes a record puts the event `publishOne` builds
on its way to the event exchange, where it may arrive at any later time, or never.
Nobody else publishes there.

The two sides keep their own clocks, and of the audit rows of the request path the
consumers' table sees whatever rows the surroundings insert.  A broker's confirm is
not tied to the arrival of the message: it may come without one, which only adds runs.

## Main definitions

* `toISOString`, `domainEvent`, `routingKeyFor` — what a poller publishes.
* `CorrelationIdMiddleware.use` — the correlation id of a request.
* `Platform`, `PlatformAction`, `platform` — the two sides together.

## Main results

* `world_of_reachable`, `consumers_of_reachable` — each side runs as it would alone.
* `readEvent_domainEvent` — **no event a poller builds is malformed.**
-/

namespace ScaleForge

/-! ### Times -/

/-- A number in at least `width` digits. -/
def padded (width n : ℕ) : List Char :=
  List.replicate (width - (Nat.toDigits 10 n).length) '0' ++ Nat.toDigits 10 n

/-- Year, month and day, so many days after the first of January 1970; years are
counted from March, in cycles of four hundred. -/
def civilDate (days : ℕ) : ℕ × ℕ × ℕ :=
  let z := days + 719468
  let day := z % 146097
  let year := (day - day / 1460 + day / 36524 - day / 146096) / 365
  let dayOfYear := day - (365 * year + year / 4 - year / 100)
  let month := (5 * dayOfYear + 2) / 153
  let january := if month < 10 then 0 else 1
  (year + z / 146097 * 400 + january, month + 3 - 12 * january,
    dayOfYear - (153 * month + 2) / 5 + 1)

/-- `new Date(ms).toISOString()`, from 1970 on. -/
def toISOString (ms : ℕ) : String :=
  let date := civilDate (ms / 86400000)
  String.ofList ((if date.1 ≤ 9999 then padded 4 date.1 else '+' :: padded 6 date.1) ++
    '-' :: padded 2 date.2.1 ++ '-' :: padded 2 date.2.2 ++
    'T' :: padded 2 (ms / 3600000 % 24) ++ ':' :: padded 2 (ms / 60000 % 60) ++
    ':' :: padded 2 (ms / 1000 % 60) ++ '.' :: padded 3 (ms % 1000) ++ ['Z'])

/-- The last second of February 2024. -/
example : toISOString 1709251199007 = "2024-02-29T23:59:59.007Z" := by decide

/-! ### Events -/

/-- `routingKeyFor`. -/
def routingKeyFor : EventType → String
  | .orderCreated => "order.created"
  | .paymentCompleted => "payment.completed"

/-- The event `publishOne` builds; a correlation id that is empty is left out. -/
def OutboxPublisherService.domainEvent (record : LeasedOutboxEvent) : Json :=
  .obj ([("id", .str record.id.text.toString), ("type", .str record.type.name),
      ("occurredAt", .str (toISOString record.createdAt)),
      ("aggregateType", .str record.aggregateType), ("aggregateId", .str record.aggregateId)] ++
    (match record.correlationId with
      | some correlationId => if correlationId = "" then [] else
        [("correlationId", .str correlationId)]
      | none => []) ++
    [("payload", record.payload)])

open OutboxPublisherService RabbitConsumersService

section DomainEvent

variable (record : LeasedOutboxEvent)

@[simp] theorem domainEvent_id :
    (domainEvent record).get "id" = some (.str record.id.text.toString) := by
  simp [domainEvent, Json.get]

@[simp] theorem domainEvent_type :
    (domainEvent record).get "type" = some (.str record.type.name) := by
  simp [domainEvent, Json.get, List.lookup_cons]

@[simp] theorem domainEvent_aggregateType :
    (domainEvent record).get "aggregateType" = some (.str record.aggregateType) := by
  simp [domainEvent, Json.get, List.lookup_cons]

@[simp] theorem domainEvent_aggregateId :
    (domainEvent record).get "aggregateId" = some (.str record.aggregateId) := by
  simp [domainEvent, Json.get, List.lookup_cons]

@[simp] theorem domainEvent_payload :
    (domainEvent record).get "payload" = some record.payload := by
  unfold domainEvent
  split
  · split <;> simp [Json.get, List.lookup_cons]
  · simp [Json.get, List.lookup_cons]

theorem domainEvent_correlationId (h : record.correlationId ≠ some "") :
    (domainEvent record).get "correlationId" = record.correlationId.map .str := by
  unfold domainEvent
  split
  · next correlationId hsome =>
    rw [hsome] at h ⊢
    rw [if_neg fun hempty => h (congrArg some hempty)]
    simp [Json.get, List.lookup_cons]
  · next hnone =>
    rw [hnone]
    simp [Json.get, List.lookup_cons]

/-- An event does not depend on how often its row has been deferred. -/
theorem domainEvent_attempts (attempts : ℕ) :
    domainEvent { record with attempts := attempts } = domainEvent record := rfl

end DomainEvent

/-- An event whose payload is an object is well formed. -/
theorem readEvent_domainEvent {record : LeasedOutboxEvent} {m : Message} (thrown : Thrown)
    (hpayload : record.payload.truthy = true) (hm : m.content = some (domainEvent record)) :
    readEvent m thrown = .ok (domainEvent record) := by
  have hid : record.id.text.toString ≠ "" := record.id.text.toString_ne_empty
  have htype : record.type.name ≠ "" := by cases record.type <;> decide
  have hwell : wellFormed (domainEvent record) = true := by
    simp only [wellFormed, domainEvent_id, domainEvent_type, domainEvent_payload,
      Option.any_some, hpayload, Bool.and_true]
    simp [Json.truthy, hid, htype]
  unfold readEvent
  rw [hm]
  split
  · next hnull => cases hnull
  · next hnull => cases hnull
  · next event hevent =>
    cases hevent
    rw [if_pos hwell]

/-! ### Correlation ids -/

/-- `CorrelationIdMiddleware.use`: the header of the request, if it is there, not empty
and not too long, and a random UUID otherwise. -/
def CorrelationIdMiddleware.use (supplied : Option String) (randomUUID : Uuid) : String :=
  match supplied with
  | some s => if s ≠ "" ∧ s.length ≤ 100 then s else randomUUID.text.toString
  | none => randomUUID.text.toString

/-- **No request has an empty correlation id.** -/
theorem CorrelationIdMiddleware.use_ne_empty (supplied : Option String) (randomUUID : Uuid) :
    use supplied randomUUID ≠ "" := by
  unfold use
  split
  · split
    · next h => exact h.1
    · exact randomUUID.text.toString_ne_empty
  · exact randomUUID.text.toString_ne_empty

/-- A request that arrives has no empty correlation id. -/
def correlated (_ : World) : Action → Bool
  | .request _ _ correlationId => correlationId ≠ some ""
  | _ => true

/-! ### The two sides -/

/-- The requests and pollers, the consumers, and what is between them. -/
structure Platform where
  world : World
  consumers : ConsumersWorld
  /-- The records whose events are on their way to the event exchange. -/
  inFlight : List LeasedOutboxEvent

/-- One step of the two sides. -/
inductive PlatformAction
  /-- A request arrives, and passes the middleware. -/
  | request (i : ℕ) (r : Request) (supplied : Option String) (randomUUID : Uuid)
  /-- Any other step of the requests and pollers. -/
  | api (a : Action)
  /-- An event arrives at the event exchange. -/
  | arrive (n : ℕ)
  /-- A step of the consumers, or of what surrounds them. -/
  | consume (a : ConsumersAction)

/-- What a step that has led to the state `w` puts on its way: the record its poller
has begun to publish. -/
def World.sent (w : World) : Action → List LeasedOutboxEvent
  | .poll j _ => (w.pollers j).sending.toList
  | _ => []

/-- The publication of a record's event. -/
def publication (record : LeasedOutboxEvent) : ConsumersAction :=
  .environment (.publish (some (domainEvent record)) (routingKeyFor record.type) none)

section Platform

variable (u : UuidSyntax)

/-- The state after an action, when it is enabled. -/
def Platform.step (p : Platform) : PlatformAction → Option Platform
  | .request i r supplied randomUUID =>
    (p.world.step (.request i r (some (CorrelationIdMiddleware.use supplied randomUUID)))).map
      fun w => { p with world := w }
  | .api (.request _ _ _) => none
  | .api a => (p.world.step a).map fun w =>
    { p with world := w, inFlight := p.inFlight ++ w.sent a }
  | .arrive n =>
    match p.inFlight[n]? with
    | none => none
    | some record => ((consumersSystem u).step p.consumers (publication record)).map fun c =>
      { p with consumers := c, inFlight := p.inFlight.eraseIdx n }
  | .consume (.environment (.publish _ _ _)) => none
  | .consume a => ((consumersSystem u).step p.consumers a).map fun c => { p with consumers := c }

/-- **The system**: both sides, and the events between them. -/
def platform : Transition.Sys Platform PlatformAction where
  init p := p.world.Initial ∧ (consumersSystem u).init p.consumers ∧ p.inFlight = []
  step := Platform.step u

variable {u} {p p' : Platform} {a : PlatformAction}

/-- **A step of the two sides, taken apart.** -/
theorem Platform.step_cases (h : p.step u a = some p') :
    (∃ b w, (system.restrict correlated).step p.world b = some w ∧
      p' = { p with world := w, inFlight := p.inFlight ++ w.sent b }) ∨
    (∃ n record c, p.inFlight[n]? = some record ∧
      (consumersSystem u).step p.consumers (publication record) = some c ∧
      p' = { p with consumers := c, inFlight := p.inFlight.eraseIdx n }) ∨
    ∃ b c, (∀ content key retryCount, b ≠ .environment (.publish content key retryCount)) ∧
      (consumersSystem u).step p.consumers b = some c ∧ p' = { p with consumers := c } := by
  unfold step at h
  split at h
  · next i r supplied randomUUID =>
    obtain ⟨w, hw, rfl⟩ := Option.map_eq_some_iff.mp h
    refine Or.inl ⟨.request i r (some (CorrelationIdMiddleware.use supplied randomUUID)), w,
      Transition.Sys.restrict_step_iff.mpr ⟨?_, hw⟩, ?_⟩
    · simp [correlated, CorrelationIdMiddleware.use_ne_empty]
    · simp [World.sent]
  · cases h
  · next b hb =>
    obtain ⟨w, hw, rfl⟩ := Option.map_eq_some_iff.mp h
    refine Or.inl ⟨b, w, Transition.Sys.restrict_step_iff.mpr ⟨?_, hw⟩, rfl⟩
    cases b with
    | request i r correlationId => exact absurd rfl (hb i r correlationId)
    | _ => rfl
  · next n =>
    split at h
    · cases h
    · next record hrecord =>
      obtain ⟨c, hc, rfl⟩ := Option.map_eq_some_iff.mp h
      exact Or.inr (Or.inl ⟨n, record, c, hrecord, hc, rfl⟩)
  · cases h
  · next b hb =>
    obtain ⟨c, hc, rfl⟩ := Option.map_eq_some_iff.mp h
    exact Or.inr (Or.inr ⟨b, c, fun content key retryCount => hb content key retryCount, hc, rfl⟩)

/-- A step of the requests and pollers, and what it puts on its way. -/
theorem Platform.step_api {b : Action} {w : World}
    (hb : ∀ i r correlationId, b ≠ .request i r correlationId) (h : p.world.step b = some w) :
    p.step u (.api b) = some { p with world := w, inFlight := p.inFlight ++ w.sent b } := by
  cases b with
  | request i r correlationId => exact absurd rfl (hb i r correlationId)
  | _ => simp only [Platform.step, h, Option.map_some]

/-- A step of the consumers, if it publishes nothing. -/
theorem Platform.step_consume {b : ConsumersAction} {c : ConsumersWorld}
    (hb : ∀ content key retryCount, b ≠ .environment (.publish content key retryCount))
    (h : (consumersSystem u).step p.consumers b = some c) :
    p.step u (.consume b) = some { p with consumers := c } := by
  unfold Platform.step
  split
  · next heq => cases heq
  · next heq => cases heq
  · next heq => cases heq
  · next heq => cases heq
  · next heq =>
    cases heq
    exact absurd rfl (hb _ _ _)
  · next heq =>
    cases heq
    rw [h]
    rfl

/-- **The requests and pollers run as they would alone.** -/
theorem world_of_reachable (hp : (platform u).Reachable p) :
    (system.restrict correlated).Reachable p.world := by
  refine hp.invariant (I := fun p => (system.restrict correlated).Reachable p.world) ?_ ?_
  · rintro p ⟨hinit, -, -⟩
    exact .init hinit
  intro p a p' _ ih hstep
  rcases Platform.step_cases hstep with ⟨b, w, hw, rfl⟩ | ⟨n, record, c, -, -, rfl⟩ |
    ⟨b, c, -, -, rfl⟩
  · exact ih.step hw
  · exact ih
  · exact ih

/-- **The consumers run as they would alone.** -/
theorem consumers_of_reachable (hp : (platform u).Reachable p) :
    (consumersSystem u).Reachable p.consumers := by
  refine hp.invariant (I := fun p => (consumersSystem u).Reachable p.consumers) ?_ ?_
  · rintro p ⟨-, hinit, -⟩
    exact .init hinit
  intro p a p' _ ih hstep
  rcases Platform.step_cases hstep with ⟨b, w, -, rfl⟩ | ⟨n, record, c, -, hc, rfl⟩ |
    ⟨b, c, -, hc, rfl⟩
  · exact ih
  · exact ih.step hc
  · exact ih.step hc

/-- **The rows of the requests at two points of a run.** -/
theorem Platform.evolves_of_exec {as : List PlatformAction} (hp : (platform u).Reachable p)
    (h : (platform u).exec p as = some p') : p.world.db.Evolves p'.world.db := by
  refine Transition.Sys.exec_rel (R := fun p p' => p.world.db.Evolves p'.world.db)
    (fun p => .refl _) (fun p q r => .trans) ?_ hp h
  intro p a p' _ hstep
  rcases Platform.step_cases hstep with ⟨b, w, hw, rfl⟩ | ⟨n, record, c, -, -, rfl⟩ |
    ⟨b, c, -, -, rfl⟩
  · exact (change_of_step (Transition.Sys.restrict_step_iff.mp hw).2).evolves
  · exact .refl _
  · exact .refl _

end Platform

end ScaleForge
