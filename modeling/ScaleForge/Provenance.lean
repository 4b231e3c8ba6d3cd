import ScaleForge.Completeness
import ScaleForge.Platform

/-!
# Where the effects come from

An outbox row becomes the record of a poller, the record becomes an event on its way,
the event becomes the content of messages, which the retry path copies, the content
becomes the event of a handler call, and the call inserts its row.  At each of these
stages what there is can be traced to a row of the outbox, whose event never changes.

## Main definitions

* `Effect.WrittenFrom` — the row is what the call's event says.
* `Db.Records`, `Message.From`, `EffectCall.From` — the record, the message, the handler
  call is of an outbox row.
* `Platform.Sourced` — everything between the outbox and the handlers is.

## Main results

* `written_of_reachable` — every effect was written by a call, from its event.
* `sourced_of_reachable` — the invariant of the two sides.
* `effects_have_provenance` — **every effect comes from one committed outbox row, no
  event is malformed, and the notification queue gets `OrderCreated` events only.**
-/

namespace ScaleForge

open Transaction Table RabbitConsumersService OutboxPublisherService

/-! ### What a handler call writes -/

section Written

variable {u : UuidSyntax}

/-- The columns of an audit row are the properties of the event. -/
theorem auditData_eq_some {event : Json} {id : Uuid} {now : ℕ} {row : AuditLog}
    (h : auditData u event id now = some row) :
    (∃ type, Json.string? (event.get "type") = some type ∧
      row.action = "EVENT_" ++ toUpperCase type) ∧
    Json.string? (event.get "aggregateType") = some row.aggregateType ∧
    Json.string? (event.get "aggregateId") = some row.aggregateId ∧
    optionalVarchar 100 (event.get "correlationId") = some row.correlationId ∧
    event.get "payload" = some row.metadata := by
  have hvarchar : ∀ {n j s}, varchar n j = some s → Json.string? j = some s :=
    fun h => (Option.filter_eq_some_iff.mp h).1
  unfold auditData at h
  obtain ⟨actorId, -, h⟩ := Option.bind_eq_some_iff.mp h
  obtain ⟨type, htype, h⟩ := Option.bind_eq_some_iff.mp h
  obtain ⟨action, haction, h⟩ := Option.bind_eq_some_iff.mp h
  obtain ⟨aggregateType, haggregate, h⟩ := Option.bind_eq_some_iff.mp h
  obtain ⟨aggregateId, haggregateId, h⟩ := Option.bind_eq_some_iff.mp h
  obtain ⟨correlationId, hcorrelation, h⟩ := Option.bind_eq_some_iff.mp h
  obtain ⟨metadata, hmetadata, h⟩ := Option.bind_eq_some_iff.mp h
  cases h
  have haction := hvarchar haction
  cases haction
  exact ⟨⟨type, htype, rfl⟩, hvarchar haggregate, hvarchar haggregateId, hcorrelation, hmetadata⟩

/-- The columns of a delivery are the properties of the event. -/
theorem payload_of_deliveryData {event : Json} {id eventId : Uuid} {row : NotificationDelivery}
    (h : deliveryData u event id eventId = some row) :
    row.eventId = eventId ∧ u.ofJson (payloadUserId event) = some row.userId ∧
      event.get "payload" = some row.payload := by
  unfold deliveryData at h
  obtain ⟨userId, huser, h⟩ := Option.bind_eq_some_iff.mp h
  obtain ⟨payload, hpayload, h⟩ := Option.bind_eq_some_iff.mp h
  cases h
  exact ⟨rfl, huser, hpayload⟩

/-- The row is what the event of the call says. -/
def Effect.WrittenFrom (u : UuidSyntax) (r : EffectCall) (eventId : Uuid) : Effect → Prop
  | audit entry => r.consumer = .audit ∧ entry.event = some eventId ∧
      ∃ id now, auditData u r.event id now = some entry.row
  | delivery row => r.consumer = .notification ∧
      ∃ id, deliveryData u r.event id eventId = some row

/-- The row a call has inserted is what its event says. -/
def EffectPc.Written (u : UuidSyntax) (r : EffectCall) : EffectPc → Prop
  | marker eventId x => x.WrittenFrom u r eventId
  | commit eventId x => x.WrittenFrom u r eventId
  | _ => True

theorem written_of_insertKey {s : EffectState} {r : EffectCall} {pc pc' : EffectPc} {k : IndexKey}
    (hpc' : pc'.Written u r) {q : EffectState × EffectPc}
    (h : insertKey s r pc k pc' = some q) : q.2.Written u r := by
  unfold insertKey at h
  split at h
  · cases h
    trivial
  · split at h <;> cases h
    exact hpc'

/-- **What a statement inserts is what the event says.** -/
theorem written_of_advance {s : EffectState} {c : EffectChoice} {r : EffectCall} {pc : EffectPc}
    {q : EffectState × EffectPc} (h : advanceEffect u s c r pc = some q)
    (hpc : pc.Written u r) : q.2.Written u r := by
  unfold advanceEffect at h
  split at h
  · split at h <;> cases h
    trivial
  · split at h
    · split at h
      · cases h
        trivial
      · split at h
        · split at h <;> cases h <;> trivial
        · cases h
          trivial
    · cases h
      trivial
    · next eventId =>
      -- the effect is inserted
      split at h
      · split at h
        · cases h
          trivial
        · next row hrow =>
          cases h
          exact ⟨rfl, rfl, _, _, hrow⟩
      · next event =>
        split at h
        · cases h
          trivial
        · next row hrow =>
          have hnew : (EffectPc.marker eventId (.delivery row)).Written u
              (.processOrderCreated event) := ⟨rfl, _, hrow⟩
          exact written_of_insertKey hnew h
    · next eventId x =>
      have hnew : (EffectPc.commit eventId x).Written u r := hpc
      exact written_of_insertKey hnew h
    · cases h
      trivial
    · cases h
    · cases h

theorem pc_written_of_reachable {w : EffectWorld} (hw : (effectSystem u).Reachable w) {i : ℕ}
    {r : EffectCall} {pc : EffectPc} (hcall : w.calls i = some ⟨r, pc⟩) : pc.Written u r := by
  refine Calls.call_invariant (J := fun _ r pc => EffectPc.Written u r pc) ?_ ?_ ?_ hw hcall
  · intro w r _
    trivial
  · intro w c r pc d pc' _ hpc hadv
    exact written_of_advance hadv hpc
  · intro w a w' r pc _ _ hpc
    exact hpc

/-- Every effect was written by a call, from its event. -/
structure EffectWorld.Written (u : UuidSyntax) (w : EffectWorld) : Prop where
  audits : ∀ a ∈ w.shared.db.auditLogs, ∀ eventId, a.event = some eventId →
    ∃ i r pc, w.calls i = some ⟨r, pc⟩ ∧ r.HasId u eventId ∧
      (Effect.audit a).WrittenFrom u r eventId
  /-- The status columns of a delivery are written later. -/
  deliveries : ∀ d ∈ w.shared.db.notificationDeliveries,
    ∃ i r pc d₀, w.calls i = some ⟨r, pc⟩ ∧ r.HasId u d.eventId ∧
      (Effect.delivery d₀).WrittenFrom u r d.eventId ∧
      d = { d₀ with status := d.status, attempts := d.attempts, lastError := d.lastError }

/-- What has been written stays so in a step that leaves the tables alone. -/
theorem EffectWorld.Written.step {w w' : EffectWorld} {a : EffectAction}
    (h : Calls.step (effectMachine u) effectEnvironment w a = some w') (hw : w.Written u)
    (haudits : ∀ a ∈ w'.shared.db.auditLogs, ∀ eventId, a.event = some eventId →
      a ∈ w.shared.db.auditLogs ∨ ∃ i r pc, w'.calls i = some ⟨r, pc⟩ ∧ r.HasId u eventId ∧
        (Effect.audit a).WrittenFrom u r eventId)
    (hdeliveries : ∀ d ∈ w'.shared.db.notificationDeliveries,
      (∃ d₁ ∈ w.shared.db.notificationDeliveries, d = { d₁ with
        status := d.status, attempts := d.attempts, lastError := d.lastError }) ∨
      ∃ i r pc, w'.calls i = some ⟨r, pc⟩ ∧ r.HasId u d.eventId ∧
        (Effect.delivery d).WrittenFrom u r d.eventId) : w'.Written u where
  audits a ha eventId he := by
    rcases haudits a ha eventId he with hold | hnew
    · obtain ⟨i, r, pc, hcall, hrest⟩ := hw.audits a hold eventId he
      obtain ⟨pc', hcall'⟩ := Calls.request_stable h ⟨pc, hcall⟩
      exact ⟨i, r, pc', hcall', hrest⟩
    · exact hnew
  deliveries d hd := by
    rcases hdeliveries d hd with ⟨d₁, hd₁, hsame⟩ | ⟨i, r, pc, hcall, hid, hwritten⟩
    · obtain ⟨i, r, pc, d₀, hcall, hid, hwritten, hd₀⟩ := hw.deliveries d₁ hd₁
      obtain ⟨pc', hcall'⟩ := Calls.request_stable h ⟨pc, hcall⟩
      have hevent : d.eventId = d₁.eventId := by rw [hsame]
      refine ⟨i, r, pc', d₀, hcall', hevent ▸ hid, hevent ▸ hwritten, ?_⟩
      rw [hsame, hd₀]
    · exact ⟨i, r, pc, d, hcall, hid, hwritten, rfl⟩

/-- The tables are as they were, but for the status columns of the deliveries. -/
theorem EffectWorld.Written.status {w w' : EffectWorld} {a : EffectAction}
    (h : Calls.step (effectMachine u) effectEnvironment w a = some w') (hw : w.Written u)
    (haudits : ∀ a ∈ w'.shared.db.auditLogs, a.event ≠ none → a ∈ w.shared.db.auditLogs)
    (hdeliveries : ∀ d ∈ w'.shared.db.notificationDeliveries,
      ∃ d₁ ∈ w.shared.db.notificationDeliveries, d = { d₁ with
        status := d.status, attempts := d.attempts, lastError := d.lastError }) :
    w'.Written u := by
  refine hw.step h ?_ fun d hd => Or.inl (hdeliveries d hd)
  intro a ha eventId he
  refine Or.inl (haudits a ha ?_)
  rw [he]
  exact Option.some_ne_none eventId

/-- A step of what surrounds the calls. -/
theorem EffectWorld.Written.environment {w : EffectWorld} {e : EffectEnvironment}
    {s : EffectState} (hw : w.Written u)
    (hstep : Calls.step (effectMachine u) effectEnvironment w (.environment e) =
      some { w with shared := s })
    (henv : effectEnvironment w.shared e = some s) :
    EffectWorld.Written u { w with shared := s } := by
  cases e with
  | tick ms =>
    cases henv
    exact hw.status hstep (fun a ha _ => ha) fun d hd => ⟨d, hd, rfl⟩
  | auditRow row =>
    cases henv
    refine hw.status hstep ?_ fun d hd => ⟨d, hd, rfl⟩
    intro a ha he
    rcases List.mem_append.mp ha with hold | hnew
    · exact hold
    · rw [List.mem_singleton.mp hnew] at he
      exact absurd rfl he
  | deliveryStatus id status attempts lastError =>
    cases henv
    refine hw.status hstep (fun a ha _ => ha) ?_
    intro d hd
    obtain ⟨d₁, hd₁, rfl⟩ := mem_update.mp hd
    refine ⟨d₁, hd₁, ?_⟩
    split <;> rfl

/-- The commit of a call: the new row is the one it has inserted. -/
theorem EffectWorld.Written.commit {w w' : EffectWorld} {a : EffectAction}
    (h : Calls.step (effectMachine u) effectEnvironment w a = some w') (hw : w.Written u) {i : ℕ}
    {r : EffectCall} {pc : EffectPc} {e : Uuid} {effect : Effect} (hid : r.HasId u e)
    (hwritten : effect.WrittenFrom u r e) (hcall : w'.calls i = some ⟨r, pc⟩)
    (hdb : w'.shared.db = w.shared.db.commit r.consumer e effect) : w'.Written u := by
  refine hw.step h ?_ ?_
  · intro a ha eventId he
    rw [hdb] at ha
    cases effect with
    | audit entry =>
      rcases List.mem_append.mp ha with hold | hnew
      · exact Or.inl hold
      · obtain rfl := List.mem_singleton.mp hnew
        rw [hwritten.2.1, Option.some.injEq] at he
        exact Or.inr ⟨i, r, pc, hcall, he ▸ hid, he ▸ hwritten⟩
    | delivery row => exact Or.inl ha
  · intro d hd
    rw [hdb] at hd
    cases effect with
    | audit entry => exact Or.inl ⟨d, hd, rfl⟩
    | delivery row =>
      rcases List.mem_append.mp hd with hold | hnew
      · exact Or.inl ⟨d, hold, rfl⟩
      · obtain rfl := List.mem_singleton.mp hnew
        obtain ⟨id, hdata⟩ := hwritten.2
        obtain ⟨he, -⟩ := payload_of_deliveryData hdata
        exact Or.inr ⟨i, r, pc, hcall, he ▸ hid, he ▸ hwritten⟩

/-- **Every effect was written by a call, from its event.** -/
theorem written_of_reachable {w : EffectWorld} (hw : (effectSystem u).Reachable w) :
    w.Written u := by
  refine hw.invariant (I := EffectWorld.Written u) ?_ ?_
  · rintro w ⟨⟨-, haudits, hdeliveries, -⟩, -⟩
    refine ⟨?_, ?_⟩
    · intro a ha eventId he
      rw [haudits a ha] at he
      cases he
    · intro d hd
      rw [hdeliveries] at hd
      cases hd
  intro w a w' hw ih hstep
  rcases Calls.step_cases hstep with ⟨e, d, rfl, henv, rfl⟩ | ⟨i, r, -, -, rfl⟩ |
    ⟨i, c, r, pc, d, pc', -, hcall, hadv, rfl⟩
  · exact ih.environment hstep henv
  · exact ih.status hstep (fun a ha _ => ha) fun d hd => ⟨d, hd, rfl⟩
  · rcases (effectStep_of_machine hadv).db_cases with hdb | ⟨e, effect, rfl, rfl, hdb⟩
    · exact ih.status hstep (fun a ha _ => hdb ▸ ha) fun d hd => ⟨d, hdb ▸ hd, rfl⟩
    · obtain ⟨hid, -⟩ := effect_ok_of_reachable hw hcall
      have hwritten : effect.WrittenFrom u r e := pc_written_of_reachable hw hcall
      exact ih.commit hstep hid hwritten (Calls.move_calls_self w i r d _) hdb

end Written

/-! ### The records of the pollers -/

/-- The record is of a row of the outbox. -/
def Db.Records (db : Db) (record : LeasedOutboxEvent) : Prop :=
  ∃ e ∈ db.outboxEvents, e.leased = { record with attempts := e.attempts }

theorem Db.Records.mono {db db' : Db} {record : LeasedOutboxEvent} (h : db.Records record)
    (he : db.Evolves db') : db'.Records record := by
  obtain ⟨e, hmem, hrecord⟩ := h
  obtain ⟨e', hmem', hsame⟩ := he.outboxEvents e hmem
  exact ⟨e', hmem', by rw [hsame, hrecord]⟩

theorem mem_batch_of_sending {p : Poller} {record : LeasedOutboxEvent}
    (h : p.sending = some record) : record ∈ p.batch := by
  cases p with
  | publishing record' rest =>
    cases h
    exact List.mem_cons_self
  | _ => cases h

/-- **What a poller works on are records of the outbox.** -/
theorem records_of_reachable {w : World} (hw : system.Reachable w) :
    ∀ j, ∀ record ∈ (w.pollers j).batch, w.db.Records record := by
  refine hw.invariant (I := fun w => ∀ j, ∀ record ∈ (w.pollers j).batch, w.db.Records record)
    ?_ ?_
  · rintro w ⟨-, -, -, -, -, -, hpollers, -⟩ j record hrecord
    rw [hpollers j] at hrecord
    cases hrecord
  intro w a w' _ ih hstep j record hrecord
  have hevolves := (change_of_step hstep).evolves
  rcases polls_of_step hstep with ⟨i, b, p, rows, new, rfl, hpolls, rfl⟩ | ⟨-, -, hsame⟩
  · by_cases hij : j = i
    · subst hij
      rw [World.polled_pollers_self] at hrecord
      rcases mem_batch_of_polls hpolls hrecord with hold | ⟨skipped, rfl, -, hleased, rfl⟩
      · exact (ih j record hold).mono hevolves
      · obtain ⟨e, he, rfl⟩ := List.mem_map.mp hleased
        exact ⟨e, List.mem_of_mem_filter he, rfl⟩
    · rw [World.polled_pollers_of_ne w hij] at hrecord
      exact (ih j record hrecord).mono hevolves
  · rw [hsame] at hrecord
    exact (ih j record hrecord).mono hevolves

/-- What a step puts on its way is a record of the outbox. -/
theorem records_of_sent {w : World} (hw : system.Reachable w) {a : Action}
    {record : LeasedOutboxEvent} (h : record ∈ w.sent a) : w.db.Records record := by
  cases a with
  | poll j b =>
    exact records_of_reachable hw j record (mem_batch_of_sending (Option.mem_toList.mp h))
  | _ => cases h

/-! ### The rows of the outbox -/

/-- A new row has the correlation id of its request, and no row changes it. -/
theorem Change.correlationIds {w : World} {db' : Db} (h : Change w db')
    (hcalls : ∀ i call, w.calls i = some call → call.correlationId ≠ some "")
    (hrows : ∀ e ∈ w.db.outboxEvents, e.correlationId ≠ some "") :
    ∀ e ∈ db'.outboxEvents, e.correlationId ≠ some "" := by
  intro e he
  cases h with
  | catalog => exact hrows e he
  | created hcall h =>
    obtain ⟨-, -, -, -, rfl⟩ := OrdersRepository.createWrite_commits h
    rcases List.mem_append.mp he with he | he
    · exact hrows e he
    · rw [List.mem_singleton.mp he]
      exact hcalls _ _ hcall
  | updated hcall h =>
    obtain ⟨-, -, -, -, rfl⟩ := OrdersRepository.updateStatus_commits h
    exact hrows e he
  | paid hcall h =>
    obtain ⟨order, -, -, -, -, -, -, -, -, rfl⟩ := PaymentsRepository.complete_commits h
    rcases List.mem_append.mp he with he | he
    · exact hrows e he
    · rw [List.mem_singleton.mp he]
      exact hcalls _ _ hcall
  | polled h =>
    obtain ⟨q, f, rfl, hf⟩ := h.eq_update
    obtain ⟨e₀, he₀, rfl⟩ := mem_update.mp he
    split
    · have hsame := congrArg LeasedOutboxEvent.correlationId (hf e₀)
      exact fun hempty => hrows e₀ he₀ (hsame.symm.trans hempty)
    · exact hrows e₀ he₀

/-- **No row has an empty correlation id.** -/
theorem correlationId_ne_empty {w : World} (hw : (system.restrict correlated).Reachable w) :
    (∀ i call, w.calls i = some call → call.correlationId ≠ some "") ∧
      ∀ e ∈ w.db.outboxEvents, e.correlationId ≠ some "" := by
  refine hw.invariant (I := fun w =>
    (∀ i call, w.calls i = some call → call.correlationId ≠ some "") ∧
      ∀ e ∈ w.db.outboxEvents, e.correlationId ≠ some "") ?_ ?_
  · rintro w ⟨-, -, -, -, hevents, hcalls, -⟩
    refine ⟨?_, ?_⟩
    · intro i call hcall
      rw [hcalls i] at hcall
      cases hcall
    · intro e he
      rw [hevents] at he
      cases he
  rintro w a w' - ⟨hcalls, hrows⟩ hstep
  obtain ⟨hguard, hstep⟩ := Transition.Sys.restrict_step_iff.mp hstep
  refine ⟨?_, ?_⟩
  · intro i call hcall
    rcases World.calls_of_step hstep i with hsame | ⟨r, correlationId, rfl⟩ | ⟨c, rfl⟩
    · exact hcalls i call (hsame ▸ hcall)
    · obtain ⟨-, rfl⟩ := World.step_request hstep
      rw [World.accept_calls_self] at hcall
      cases hcall
      exact of_decide_eq_true hguard
    · obtain ⟨call', db', pc', hcall', -, rfl⟩ := World.step_advance hstep
      rw [World.move_calls_self] at hcall
      cases hcall
      exact hcalls i call' hcall'
  · exact (change_of_step hstep).correlationIds hcalls hrows

theorem Json.truthy_of_text? {key s : String} {j : Json} (h : j.text? key = some s) :
    j.truthy = true := by
  cases j with
  | obj fields => rfl
  | _ => cases h

/-- **Every payload is an object.** -/
theorem payload_truthy {w : World} (hw : system.Reachable w) {e : OutboxEvent}
    (he : e ∈ w.db.outboxEvents) : e.payload.truthy = true := by
  have hcomplete := complete_of_reachable hw
  have hmem : ∀ type, e.type = type → e ∈ eventsOf type w.db.outboxEvents :=
    fun type htype => List.mem_filter.mpr ⟨he, decide_eq_true htype⟩
  cases htype : e.type with
  | orderCreated =>
    obtain ⟨o, -, hfor⟩ := exists_of_forall₂_right hcomplete.orderEvents (hmem _ htype)
    exact Json.truthy_of_text? hfor.orderId
  | paymentCompleted =>
    obtain ⟨p, -, hfor⟩ := exists_of_forall₂_right hcomplete.paymentEvents (hmem _ htype)
    exact Json.truthy_of_text? hfor.paymentId

/-! ### Messages and handler calls -/

/-- The message carries the event of a row; in the queues of its consumers it came
under the routing key of the row's type. -/
def Message.From (db : Db) (q : Queue) (m : Message) : Prop :=
  ∃ e ∈ db.outboxEvents, m.content = some (domainEvent e.leased) ∧
    ((∀ c, q ≠ .dead c) → m.routingKey = routingKeyFor e.type)

/-- The call is for the event of a row, and `processOrderCreated` for an `OrderCreated`
event. -/
def EffectCall.From (db : Db) (call : EffectCall) : Prop :=
  ∃ e ∈ db.outboxEvents, call.event = domainEvent e.leased ∧
    (call.consumer = .notification → e.type = .orderCreated)

section From

variable {db db' : Db}

/-- A row keeps its event. -/
theorem domainEvent_of_evolves (h : db.Evolves db') {e : OutboxEvent} (he : e ∈ db.outboxEvents) :
    ∃ e' ∈ db'.outboxEvents, domainEvent e'.leased = domainEvent e.leased ∧ e'.type = e.type := by
  obtain ⟨e', he', hsame⟩ := h.outboxEvents e he
  refine ⟨e', he', ?_, congrArg LeasedOutboxEvent.type hsame⟩
  rw [hsame, domainEvent_attempts]

theorem Message.From.mono (h : db.Evolves db') {q : Queue} {m : Message} (hm : m.From db q) :
    m.From db' q := by
  obtain ⟨e, he, hcontent, hkey⟩ := hm
  obtain ⟨e', he', hevent, htype⟩ := domainEvent_of_evolves h he
  exact ⟨e', he', by rw [hcontent, hevent], fun hq => by rw [hkey hq, htype]⟩

theorem EffectCall.From.mono (h : db.Evolves db') {call : EffectCall} (hcall : call.From db) :
    call.From db' := by
  obtain ⟨e, he, hcallEvent, hconsumer⟩ := hcall
  obtain ⟨e', he', hevent, htype⟩ := domainEvent_of_evolves h he
  exact ⟨e', he', by rw [hcallEvent, hevent], fun hc => by rw [htype, hconsumer hc]⟩

/-- What is published for a record carries the event of its row. -/
theorem Db.Records.message {record : LeasedOutboxEvent} (h : db.Records record) (q : Queue)
    {m : Message} (hcontent : m.content = some (domainEvent record))
    (hkey : m.routingKey = routingKeyFor record.type) : m.From db q := by
  obtain ⟨e, he, hrecord⟩ := h
  refine ⟨e, he, ?_, fun _ => ?_⟩
  · rw [hcontent, hrecord]
    exact congrArg some (domainEvent_attempts record e.attempts).symm
  · have htype := congrArg LeasedOutboxEvent.type hrecord
    rw [hkey]
    exact congrArg routingKeyFor htype.symm

/-- What is published for a failed message carries its event. -/
theorem Message.From.replacement {c : ConsumerName} {q : Queue} {m : Message} {error : Thrown}
    (h : m.From db (.main c)) (hq : q ∈ replacementQueues c m error) :
    (replacement c m error).2.From db q := by
  obtain ⟨e, he, hcontent, hkey⟩ := h
  refine ⟨e, he, (replacement_copyOf c m error).2.trans hcontent, fun hdead => ?_⟩
  have hkey := hkey nofun
  unfold replacementQueues RabbitConsumersService.replacement at hq
  unfold RabbitConsumersService.replacement
  split at hq
  · next hretry =>
    rw [if_pos hretry]
    exact hkey
  · exact absurd (mem_route_deadLetter_iff.mp hq) (hdead c)

/-- The handler of a consumer is called for the event of the message. -/
theorem Message.From.call {q : Queue} {c : ConsumerName} {m : Message} {event : Json}
    {call : EffectCall} (h : m.From db q) (hcontent : m.content = some event)
    (hhandle : handle c event = some call) : call.From db := by
  obtain ⟨e, he, hevent, -⟩ := h
  rw [hcontent, Option.some.injEq] at hevent
  subst hevent
  obtain ⟨hconsumer, hcall⟩ := handle_eq_some hhandle
  refine ⟨e, he, hcall, fun hnotification => ?_⟩
  rw [hnotification] at hconsumer
  subst hconsumer
  -- the notification handler looks at the type
  cases htype : e.type with
  | orderCreated => rfl
  | paymentCompleted =>
    have hname : e.leased.type = .paymentCompleted := htype
    simp [handle, isOrderCreated, Json.string?, hname, EventType.name] at hhandle

end From

/-! ### Between the outbox and the handlers -/

section Consumers

variable {u : UuidSyntax} {w w' : ConsumersWorld} {a : ConsumersAction} {db : Db}

/-- Where a handler call comes from: it was there, or has just been started for the
event of a delivered message. -/
theorem effectCall_of_step (h : (consumersSystem u).step w a = some w') {i : ℕ}
    {call : EffectCall} {pc : EffectPc}
    (hcall : w'.shared.effects.calls i = some ⟨call, pc⟩) :
    (∃ pc₀, w.shared.effects.calls i = some ⟨call, pc₀⟩) ∨
    ∃ j r tag m event, w.calls j = some ⟨r, .delivered tag m⟩ ∧ m.content = some event ∧
      handle r event = some call := by
  rcases Calls.step_cases h with ⟨e, d, rfl, henv, rfl⟩ | ⟨j, r, -, -, rfl⟩ |
    ⟨j, c, r, pc₀, d, pc', rfl, hold, hadv, rfl⟩
  · rcases environment_cases henv with ⟨_, _, _, -, rfl⟩ | ⟨_, _, _, -, -, rfl⟩ |
      ⟨b, effects, rfl, hstep, rfl⟩
    · exact Or.inl ⟨pc, hcall⟩
    · exact Or.inl ⟨pc, hcall⟩
    · have hstep : Calls.step (effectMachine u) effectEnvironment w.shared.effects b =
        some effects := hstep
      rcases Calls.arrived_of_step hstep hcall with hold | rfl
      · exact Or.inl hold
      · -- the surroundings start no calls
        cases henv
  · exact Or.inl ⟨pc, hcall⟩
  · have hmoved := consumeStep_of_machine hadv
    cases hmoved with
    | @called tag m event call' i' effects hcontent hhandle hstart =>
      have hstart : Calls.step (effectMachine u) effectEnvironment w.shared.effects
        (.request i' call') = some effects := hstart
      rcases Calls.arrived_of_step hstart hcall with hpc | heq
      · exact Or.inl hpc
      · cases heq
        exact Or.inr ⟨j, r, tag, m, event, hold, hcontent, hhandle⟩
    | _ => exact Or.inl ⟨pc, hcall⟩

/-- The message of an open delivery meets what all messages meet. -/
theorem all_of_opened {P : Queue → Message → Prop} (hw : (consumersSystem u).Reachable w)
    (hall : w.shared.broker.All P) {i : ℕ} {r : ConsumerName} {pc : ConsumePc}
    (hcall : w.calls i = some ⟨r, pc⟩) {tag : ℕ} {m : Message}
    (hopen : pc.opened = some (tag, m)) : P (.main r) m :=
  hall.deliveries _ _ (List.mem_of_getElem? (unacked_of_opened hw hcall hopen).1)

/-- **A step of the consumers keeps everything traced to the outbox**, when what it
publishes is. -/
theorem from_of_step (hw : (consumersSystem u).Reachable w)
    (h : (consumersSystem u).step w a = some w')
    (hpublish : ∀ content key retryCount, a = .environment (.publish content key retryCount) →
      ∀ q ∈ route .events key, (w.shared.publication content key retryCount).From db q)
    (hmessages : w.shared.broker.All fun q m => m.From db q)
    (hcalls : ∀ i call pc, w.shared.effects.calls i = some ⟨call, pc⟩ → call.From db) :
    (w'.shared.broker.All fun q m => m.From db q) ∧
      ∀ i call pc, w'.shared.effects.calls i = some ⟨call, pc⟩ → call.From db := by
  refine ⟨?_, ?_⟩
  · refine all_of_step h hmessages hpublish ?_ ?_
    · -- an expired retry comes back under its key
      rintro c m ⟨e, he, hcontent, hkey⟩ q hq
      exact ⟨e, he, hcontent, fun _ => hkey nofun⟩
    · intro i c r tag m error _ hcall q hq
      exact (all_of_opened hw hmessages hcall rfl).replacement (c.stores_subset _ hq)
  · intro i call pc hcall
    rcases effectCall_of_step h hcall with ⟨pc₀, hold⟩ |
      ⟨j, r, tag, m, event, hj, hcontent, hhandle⟩
    · exact hcalls i call pc₀ hold
    · exact (all_of_opened hw hmessages hj rfl).call hcontent hhandle

end Consumers

/-- Everything between the outbox and the handlers is of a row of the outbox. -/
structure Platform.Sourced (p : Platform) : Prop where
  inFlight : ∀ record ∈ p.inFlight, p.world.db.Records record
  messages : p.consumers.shared.broker.All fun q m => m.From p.world.db q
  calls : ∀ i call pc, p.consumers.shared.effects.calls i = some ⟨call, pc⟩ →
    call.From p.world.db

section Sourced

variable {u : UuidSyntax} {p : Platform}

/-- **Everything between the outbox and the handlers is of a row of the outbox.** -/
theorem sourced_of_reachable (hp : (platform u).Reachable p) : p.Sourced := by
  refine hp.invariant (I := Platform.Sourced) ?_ ?_
  · rintro p ⟨-, ⟨⟨hbroker, -, ⟨-, hcalls⟩, -⟩, -⟩, hflight⟩
    refine ⟨?_, ?_, ?_⟩
    · intro record hrecord
      rw [hflight] at hrecord
      cases hrecord
    · rw [hbroker]
      exact .empty
    · intro i call pc hcall
      rw [hcalls i] at hcall
      cases hcall
  intro p a p' hp ih hstep
  rcases Platform.step_cases hstep with ⟨b, w, hw, rfl⟩ | ⟨n, record, c, hrecord, hc, rfl⟩ |
    ⟨b, c, hb, hc, rfl⟩
  · -- the rows evolve
    have hreach := (world_of_reachable hp).of_restrict
    have hstep := (Transition.Sys.restrict_step_iff.mp hw).2
    have hevolves := (change_of_step hstep).evolves
    refine ⟨?_, ih.messages.mono fun q m hm => hm.mono hevolves,
      fun i call pc hcall => (ih.calls i call pc hcall).mono hevolves⟩
    intro record hrecord
    rcases List.mem_append.mp hrecord with hold | hsent
    · exact (ih.inFlight record hold).mono hevolves
    · exact records_of_sent (hreach.step hstep) hsent
  · -- an event arrives
    have hsource := ih.inFlight record (List.mem_of_getElem? hrecord)
    obtain ⟨hmessages, hcalls⟩ := from_of_step (consumers_of_reachable hp) hc (by
      intro content key retryCount heq q hq
      cases heq
      exact hsource.message q rfl rfl) ih.messages ih.calls
    exact ⟨fun r hr => ih.inFlight r (List.mem_of_mem_eraseIdx hr), hmessages, hcalls⟩
  · obtain ⟨hmessages, hcalls⟩ := from_of_step (consumers_of_reachable hp) hc
      (fun content key retryCount heq => absurd heq (hb content key retryCount))
      ih.messages ih.calls
    exact ⟨ih.inFlight, hmessages, hcalls⟩

/-- **The notification queue gets `OrderCreated` events only**: no other key leads there. -/
theorem orderCreated_of_notification (hp : (platform u).Reachable p) {q : Queue} {m : Message}
    (hq : q = .main .notification ∨ q = .retry .notification)
    (hm : m ∈ p.consumers.shared.broker.queues q) :
    ∃ e ∈ p.world.db.outboxEvents, e.type = .orderCreated ∧
      m.content = some (domainEvent e.leased) := by
  obtain ⟨e, he, hcontent, hkey⟩ := (sourced_of_reachable hp).messages.queues q m hm
  have haccepts := (routed_of_reachable (consumers_of_reachable hp)).queues q m hm
  have hbound : ConsumerName.notification.bound (routingKeyFor e.type) = true := by
    rcases hq with rfl | rfl
    · rw [← hkey nofun]
      exact haccepts
    · rw [← hkey nofun]
      exact haccepts
  refine ⟨e, he, ?_, hcontent⟩
  cases htype : e.type with
  | orderCreated => rfl
  | paymentCompleted =>
    rw [htype] at hbound
    exact absurd hbound (by decide)

end Sourced

/-! ### The effects -/

/-- The texts PostgreSQL renders are read back. -/
def UuidSyntax.ReadsRendered (u : UuidSyntax) : Prop :=
  ∀ id : Uuid, u.parse id.text.toString = some id

/-- The delivery is for the order of an `OrderCreated` row, and its owner. -/
structure NotificationDelivery.Of (db : Db) (d : NotificationDelivery) (e : OutboxEvent) :
    Prop where
  eventId : d.eventId = e.id
  type : e.type = .orderCreated
  payload : d.payload = e.payload
  owner : ∃ o ∈ db.orders, e.aggregateId = o.id.text.toString ∧ d.userId = o.userId

/-- The audit row is for the event of an outbox row. -/
structure AuditEntry.Of (a : AuditEntry) (e : OutboxEvent) : Prop where
  event : a.event = some e.id
  action : a.row.action = "EVENT_" ++ toUpperCase e.type.name
  aggregateType : a.row.aggregateType = e.aggregateType
  aggregateId : a.row.aggregateId = e.aggregateId
  correlationId : a.row.correlationId = e.correlationId
  metadata : a.row.metadata = e.payload

section Effects

variable {u : UuidSyntax} (hu : u.ReadsRendered) {p : Platform} (hp : (platform u).Reachable p)
include hu hp

omit hp in
/-- A call for the event of a row has the row's identifier. -/
theorem id_of_hasId {r : EffectCall} {eventId : Uuid} {e : OutboxEvent}
    (hevent : r.event = domainEvent e.leased) (hid : r.HasId u eventId) : eventId = e.id := by
  have hparse : u.parse e.id.text.toString = some eventId := by
    rw [EffectCall.HasId, hevent, domainEvent_id] at hid
    exact hid
  rw [hu, Option.some.injEq] at hparse
  exact hparse.symm

/-- **Every delivery is for an `OrderCreated` row.** -/
theorem delivery_of_reachable {d : NotificationDelivery}
    (hd : d ∈ p.consumers.shared.effects.shared.db.notificationDeliveries) :
    ∃ e ∈ p.world.db.outboxEvents, d.Of p.world.db e := by
  have hw := (world_of_reachable hp).of_restrict
  have heffects := effects_reachable (consumers_of_reachable hp)
  obtain ⟨i, r, pc, d₀, hcall, hid, ⟨hconsumer, id, hdata⟩, hd₀⟩ :=
    (written_of_reachable heffects).deliveries d hd
  obtain ⟨e, he, hevent, htype⟩ := (sourced_of_reachable hp).calls i r pc hcall
  have htype := htype hconsumer
  obtain ⟨-, huser, hpayload⟩ := payload_of_deliveryData hdata
  rw [hevent] at huser hpayload
  -- the order of the event
  obtain ⟨o, ho, hfor⟩ := exists_of_forall₂_right (complete_of_reachable hw).orderEvents
    (List.mem_filter.mpr ⟨he, decide_eq_true htype⟩)
  have howner : payloadUserId (domainEvent e.leased) = some (.str o.userId.text.toString) := by
    have htext := hfor.userId
    rw [payloadUserId, domainEvent_payload, Option.bind_some]
    unfold Json.text? Json.string? at htext
    split at htext
    · next s hs =>
      cases htext
      exact hs
    · cases htext
  refine ⟨e, he, id_of_hasId hu hevent hid, htype, ?_, o, ho, hfor.aggregateId, ?_⟩
  · rw [domainEvent_payload, Option.some.injEq] at hpayload
    rw [hd₀]
    exact hpayload.symm
  · have hparse : u.parse o.userId.text.toString = some d₀.userId := by
      rw [howner] at huser
      exact huser
    rw [hu, Option.some.injEq] at hparse
    rw [hd₀]
    exact hparse.symm

/-- **Every audit row of the consumer is what the event of an outbox row says.** -/
theorem auditData_of_reachable {a : AuditEntry} {eventId : Uuid}
    (ha : a ∈ p.consumers.shared.effects.shared.db.auditLogs) (hevent : a.event = some eventId) :
    ∃ e ∈ p.world.db.outboxEvents, e.id = eventId ∧
      ∃ id now, auditData u (domainEvent e.leased) id now = some a.row := by
  have heffects := effects_reachable (consumers_of_reachable hp)
  obtain ⟨i, r, pc, hcall, hid, -, -, id, now, hdata⟩ :=
    (written_of_reachable heffects).audits a ha eventId hevent
  obtain ⟨e, he, hcallEvent, -⟩ := (sourced_of_reachable hp).calls i r pc hcall
  rw [hcallEvent] at hdata
  exact ⟨e, he, (id_of_hasId hu hcallEvent hid).symm, id, now, hdata⟩

/-- **Every audit row of the consumer is for an outbox row.** -/
theorem audit_of_reachable {a : AuditEntry} {eventId : Uuid}
    (ha : a ∈ p.consumers.shared.effects.shared.db.auditLogs) (hevent : a.event = some eventId) :
    ∃ e ∈ p.world.db.outboxEvents, a.Of e := by
  obtain ⟨e, he, hid, id, now, hdata⟩ := auditData_of_reachable hu hp ha hevent
  have hempty := (correlationId_ne_empty (world_of_reachable hp)).2 e he
  obtain ⟨⟨type, htype, haction⟩, haggregateType, haggregateId, hcorrelation, hmetadata⟩ :=
    auditData_eq_some hdata
  rw [domainEvent_type, Json.string?, Option.some.injEq] at htype
  rw [domainEvent_aggregateType, Json.string?, Option.some.injEq] at haggregateType
  rw [domainEvent_aggregateId, Json.string?, Option.some.injEq] at haggregateId
  rw [domainEvent_payload, Option.some.injEq] at hmetadata
  rw [domainEvent_correlationId _ hempty] at hcorrelation
  refine ⟨e, he, ?_, ?_, haggregateType.symm, haggregateId.symm, ?_, hmetadata.symm⟩
  · rw [hevent, hid]
  · rw [haction, ← htype]
    rfl
  · cases hc : e.correlationId with
    | none =>
      have hnone : e.leased.correlationId = none := hc
      rw [hnone, Option.map_none, optionalVarchar, Option.some.injEq] at hcorrelation
      exact hcorrelation.symm
    | some s =>
      have hsome : e.leased.correlationId = some s := hc
      rw [hsome, Option.map_some, optionalVarchar, Option.map_eq_some_iff] at hcorrelation
      · obtain ⟨s', hs', heq⟩ := hcorrelation
        have htext : Json.string? (some (.str s)) = some s' := (Option.filter_eq_some_iff.mp hs').1
        cases htext
        exact heq.symm
      · nofun

/-- **Effects have a provenance.**  In every reachable state of the two sides, every
delivery is for exactly one `OrderCreated` row of the outbox, with its payload and the
owner of its order; every audit row of the consumer is for exactly one row of the
outbox, with its data; every message is the event of a row, and no consumer finds it
malformed; and those of the notification queue are `OrderCreated` events. -/
theorem effects_have_provenance :
    (∀ d ∈ p.consumers.shared.effects.shared.db.notificationDeliveries,
      ∃ e ∈ p.world.db.outboxEvents, d.Of p.world.db e ∧
        ∀ e' ∈ p.world.db.outboxEvents, e'.id = d.eventId → e' = e) ∧
    (∀ a ∈ p.consumers.shared.effects.shared.db.auditLogs, ∀ eventId, a.event = some eventId →
      ∃ e ∈ p.world.db.outboxEvents, a.Of e ∧
        ∀ e' ∈ p.world.db.outboxEvents, e'.id = eventId → e' = e) ∧
    (∀ e ∈ p.world.db.outboxEvents, ∀ m thrown, m.content = some (domainEvent e.leased) →
      readEvent m thrown = .ok (domainEvent e.leased)) ∧
    (∀ q, ∀ m ∈ p.consumers.shared.broker.queues q,
      ∃ e ∈ p.world.db.outboxEvents, m.content = some (domainEvent e.leased)) ∧
    ∀ m, m ∈ p.consumers.shared.broker.queues (.main .notification) ∨
        m ∈ p.consumers.shared.broker.queues (.retry .notification) →
      ∃ e ∈ p.world.db.outboxEvents, e.type = .orderCreated ∧
        m.content = some (domainEvent e.leased) := by
  have hw := (world_of_reachable hp).of_restrict
  have hk := (keys_of_reachable hw).outboxEvents
  refine ⟨?_, ?_, ?_, ?_, ?_⟩
  · intro d hd
    obtain ⟨e, he, hof⟩ := delivery_of_reachable hu hp hd
    exact ⟨e, he, hof, fun e' he' hid => hk.eq_of_key he' he (hid.trans hof.eventId)⟩
  · intro a ha eventId hevent
    obtain ⟨e, he, hof⟩ := audit_of_reachable hu hp ha hevent
    refine ⟨e, he, hof, fun e' he' hid => hk.eq_of_key he' he ?_⟩
    have hsame := hof.event
    rw [hevent, Option.some.injEq] at hsame
    rw [hid, hsame]
  · intro e he m thrown hm
    exact readEvent_domainEvent thrown (payload_truthy hw he) hm
  · intro q m hm
    obtain ⟨e, he, hcontent, -⟩ := (sourced_of_reachable hp).messages.queues q m hm
    exact ⟨e, he, hcontent⟩
  · rintro m (hm | hm)
    · exact orderCreated_of_notification hp (Or.inl rfl) hm
    · exact orderCreated_of_notification hp (Or.inr rfl) hm

end Effects

/-! ### One order -/

/-- A text is read as a spelling, wherever its hyphens stand. -/
def UuidSyntax.spellings : UuidSyntax where
  parse s := (UuidText.read s).map UuidText.value

theorem UuidSyntax.spellings_parse (s : String) :
    UuidSyntax.spellings.parse s = (UuidText.read s).map UuidText.value := rfl

theorem UuidSyntax.spellings_readsRendered : UuidSyntax.spellings.ReadsRendered := by
  intro id
  rw [spellings_parse, UuidText.read_toString, Option.map_some, Uuid.value_text]

/-- Nothing has happened on either side. -/
def Platform.sample : Platform := ⟨World.sample, ConsumersWorld.sample, []⟩

/-- An order is placed, its event published, and handled by both consumers. -/
def orderHandled : List PlatformAction :=
  [.request 0 .sampleOrder none (Uuid.repeated 9), .api (.advance 0 (.sample 3)),
    .api (.advance 0 (.sample 3)), .api (.advance 0 (.sample 3)), .api (.poll 0 .interval),
    .api (.poll 0 (.lease [] .none)), .arrive 0,
    .consume (.request 0 .notification), .consume (.advance 0 (.sample 0)),
    .consume (.advance 0 (.sample 0)), .consume (.request 1 .audit),
    .consume (.advance 1 (.sample 0)), .consume (.advance 1 (.sample 1))] ++
  List.replicate 4 (.consume (.environment (.effects (.advance 0 (.sample 7))))) ++
  List.replicate 4 (.consume (.environment (.effects (.advance 1 (.sample 8)))))

theorem Platform.sample_init : (platform .spellings).init Platform.sample :=
  ⟨World.sample_initial, ConsumersWorld.sample_init, rfl⟩

theorem Platform.sample_reachable : (platform .spellings).Reachable Platform.sample :=
  .init Platform.sample_init

/-- The delivery and the audit row of the order are of its event. -/
theorem sample_provenance : ∃ p, (platform .spellings).exec Platform.sample orderHandled = some p ∧
    p.consumers.shared.effects.shared.db.notificationDeliveries.length = 1 ∧
    p.consumers.shared.effects.shared.db.auditLogs.length = 1 ∧
    (∀ d ∈ p.consumers.shared.effects.shared.db.notificationDeliveries,
      ∃ e ∈ p.world.db.outboxEvents, d.Of p.world.db e) ∧
    ∀ a ∈ p.consumers.shared.effects.shared.db.auditLogs, ∀ eventId, a.event = some eventId →
      ∃ e ∈ p.world.db.outboxEvents, a.Of e := by
  have hrun : ((platform .spellings).exec Platform.sample orderHandled).map (fun p =>
      (p.consumers.shared.effects.shared.db.notificationDeliveries.length,
        p.consumers.shared.effects.shared.db.auditLogs.length)) = some (1, 1) := by decide +kernel
  obtain ⟨p, hp, heq⟩ := Option.map_eq_some_iff.mp hrun
  rw [Prod.mk.injEq] at heq
  obtain ⟨hdeliveries, haudits⟩ := heq
  obtain ⟨hdelivery, haudit, -⟩ := effects_have_provenance UuidSyntax.spellings_readsRendered
    (Platform.sample_reachable.exec hp)
  refine ⟨p, hp, hdeliveries, haudits, ?_, ?_⟩
  · intro d hd
    obtain ⟨e, he, hof, -⟩ := hdelivery d hd
    exact ⟨e, he, hof⟩
  · intro a ha eventId hevent
    obtain ⟨e, he, hof, -⟩ := haudit a ha eventId hevent
    exact ⟨e, he, hof⟩

end ScaleForge
