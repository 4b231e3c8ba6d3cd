import ScaleForge.ConsumersProgress
import ScaleForge.Provenance

/-!
# No event is poison

A message that its consumer can never process is tried three times, and then is a dead
letter: whatever the consumers do, its effect is never there.  The events of the outbox
are never such messages.  Their identifiers are rendered by PostgreSQL, so it reads them
back; their texts are short, of a correlation id because the middleware replaces what is
longer than its columns; and the payloads name the owner of an order.

So a handler throws for two reasons only, and neither is in the event: a statement fails
on its own account, or another call has committed for the same event in the meantime.

## Main definitions

* `OutboxEvent.Fits` — the texts of a row fit the columns its event is written to.

## Main results

* `Change.outbox_cases` — the rows of the outbox after a change.
* `fits_of_reachable` — every row of the outbox fits.
* `no_event_is_poison` — **every consumer can process the event of every row, and every
  message there is.**
-/

namespace ScaleForge

open Transaction Table RabbitConsumersService OutboxPublisherService

/-! ### Correlation ids -/

/-- **No request has a correlation id that is too long.** -/
theorem CorrelationIdMiddleware.length_use (supplied : Option String) (randomUUID : Uuid) :
    (use supplied randomUUID).length ≤ 100 := by
  have hrandom : randomUUID.text.toString.length ≤ 100 := by
    rw [UuidText.length_toString]
    omega
  unfold use
  split
  · split
    · next h => exact h.2
    · exact hrandom
  · exact hrandom

/-- A request that arrives has no correlation id that is too long. -/
def shortlyCorrelated (_ : World) : Action → Bool
  | .request _ _ correlationId => correlationId.all fun s => decide (s.length ≤ 100)
  | _ => true

section Platform

variable {u : UuidSyntax} {p p' : Platform} {a : PlatformAction}

/-- The world after a step: as it was, or after a step of its own. -/
theorem Platform.world_of_step (h : p.step u a = some p') : p'.world = p.world ∨
    ∃ b, (system.restrict shortlyCorrelated).step p.world b = some p'.world := by
  unfold step at h
  split at h
  · next i r supplied randomUUID =>
    obtain ⟨w, hw, rfl⟩ := Option.map_eq_some_iff.mp h
    refine Or.inr ⟨.request i r (some (CorrelationIdMiddleware.use supplied randomUUID)),
      Transition.Sys.restrict_step_iff.mpr ⟨?_, hw⟩⟩
    simp [shortlyCorrelated, CorrelationIdMiddleware.length_use]
  · cases h
  · next b hb =>
    obtain ⟨w, hw, rfl⟩ := Option.map_eq_some_iff.mp h
    refine Or.inr ⟨b, Transition.Sys.restrict_step_iff.mpr ⟨?_, hw⟩⟩
    cases b with
    | request i r correlationId => exact absurd rfl (hb i r correlationId)
    | _ => rfl
  · split at h
    · cases h
    · obtain ⟨c, -, rfl⟩ := Option.map_eq_some_iff.mp h
      exact Or.inl rfl
  · cases h
  · obtain ⟨c, -, rfl⟩ := Option.map_eq_some_iff.mp h
    exact Or.inl rfl

theorem shortlyCorrelated_of_reachable (hp : (platform u).Reachable p) :
    (system.restrict shortlyCorrelated).Reachable p.world := by
  refine hp.invariant
    (I := fun p => (system.restrict shortlyCorrelated).Reachable p.world) ?_ ?_
  · rintro p ⟨hinit, -, -⟩
    exact .init hinit
  intro p a p' _ ih hstep
  rcases Platform.world_of_step hstep with hsame | ⟨b, hb⟩
  · rw [hsame]
    exact ih
  · exact ih.step hb

end Platform

/-! ### The rows of the outbox -/

/-- **The rows of the outbox after a change**: those there were, which keep their events,
and the event of an order or of a payment, with the correlation id of its request. -/
theorem Change.outbox_cases {w : World} {db' : Db} (h : Change w db') {e : OutboxEvent}
    (he : e ∈ db'.outboxEvents) :
    (∃ e₀ ∈ w.db.outboxEvents, e.leased = { e₀.leased with attempts := e.attempts }) ∨
    ((e.aggregateType = "Order" ∨ e.aggregateType = "Payment") ∧
      ∃ i call, w.calls i = some call ∧ e.correlationId = call.correlationId) := by
  cases h with
  | catalog => exact Or.inl ⟨e, he, rfl⟩
  | created hcall h =>
    obtain ⟨-, -, -, -, rfl⟩ := OrdersRepository.createWrite_commits h
    rcases List.mem_append.mp he with he | he
    · exact Or.inl ⟨e, he, rfl⟩
    · rw [List.mem_singleton.mp he]
      exact Or.inr ⟨Or.inl rfl, _, _, hcall, rfl⟩
  | updated hcall h =>
    obtain ⟨-, -, -, -, rfl⟩ := OrdersRepository.updateStatus_commits h
    exact Or.inl ⟨e, he, rfl⟩
  | paid hcall h =>
    obtain ⟨order, -, -, -, -, -, -, -, -, rfl⟩ := PaymentsRepository.complete_commits h
    rcases List.mem_append.mp he with he | he
    · exact Or.inl ⟨e, he, rfl⟩
    · rw [List.mem_singleton.mp he]
      exact Or.inr ⟨Or.inr rfl, _, _, hcall, rfl⟩
  | polled h =>
    obtain ⟨q, f, rfl, hf⟩ := h.eq_update
    obtain ⟨e₀, he₀, rfl⟩ := mem_update.mp he
    refine Or.inl ⟨e₀, he₀, ?_⟩
    split
    · exact hf e₀
    · rfl

/-- The texts of the row that are written to other columns are not too long for these. -/
structure OutboxEvent.Short (e : OutboxEvent) : Prop where
  aggregateType : e.aggregateType.length ≤ 80
  correlationId : ∀ s ∈ e.correlationId, s.length ≤ 100

theorem short_of_reachable {w : World} (hw : (system.restrict shortlyCorrelated).Reachable w) :
    (∀ i call, w.calls i = some call → ∀ s ∈ call.correlationId, s.length ≤ 100) ∧
      ∀ e ∈ w.db.outboxEvents, e.Short := by
  refine hw.invariant (I := fun w =>
    (∀ i call, w.calls i = some call → ∀ s ∈ call.correlationId, s.length ≤ 100) ∧
      ∀ e ∈ w.db.outboxEvents, e.Short) ?_ ?_
  · rintro w ⟨-, -, -, -, hevents, hcalls, -⟩
    refine ⟨?_, ?_⟩
    · intro i call hcall
      rw [hcalls i] at hcall
      cases hcall
    · intro e he
      rw [hevents] at he
      cases he
  rintro w a w' - ⟨hcalls, hrows⟩ hstep
  obtain ⟨hguard, hstep⟩ := Transition.Sys.restrict_step_iff.mp hstep
  refine ⟨?_, ?_⟩
  · intro i call hcall
    rcases World.calls_of_step hstep i with hsame | ⟨r, correlationId, rfl⟩ | ⟨c, rfl⟩
    · exact hcalls i call (hsame ▸ hcall)
    · obtain ⟨-, rfl⟩ := World.step_request hstep
      rw [World.accept_calls_self] at hcall
      cases hcall
      intro s hs
      have hall : correlationId.all (fun s => decide (s.length ≤ 100)) = true := hguard
      obtain rfl : correlationId = some s := hs
      exact of_decide_eq_true hall
    · obtain ⟨call', db', pc', hcall', -, rfl⟩ := World.step_advance hstep
      rw [World.move_calls_self] at hcall
      cases hcall
      exact hcalls i call' hcall'
  · intro e he
    rcases (change_of_step hstep).outbox_cases he with
      ⟨e₀, he₀, hsame⟩ | ⟨htype, i, call, hcall, hid⟩
    · have htype : e.aggregateType = e₀.aggregateType :=
        congrArg LeasedOutboxEvent.aggregateType hsame
      have hid : e.correlationId = e₀.correlationId :=
        congrArg LeasedOutboxEvent.correlationId hsame
      exact ⟨htype ▸ (hrows e₀ he₀).aggregateType, hid ▸ (hrows e₀ he₀).correlationId⟩
    · refine ⟨?_, hid ▸ hcalls i call hcall⟩
      rcases htype with htype | htype
      · rw [htype]
        decide
      · rw [htype]
        decide

/-- What a consumer writes from the event of the row fits its columns. -/
structure OutboxEvent.Fits (e : OutboxEvent) : Prop where
  payload : e.payload.truthy = true
  aggregateType : e.aggregateType.length ≤ 80
  aggregateId : e.aggregateId.length ≤ 100
  correlationId : ∀ s ∈ e.correlationId, s ≠ "" ∧ s.length ≤ 100
  owner : ∃ userId : Uuid, e.payload.text? "userId" = some userId.text.toString

/-- **Every row of the outbox fits.** -/
theorem fits_of_reachable {u : UuidSyntax} {p : Platform} (hp : (platform u).Reachable p)
    {e : OutboxEvent} (he : e ∈ p.world.db.outboxEvents) : e.Fits := by
  have hw := (world_of_reachable hp).of_restrict
  have hshort := (short_of_reachable (shortlyCorrelated_of_reachable hp)).2 e he
  have hempty := (correlationId_ne_empty (world_of_reachable hp)).2 e he
  have hcomplete := complete_of_reachable hw
  have hmem : ∀ type, e.type = type → e ∈ eventsOf type p.world.db.outboxEvents :=
    fun type htype => List.mem_filter.mpr ⟨he, decide_eq_true htype⟩
  have htext : (∃ id : Uuid, e.aggregateId = id.text.toString) ∧
      ∃ userId : Uuid, e.payload.text? "userId" = some userId.text.toString := by
    cases htype : e.type with
    | orderCreated =>
      obtain ⟨o, -, hfor⟩ := exists_of_forall₂_right hcomplete.orderEvents (hmem _ htype)
      exact ⟨⟨_, hfor.aggregateId⟩, _, hfor.userId⟩
    | paymentCompleted =>
      obtain ⟨pay, -, hfor⟩ := exists_of_forall₂_right hcomplete.paymentEvents (hmem _ htype)
      obtain ⟨o, -, -, huser⟩ := hfor.userId
      exact ⟨⟨_, hfor.aggregateId⟩, _, huser⟩
  obtain ⟨⟨id, hid⟩, howner⟩ := htext
  refine ⟨payload_truthy hw he, hshort.aggregateType, ?_, fun s hs => ?_, howner⟩
  · rw [hid, UuidText.length_toString]
    omega
  · refine ⟨fun hs' => hempty ?_, hshort.correlationId s hs⟩
    rw [← hs']
    exact hs

/-! ### What a consumer writes -/

theorem varchar_of_le {n : ℕ} {s : String} (h : s.length ≤ n) :
    varchar n (some (.str s)) = some s := by
  simp [varchar, Json.string?, h]

section Fits

variable {u : UuidSyntax} (hu : u.ReadsRendered) {e : OutboxEvent} (h : e.Fits)
include h

theorem payloadUserId_of_fits :
    ∃ userId : Uuid, payloadUserId (domainEvent e.leased) = some (.str userId.text.toString) := by
  obtain ⟨userId, htext⟩ := h.owner
  refine ⟨userId, ?_⟩
  rw [payloadUserId, domainEvent_payload, Option.bind_some]
  unfold Json.text? Json.string? at htext
  split at htext
  · next s hs =>
    cases htext
    exact hs
  · cases htext

theorem optionalVarchar_of_fits :
    optionalVarchar 100 ((domainEvent e.leased).get "correlationId") = some e.correlationId := by
  have hempty : e.leased.correlationId ≠ some "" := fun hs => (h.correlationId "" hs).1 rfl
  rw [domainEvent_correlationId _ hempty]
  show optionalVarchar 100 (e.correlationId.map .str) = _
  cases hid : e.correlationId with
  | none => rfl
  | some s =>
    show (varchar 100 (some (.str s))).map some = _
    rw [varchar_of_le (h.correlationId s hid).2]
    rfl

include hu

/-- **The handlers can insert their rows** for the event of a row that fits. -/
theorem fits_of_event {call : EffectCall} (hevent : call.event = domainEvent e.leased) :
    call.HasId u e.id ∧ call.Fits u := by
  obtain ⟨userId, huser⟩ := payloadUserId_of_fits h
  refine ⟨?_, ?_⟩
  · rw [EffectCall.HasId, hevent, domainEvent_id]
    exact hu e.id
  · cases call with
    | processEvent event =>
      obtain rfl : event = domainEvent e.leased := hevent
      intro id now
      have hactor : auditActor u (domainEvent e.leased) = some (some userId) := by
        unfold auditActor
        rw [huser]
        exact congrArg (Option.map some) (hu userId)
      have haction : varchar 100 (some (.str ("EVENT_" ++ toUpperCase e.leased.type.name))) =
          some ("EVENT_" ++ toUpperCase e.leased.type.name) := by
        refine varchar_of_le ?_
        cases e.leased.type <;> decide
      have haggregateType : varchar 80 (some (.str e.leased.aggregateType)) =
          some e.leased.aggregateType := varchar_of_le h.aggregateType
      have haggregateId : varchar 100 (some (.str e.leased.aggregateId)) =
          some e.leased.aggregateId := varchar_of_le h.aggregateId
      simp only [auditData, hactor, domainEvent_type, Json.string?, haction,
        domainEvent_aggregateType, haggregateType, domainEvent_aggregateId, haggregateId,
        optionalVarchar_of_fits h, domainEvent_payload, Option.bind_eq_bind, Option.bind_some]
      rfl
    | processOrderCreated event =>
      obtain rfl : event = domainEvent e.leased := hevent
      intro id eventId
      have hread : u.ofJson (some (.str userId.text.toString)) = some userId := hu userId
      simp only [deliveryData, huser, hread, domainEvent_payload, Option.bind_eq_bind,
        Option.bind_some]
      rfl

/-- **Every consumer can process the event of a row that fits.** -/
theorem processable_of_fits {m : Message} (hm : m.content = some (domainEvent e.leased))
    (c : ConsumerName) : Processable u c m := by
  have hread := readEvent_domainEvent .other h.payload hm
  refine ⟨_, hm, (readEvent_eq_ok hread).2, fun call hcall => ⟨e.id, ?_⟩⟩
  exact fits_of_event hu h (handle_eq_some hcall).2

end Fits

/-! ### What makes a handler throw -/

/-- **A handler that can insert its rows throws for two reasons only**: a statement fails
on its own account, or another call has committed for the same event. -/
theorem cause_of_thrown {u : UuidSyntax} {s s' : EffectState} {choice : EffectChoice}
    {call : EffectCall} {pc : EffectPc} {e : Uuid} (hid : call.HasId u e) (hfits : call.Fits u)
    (hok : pc.Ok u s.db call) (h : advanceEffect u s choice call pc = some (s', .thrown)) :
    choice.fails = true ∨ s.db.indexed (.marker call.consumer e) = true ∨
      s.db.indexed (.delivery e) = true := by
  have hsame : ∀ e', call.HasId u e' → e' = e := by
    intro e' hid'
    rw [EffectCall.HasId, hid, Option.some.injEq] at hid'
    exact hid'.symm
  have hinsert : ∀ {k pc'}, insertKey s call pc k pc' = some (s', .thrown) → pc' ≠ .thrown →
      s.db.indexed k = true := by
    intro k pc' hinsert hpc'
    unfold insertKey at hinsert
    split at hinsert
    · assumption
    · split at hinsert <;> cases hinsert
      exact absurd rfl hpc'
  refine or_iff_not_imp_left.mpr fun hfails => ?_
  have hid₀ : u.ofJson (call.event.get "id") = some e := hid
  unfold advanceEffect at h
  rw [if_neg hfails] at h
  cases pc with
  | start =>
    rw [hid₀] at h
    dsimp only at h
    split at h
    · cases call <;> cases h
    · cases h
  | effect e' =>
    obtain rfl := hsame e' hok
    cases call with
    | processEvent event =>
      obtain ⟨row, hrow⟩ := Option.isSome_iff_exists.mp (hfits choice.id s.clock)
      dsimp only at h
      rw [hrow] at h
      cases h
    | processOrderCreated event =>
      obtain ⟨row, hrow⟩ := Option.isSome_iff_exists.mp (hfits choice.id e')
      dsimp only at h
      rw [hrow] at h
      exact Or.inr (hinsert h EffectPc.noConfusion)
  | marker e' x =>
    obtain rfl := hsame e' hok.1
    exact Or.inl (hinsert h EffectPc.noConfusion)
  | _ => cases h

/-- **No event is poison.**  In every reachable state of the two sides, every consumer can
process the event of every row of the outbox, and every message in any of the queues, dead
letters included; and the handlers that run throw only where a statement fails on its own
account, or another call has committed for the same row. -/
theorem no_event_is_poison {u : UuidSyntax} (hu : u.ReadsRendered) {p : Platform}
    (hp : (platform u).Reachable p) :
    (∀ e ∈ p.world.db.outboxEvents, ∀ m, m.content = some (domainEvent e.leased) →
      ∀ c, Processable u c m) ∧
    (∀ q, ∀ m ∈ p.consumers.shared.broker.queues q, ∀ c, Processable u c m) ∧
    ∀ i call pc choice s', p.consumers.shared.effects.calls i = some ⟨call, pc⟩ →
      advanceEffect u p.consumers.shared.effects.shared choice call pc = some (s', .thrown) →
      choice.fails = true ∨ ∃ e ∈ p.world.db.outboxEvents,
        call.event = domainEvent e.leased ∧
        (p.consumers.shared.effects.shared.db.indexed (.marker call.consumer e.id) = true ∨
          p.consumers.shared.effects.shared.db.indexed (.delivery e.id) = true) := by
  have hsourced := sourced_of_reachable hp
  refine ⟨fun e he m hm => processable_of_fits hu (fits_of_reachable hp he) hm, ?_, ?_⟩
  · intro q m hm
    obtain ⟨e, he, hcontent, -⟩ := hsourced.messages.queues q m hm
    exact processable_of_fits hu (fits_of_reachable hp he) hcontent
  · intro i call pc choice s' hcall hthrown
    obtain ⟨e, he, hevent, -⟩ := hsourced.calls i call pc hcall
    obtain ⟨hid, hfits⟩ := fits_of_event hu (fits_of_reachable hp he) hevent
    have hok := effect_ok_of_reachable (effects_reachable (consumers_of_reachable hp)) hcall
    rcases cause_of_thrown hid hfits hok hthrown with hfails | hindexed
    · exact Or.inl hfails
    · exact Or.inr ⟨e, he, hevent, hindexed⟩

/-- The event of an order, published and handled. -/
theorem sample_no_event_is_poison : ∃ p,
    (platform .spellings).exec Platform.sample orderHandled = some p ∧
    p.world.db.outboxEvents.length = 1 ∧
    ∀ e ∈ p.world.db.outboxEvents, ∀ m, m.content = some (domainEvent e.leased) →
      ∀ c, Processable .spellings c m := by
  have hrun : ((platform .spellings).exec Platform.sample orderHandled).map
      (fun p => p.world.db.outboxEvents.length) = some 1 := by
    decide +kernel
  obtain ⟨p, hp, hlength⟩ := Option.map_eq_some_iff.mp hrun
  exact ⟨p, hp, hlength, (no_event_is_poison UuidSyntax.spellings_readsRendered
    (Platform.sample_reachable.exec hp)).1⟩

end ScaleForge
