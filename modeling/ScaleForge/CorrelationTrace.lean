import ScaleForge.Confinement
import ScaleForge.ProcessableEvents

/-!
# Correlation ids

The middleware settles the correlation id of a request, and the request writes it to its
audit row and its outbox row.  From the outbox row it becomes a property of the event, and
from the event a column of the consumer's audit row.  No step on the way replaces it: not
the retries, not the dead letters, and not a request that happens to run at the same time.
So whatever a row or a message says, one request can be found that has caused it.

## Main definitions

* `Correlated` — a request of the run has this correlation id, and this user.
* `Db.Joined` — the audit rows and the events of the transactions, in pairs.

## Main results

* `correlated_of_exec` — what the requests of a run write is correlated.
* `joined_of_reachable` — **an order or a payment has one correlation id in both tables.**
* `correlation_traced` — from the request to the consumer's row.
-/

namespace ScaleForge

open Table Transition RabbitConsumersService OutboxPublisherService

/-- A request among these actions has the correlation id, and is this actor's. -/
def Correlated (as : List PlatformAction) (actor : Option Uuid) (correlationId : Option String) :
    Prop :=
  ∃ i r supplied randomUUID, PlatformAction.request i r supplied randomUUID ∈ as ∧
    actor = some r.user.id ∧
    correlationId = some (CorrelationIdMiddleware.use supplied randomUUID)

theorem Correlated.mono {as bs : List PlatformAction} {actor : Option Uuid}
    {correlationId : Option String} (h : Correlated as actor correlationId) (hsub : as ⊆ bs) :
    Correlated bs actor correlationId := by
  obtain ⟨i, r, supplied, randomUUID, hmem, hrest⟩ := h
  exact ⟨i, r, supplied, randomUUID, hsub hmem, hrest⟩

/-! ### What a request writes -/

/-- **The audit rows after a change**: those there were, and one that has the user and the
correlation id of its request. -/
theorem Change.audit_cases {w : World} {db' : Db} (h : Change w db') {a : AuditLog}
    (ha : a ∈ db'.auditLogs) : a ∈ w.db.auditLogs ∨
      ∃ i call, w.calls i = some call ∧ a.actorId = some call.request.user.id ∧
        a.correlationId = call.correlationId := by
  cases h with
  | catalog => exact Or.inl ha
  | created hcall h =>
    obtain ⟨-, -, -, -, rfl⟩ := OrdersRepository.createWrite_commits h
    rcases List.mem_append.mp ha with hold | hnew
    · exact Or.inl hold
    · rw [List.mem_singleton.mp hnew]
      exact Or.inr ⟨_, _, hcall, rfl, rfl⟩
  | updated hcall h =>
    obtain ⟨-, -, -, -, rfl⟩ := OrdersRepository.updateStatus_commits h
    rcases List.mem_append.mp ha with hold | hnew
    · exact Or.inl hold
    · rw [List.mem_singleton.mp hnew]
      exact Or.inr ⟨_, _, hcall, rfl, rfl⟩
  | paid hcall h =>
    obtain ⟨order, -, -, -, -, -, -, -, -, rfl⟩ := PaymentsRepository.complete_commits h
    rcases List.mem_append.mp ha with hold | hnew
    · exact Or.inl hold
    · rw [List.mem_singleton.mp hnew]
      exact Or.inr ⟨_, _, hcall, rfl, rfl⟩
  | polled h => exact Or.inl ha

/-- What the requests of a run hold and have written is correlated. -/
structure World.Correlates (as : List PlatformAction) (w : World) : Prop where
  calls : ∀ i call, w.calls i = some call →
    Correlated as (some call.request.user.id) call.correlationId
  audits : ∀ a ∈ w.db.auditLogs, Correlated as a.actorId a.correlationId
  events : ∀ e ∈ w.db.outboxEvents, ∃ actor, Correlated as actor e.correlationId

theorem World.Correlates.mono {as bs : List PlatformAction} {w : World} (h : w.Correlates as)
    (hsub : as ⊆ bs) : w.Correlates bs where
  calls i call hcall := (h.calls i call hcall).mono hsub
  audits a ha := (h.audits a ha).mono hsub
  events e he := by
    obtain ⟨actor, hcorrelated⟩ := h.events e he
    exact ⟨actor, hcorrelated.mono hsub⟩

/-- A step of the world keeps what is correlated, when it is of no request, or of one among
the actions. -/
theorem World.Correlates.step {as : List PlatformAction} {w w' : World} {a : Action}
    (h : w.Correlates as) (hstep : w.step a = some w')
    (hrequest : ∀ i r correlationId, a = .request i r correlationId →
      Correlated as (some r.user.id) correlationId) : w'.Correlates as := by
  have hchange := change_of_step hstep
  refine ⟨fun i call hcall => ?_, fun entry hentry => ?_, fun e he => ?_⟩
  · rcases World.calls_of_step hstep i with hsame | ⟨r, correlationId, rfl⟩ | ⟨c, rfl⟩
    · exact h.calls i call (hsame ▸ hcall)
    · obtain ⟨-, rfl⟩ := World.step_request hstep
      rw [World.accept_calls_self] at hcall
      cases hcall
      exact hrequest i r correlationId rfl
    · obtain ⟨call₀, db', pc', hcall₀, -, rfl⟩ := World.step_advance hstep
      rw [World.move_calls_self] at hcall
      cases hcall
      exact h.calls i call₀ hcall₀
  · rcases hchange.audit_cases hentry with hold | ⟨i, call, hcall, hactor, hid⟩
    · exact h.audits entry hold
    · rw [hactor, hid]
      exact h.calls i call hcall
  · rcases hchange.outbox_cases he with ⟨e₀, he₀, hsame⟩ | ⟨-, i, call, hcall, hid⟩
    · have hid : e.correlationId = e₀.correlationId :=
        congrArg LeasedOutboxEvent.correlationId hsame
      rw [hid]
      exact h.events e₀ he₀
    · rw [hid]
      exact ⟨_, h.calls i call hcall⟩

section Platform

variable {u : UuidSyntax}

/-- The world after a step: as it was, or after a step of its own, which is that of a request
that has passed the middleware, or of no request. -/
theorem Platform.request_of_step {p p' : Platform} {a : PlatformAction}
    (h : p.step u a = some p') : p'.world = p.world ∨
      ∃ b, p.world.step b = some p'.world ∧ ∀ i r correlationId,
        b = .request i r correlationId → Correlated [a] (some r.user.id) correlationId := by
  unfold step at h
  split at h
  · next i r supplied randomUUID =>
    obtain ⟨w, hw, rfl⟩ := Option.map_eq_some_iff.mp h
    refine Or.inr ⟨_, hw, fun j r' correlationId heq => ?_⟩
    cases heq
    exact ⟨i, r, supplied, randomUUID, List.mem_singleton.mpr rfl, rfl, rfl⟩
  · cases h
  · next b hb =>
    obtain ⟨w, hw, rfl⟩ := Option.map_eq_some_iff.mp h
    exact Or.inr ⟨b, hw, fun i r correlationId heq => absurd heq (hb i r correlationId)⟩
  · split at h
    · cases h
    · obtain ⟨c, -, rfl⟩ := Option.map_eq_some_iff.mp h
      exact Or.inl rfl
  · cases h
  · obtain ⟨c, -, rfl⟩ := Option.map_eq_some_iff.mp h
    exact Or.inl rfl

/-- **What the requests of a run write is correlated.** -/
theorem correlated_of_exec {p₀ p : Platform} {as : List PlatformAction}
    (h0 : (platform u).init p₀) (h : (platform u).exec p₀ as = some p) :
    p.world.Correlates as := by
  refine Sys.run_invariant (I := fun as p => World.Correlates as p.world) ?_ ?_ h
  · obtain ⟨⟨-, -, -, haudits, hevents, hcalls, -⟩, -, -⟩ := h0
    refine ⟨fun i call hcall => ?_, fun a ha => ?_, fun e he => ?_⟩
    · rw [hcalls i] at hcall
      cases hcall
    · rw [haudits] at ha
      cases ha
    · rw [hevents] at he
      cases he
  intro bs p a p' _ ih hstep
  have hmono := ih.mono (List.subset_append_left bs [a])
  rcases Platform.request_of_step hstep with hsame | ⟨b, hb, hrequest⟩
  · rw [hsame]
    exact hmono
  · exact hmono.step hb fun i r correlationId heq =>
      (hrequest i r correlationId heq).mono (List.subset_append_right bs [a])

end Platform

/-! ### The two rows of a transaction -/

/-- The audit row and the event have the same correlation id. -/
def SameCorrelation (a : AuditLog) (e : OutboxEvent) : Prop := e.correlationId = a.correlationId

/-- **The rows of the transactions, in pairs**: what was written together has the same
correlation id. -/
structure Db.Joined (db : Db) : Prop where
  orders : List.Forall₂ SameCorrelation (auditsOf "ORDER_CREATED" db.auditLogs)
    (eventsOf .orderCreated db.outboxEvents)
  payments : List.Forall₂ SameCorrelation (auditsOf "PAYMENT_COMPLETED" db.auditLogs)
    (eventsOf .paymentCompleted db.outboxEvents)

/-- Rows that are written together are let through together, and paired. -/
theorem forall₂_written {α β : Type} {R : α → β → Prop} {q : α → Bool} {q' : β → Bool}
    {xs : List α} {ys : List β} (h : List.Forall₂ R (xs.filter q) (ys.filter q')) {x : α} {y : β}
    (hq : q x = q' y) (hxy : R x y) :
    List.Forall₂ R ((xs ++ [x]).filter q) ((ys ++ [y]).filter q') := by
  rw [List.filter_append]
  cases hx : q x with
  | true =>
    rw [List.filter_cons_of_pos hx, List.filter_nil, List.filter_append,
      List.filter_cons_of_pos (hq ▸ hx), List.filter_nil]
    exact List.rel_append h (.cons hxy .nil)
  | false =>
    rw [List.filter_cons_of_neg (by rw [hx]; exact Bool.false_ne_true), List.filter_nil,
      List.append_nil]
    exact forall₂_insert_of_not h (hq ▸ hx)

/-- **No change parts what was written together.** -/
theorem Change.joined {w : World} {db' : Db} (h : Change w db') (hj : w.db.Joined) :
    db'.Joined := by
  cases h with
  | catalog => exact ⟨hj.1, hj.2⟩
  | created hcall h =>
    obtain ⟨-, -, -, -, rfl⟩ := OrdersRepository.createWrite_commits h
    exact ⟨forall₂_written hj.orders rfl rfl, forall₂_written hj.payments rfl rfl⟩
  | updated hcall h =>
    obtain ⟨-, -, -, -, rfl⟩ := OrdersRepository.updateStatus_commits h
    -- the audit row of a status change is in neither pairing
    refine ⟨?_, ?_⟩
    · exact (forall₂_insert_of_not hj.orders.flip rfl).flip
    · exact (forall₂_insert_of_not hj.payments.flip rfl).flip
  | paid hcall h =>
    obtain ⟨order, -, -, -, -, -, -, -, -, rfl⟩ := PaymentsRepository.complete_commits h
    exact ⟨forall₂_written hj.orders rfl rfl, forall₂_written hj.payments rfl rfl⟩
  | polled h =>
    obtain ⟨q, f, rfl, hf⟩ := h.eq_update
    have hkeep : ∀ type, ∀ audits : List AuditLog,
        List.Forall₂ SameCorrelation audits (eventsOf type w.db.outboxEvents) →
        List.Forall₂ SameCorrelation audits (eventsOf type (update q f w.db.outboxEvents)) := by
      intro type audits hpairs
      refine forall₂_update_right hpairs (fun e => ?_) fun a e hsame => ?_
      · have htype : (f e).type = e.type := congrArg LeasedOutboxEvent.type (hf e)
        rw [htype]
      · have hid : (f e).correlationId = e.correlationId :=
          congrArg LeasedOutboxEvent.correlationId (hf e)
        exact hid.trans hsame
    exact ⟨hkeep _ _ hj.orders, hkeep _ _ hj.payments⟩

/-- **An order or a payment has one correlation id in both tables.** -/
theorem joined_of_reachable {w : World} (hw : system.Reachable w) : w.db.Joined := by
  refine hw.invariant (I := fun w => w.db.Joined) ?_ ?_
  · rintro w ⟨-, -, -, haudits, hevents, -⟩
    constructor
    · rw [haudits, hevents]
      exact .nil
    · rw [haudits, hevents]
      exact .nil
  · exact fun _ _ _ _ hj h => (change_of_step h).joined hj

/-! ### The trace -/

/-- **A correlation id leads back to one request.**  In every run, whatever else runs at the
same time: an audit row of the request path has the user and the correlation id of a request
of the run; the two rows of an order's or a payment's transaction have the same one; a
message in any queue, retried or given up, says what the row of its event says; and so does
the row the audit consumer writes for it. -/
theorem correlation_traced {u : UuidSyntax} (hu : u.ReadsRendered) {p₀ p : Platform}
    {as : List PlatformAction} (h0 : (platform u).init p₀)
    (h : (platform u).exec p₀ as = some p) :
    (∀ a ∈ p.world.db.auditLogs, Correlated as a.actorId a.correlationId) ∧
    (∀ e ∈ p.world.db.outboxEvents, ∃ actor, Correlated as actor e.correlationId) ∧
    p.world.db.Joined ∧
    (∀ q, ∀ m ∈ p.consumers.shared.broker.queues q, ∃ e ∈ p.world.db.outboxEvents,
      ∃ event, m.content = some event ∧ event.get "id" = some (.str e.id.text.toString) ∧
        event.get "correlationId" = e.correlationId.map .str) ∧
    ∀ entry ∈ p.consumers.shared.effects.shared.db.auditLogs, ∀ eventId,
      entry.event = some eventId → ∃ e ∈ p.world.db.outboxEvents, e.id = eventId ∧
        entry.row.correlationId = e.correlationId := by
  have hp : (platform u).Reachable p := Sys.Reachable.exec (.init h0) h
  have hcorrelates := correlated_of_exec h0 h
  refine ⟨hcorrelates.audits, hcorrelates.events,
    joined_of_reachable (world_of_reachable hp).of_restrict, fun q m hm => ?_,
    fun entry hentry eventId hevent => ?_⟩
  · obtain ⟨e, he, hcontent, -⟩ := (sourced_of_reachable hp).messages.queues q m hm
    have hempty := (correlationId_ne_empty (world_of_reachable hp)).2 e he
    exact ⟨e, he, _, hcontent, domainEvent_id _, domainEvent_correlationId _ hempty⟩
  · obtain ⟨e, he, hof⟩ := audit_of_reachable hu hp hentry hevent
    exact ⟨e, he, Option.some.inj (hof.event.symm.trans hevent), hof.correlationId⟩

/-- The rows of an order, and the row of the consumer, under a random correlation id. -/
theorem sample_correlation_traced : ∃ p,
    (platform .spellings).exec Platform.sample orderHandled = some p ∧
    p.consumers.shared.effects.shared.db.auditLogs.length = 1 ∧
    (∀ a ∈ p.world.db.auditLogs, Correlated orderHandled a.actorId a.correlationId) ∧
    p.world.db.Joined ∧
    ∀ entry ∈ p.consumers.shared.effects.shared.db.auditLogs, ∀ eventId,
      entry.event = some eventId → ∃ e ∈ p.world.db.outboxEvents, e.id = eventId ∧
        entry.row.correlationId = e.correlationId := by
  have hrun : ((platform .spellings).exec Platform.sample orderHandled).map
      (fun p => p.consumers.shared.effects.shared.db.auditLogs.length) = some 1 := by
    decide +kernel
  obtain ⟨p, hp, hlength⟩ := Option.map_eq_some_iff.mp hrun
  obtain ⟨haudits, -, hjoined, -, hentries⟩ :=
    correlation_traced UuidSyntax.spellings_readsRendered Platform.sample_init hp
  exact ⟨p, hp, hlength, haudits, hjoined, hentries⟩

end ScaleForge
