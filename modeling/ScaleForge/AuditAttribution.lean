import ScaleForge.Provenance

/-!
# Who an audit row names

The transaction that creates an order or records a payment writes an audit row with the
user of the request as its actor, and an event; the audit consumer makes the user the
event's payload names the actor of its own row.  The payload of an order names the user
of the request.  That of a payment names the owner of the order, and a manager or an
administrator may pay for somebody else.

## Main definitions

* `Db.Adds` — a transaction writes an audit row and an event.
* `World.paysOwnOrder` — the step is of no payment, or of one by the owner of the order.

## Main results

* `auditActor_of_adds` — whom the two rows of a transaction name.
* `actors_agree_iff` — **the consumer's row names the actor of the transaction's row if
  and only if no payment of somebody else's order made it.**
* `payment_names_another_actor` — a manager's payment for a customer.
-/

namespace ScaleForge

open Transition

/-! ### The two rows of a transaction -/

/-- One audit row and one event are new. -/
structure Db.Adds (db db' : Db) (a : AuditLog) (e : OutboxEvent) : Prop where
  auditLogs : db'.auditLogs = db.auditLogs ++ [a]
  outboxEvents : db'.outboxEvents = db.outboxEvents ++ [e]

/-- The step is of no payment, or of one by the owner of the order. -/
def World.paysOwnOrder (w : World) : PlatformAction → Bool
  | .api (.advance i _) =>
    match w.calls i with
    | some ⟨.completePayment user orderId _ _, _, _⟩ =>
      (OrdersRepository.findById w.db orderId).all fun order => order.userId = user.id
    | _ => true
  | _ => true

/-- A step that writes an audit row is the step of a request. -/
theorem exists_advance_of_adds {w w' : World} {b : Action} (h : w.step b = some w')
    {a : AuditLog} {e : OutboxEvent} (hadds : w.db.Adds w'.db a e) : ∃ i c, b = .advance i c := by
  have hne : w'.db.auditLogs ≠ w.db.auditLogs := by
    rw [hadds.auditLogs]
    simp
  cases b with
  | advance i c => exact ⟨i, c, rfl⟩
  | poll j a =>
    obtain ⟨p, rows, confirmed, -, rfl⟩ := World.step_poll h
    exact absurd rfl hne
  | request i r correlationId =>
    obtain ⟨-, rfl⟩ := World.step_request h
    exact absurd rfl hne
  | _ =>
    cases h
    exact absurd rfl hne

/-- **The two rows of a transaction**: the audit row names the user of the request, the
event a user who is the same unless the step pays for somebody else. -/
theorem auditActor_of_adds {w w' : World} (hw : system.Reachable w) {b : Action}
    (h : w.step b = some w') {a : AuditLog} {e : OutboxEvent} (hadds : w.db.Adds w'.db a e) :
    ∃ actor userId : Uuid, a.actorId = some actor ∧
      e.payload.get "userId" = some (.str userId.text.toString) ∧
      (userId = actor ↔ w.paysOwnOrder (.api b) = true) := by
  obtain ⟨i, c, rfl⟩ := exists_advance_of_adds h hadds
  obtain ⟨⟨request, correlationId, pc⟩, db', pc', hcall, hadv, rfl⟩ := World.step_advance h
  have haudit : db'.auditLogs = w.db.auditLogs ++ [a] := hadds.auditLogs
  have hevent : db'.outboxEvents = w.db.outboxEvents ++ [e] := hadds.outboxEvents
  cases hadv with
  | @created user dto lineItems db' o hcommit =>
    obtain ⟨-, -, -, -, rfl⟩ := OrdersRepository.createWrite_commits hcommit
    obtain rfl := List.singleton_inj.mp (List.append_cancel_left haudit)
    obtain rfl := List.singleton_inj.mp (List.append_cancel_left hevent)
    exact ⟨user.id, user.id, rfl, rfl, by simp [World.paysOwnOrder, hcall]⟩
  | @updated user id dto current db' o hcommit =>
    -- a status change writes no event
    obtain ⟨-, -, -, -, rfl⟩ := OrdersRepository.updateStatus_commits hcommit
    simp at hevent
  | @paid user orderId key dto k snapshot db' p hcommit =>
    obtain ⟨order, horder, hid, rfl, -, -, -, -, -, rfl⟩ :=
      PaymentsRepository.complete_commits hcommit
    obtain rfl := List.singleton_inj.mp (List.append_cancel_left haudit)
    obtain rfl := List.singleton_inj.mp (List.append_cancel_left hevent)
    refine ⟨user.id, order.userId, rfl, rfl, ?_⟩
    -- the order of the snapshot is still there, and its owner is the same
    obtain ⟨-, -, -, hevolves⟩ := ok_of_reachable hw i _ hcall
    obtain ⟨o, ho, hev⟩ := hevolves.orders order horder
    obtain ⟨hid', huser, -, -⟩ := hev.fixed
    have hfind : OrdersRepository.findById w.db orderId = some o :=
      (Table.find_eq_some_iff (keys_of_reachable hw).orders).mpr ⟨ho, hid'.trans hid⟩
    simp [World.paysOwnOrder, hcall, hfind, huser]
  | _ => simp at haudit

/-! ### The row of the consumer -/

section Platform

variable {u : UuidSyntax}

/-- A step of the two sides that writes an audit row and an event is a step of the
requests. -/
theorem Platform.exists_step_of_adds {p p' : Platform} {b : PlatformAction}
    (h : p.step u b = some p') {a : AuditLog} {e : OutboxEvent}
    (hadds : p.world.db.Adds p'.world.db a e) :
    ∃ b', b = .api b' ∧ p.world.step b' = some p'.world := by
  have hne : p'.world.db.auditLogs ≠ p.world.db.auditLogs := by
    rw [hadds.auditLogs]
    simp
  unfold step at h
  split at h
  · obtain ⟨w, hw, rfl⟩ := Option.map_eq_some_iff.mp h
    obtain ⟨-, rfl⟩ := World.step_request hw
    exact absurd rfl hne
  · cases h
  · next b' hb =>
    obtain ⟨w, hw, rfl⟩ := Option.map_eq_some_iff.mp h
    exact ⟨b', rfl, hw⟩
  · split at h
    · cases h
    · obtain ⟨c, -, rfl⟩ := Option.map_eq_some_iff.mp h
      exact absurd rfl hne
  · cases h
  · obtain ⟨c, -, rfl⟩ := Option.map_eq_some_iff.mp h
    exact absurd rfl hne

/-- The actor of an audit row is read from the event. -/
theorem auditActor_of_auditData {event : Json} {id : Uuid} {now : ℕ} {row : AuditLog}
    (h : auditData u event id now = some row) : auditActor u event = some row.actorId := by
  unfold auditData at h
  obtain ⟨actorId, hactor, h⟩ := Option.bind_eq_some_iff.mp h
  obtain ⟨type, -, h⟩ := Option.bind_eq_some_iff.mp h
  obtain ⟨action, -, h⟩ := Option.bind_eq_some_iff.mp h
  obtain ⟨aggregateType, -, h⟩ := Option.bind_eq_some_iff.mp h
  obtain ⟨aggregateId, -, h⟩ := Option.bind_eq_some_iff.mp h
  obtain ⟨correlationId, -, h⟩ := Option.bind_eq_some_iff.mp h
  obtain ⟨metadata, -, h⟩ := Option.bind_eq_some_iff.mp h
  cases h
  exact hactor

variable (hu : u.ReadsRendered)
include hu

/-- **The consumer's row names the user of the payload.** -/
theorem actorId_of_reachable {p : Platform} (hp : (platform u).Reachable p) {e : OutboxEvent}
    (he : ∃ e' ∈ p.world.db.outboxEvents, e'.id = e.id ∧ e'.payload = e.payload) {userId : Uuid}
    (huser : e.payload.get "userId" = some (.str userId.text.toString)) {entry : AuditEntry}
    (hentry : entry ∈ p.consumers.shared.effects.shared.db.auditLogs)
    (hevent : entry.event = some e.id) : entry.row.actorId = some userId := by
  obtain ⟨e₁, he₁, hid₁, hpayload⟩ := he
  obtain ⟨e₂, he₂, hid₂, id, now, hdata⟩ := auditData_of_reachable hu hp hentry hevent
  have hk := (keys_of_reachable (world_of_reachable hp).of_restrict).outboxEvents
  obtain rfl := hk.eq_of_key he₂ he₁ (hid₂.trans hid₁.symm)
  have hactor := auditActor_of_auditData hdata
  have hnamed : payloadUserId (OutboxPublisherService.domainEvent e₂.leased) =
      some (.str userId.text.toString) := by
    rw [payloadUserId, domainEvent_payload, Option.bind_some, ← huser, ← hpayload]
    rfl
  rw [auditActor, hnamed] at hactor
  simp only [hu userId, Option.map_some, Option.some.injEq] at hactor
  exact hactor.symm

/-- **Attribution.**  In every run of the two sides, the audit row the consumer writes for
an event names the same actor as the audit row of the transaction that produced it, if and
only if that transaction is no payment, or a payment by the owner of the order. -/
theorem actors_agree_iff {p₀ p : Platform} {as : List PlatformAction}
    (h0 : (platform u).init p₀) (h : (platform u).exec p₀ as = some p) {v v' : Platform}
    {b : PlatformAction} (hstep : (platform u).Takes p₀ as v b v') {a : AuditLog}
    {e : OutboxEvent} (hadds : v.world.db.Adds v'.world.db a e) {entry : AuditEntry}
    (hentry : entry ∈ p.consumers.shared.effects.shared.db.auditLogs)
    (hevent : entry.event = some e.id) :
    entry.row.actorId = a.actorId ↔ v.world.paysOwnOrder b = true := by
  have hp : (platform u).Reachable p := Sys.Reachable.exec (.init h0) h
  have hv : (platform u).Reachable v := hstep.reachable (.init h0)
  have hv' : (platform u).Reachable v' := hv.step hstep.step
  obtain ⟨b', rfl, hworld⟩ := Platform.exists_step_of_adds hstep.step hadds
  obtain ⟨actor, userId, hactor, huser, hiff⟩ :=
    auditActor_of_adds (world_of_reachable hv).of_restrict hworld hadds
  -- the event is still there when the consumer has written its row
  have hlast : ∃ e' ∈ p.world.db.outboxEvents, e'.id = e.id ∧ e'.payload = e.payload := by
    obtain ⟨bs, cs, -, hcs⟩ := hstep.split
    have hnew : e ∈ v'.world.db.outboxEvents := by
      rw [hadds.outboxEvents]
      exact List.mem_append_right _ (List.mem_singleton.mpr rfl)
    obtain ⟨e', he', hsame⟩ :=
      (Platform.evolves_of_exec hv' (hcs p h)).outboxEvents e hnew
    exact ⟨e', he', congrArg LeasedOutboxEvent.id hsame, congrArg LeasedOutboxEvent.payload hsame⟩
  rw [actorId_of_reachable hu hp hlast huser hentry hevent, hactor, Option.some.injEq]
  exact hiff

end Platform

/-! ### A payment for a customer -/

/-- A change that writes an event writes an audit row with it. -/
theorem Change.exists_adds {w : World} {db' : Db} (h : Change w db')
    (hlength : w.db.outboxEvents.length < db'.outboxEvents.length) : ∃ a e, w.db.Adds db' a e := by
  cases h with
  | catalog restaurants menuItems => exact absurd hlength (Nat.lt_irrefl _)
  | created hcall hcommit =>
    obtain ⟨-, -, -, -, rfl⟩ := OrdersRepository.createWrite_commits hcommit
    exact ⟨_, _, rfl, rfl⟩
  | updated hcall hcommit =>
    obtain ⟨-, -, -, -, rfl⟩ := OrdersRepository.updateStatus_commits hcommit
    exact absurd hlength (Nat.lt_irrefl _)
  | paid hcall hcommit =>
    obtain ⟨order, -, -, -, -, -, -, -, -, rfl⟩ := PaymentsRepository.complete_commits hcommit
    exact ⟨_, _, rfl, rfl⟩
  | polled hwrites =>
    obtain ⟨q, f, rfl, -⟩ := hwrites.eq_update
    rw [Table.update, List.length_map] at hlength
    exact absurd hlength (Nat.lt_irrefl _)

/-- The customer orders, and the user pays as request `1`, up to the commit. -/
def Platform.payable (user : AuthenticatedUser) : List PlatformAction :=
  [.request 0 .sampleOrder none (Uuid.repeated 9), .api (.advance 0 (.sample 3)),
    .api (.advance 0 (.sample 3)), .api (.advance 0 (.sample 3)),
    .request 1 (.completePayment user (Uuid.repeated 3).text (some "attributed-key-1")
      ⟨some "terminal-6", by decide⟩) none (Uuid.repeated 9)] ++
  List.replicate 3 (.api (.advance 1 (.sample 4)))

/-- The event of the payment is published behind that of the order, arrives, and is handled
by the audit consumer. -/
def Platform.audited : List PlatformAction :=
  [.api (.poll 0 .interval), .api (.poll 0 (.lease [] .none)), .api (.poll 0 .confirm),
    .api (.poll 0 (.mark .none .other)), .arrive 1, .consume (.request 0 .audit),
    .consume (.advance 0 (.sample 0)), .consume (.advance 0 (.sample 0))] ++
  List.replicate 4 (.consume (.environment (.effects (.advance 0 (.sample 8)))))

/-- The states before the payment of the user, after it, and at the end. -/
def Platform.attribution (user : AuthenticatedUser) : Option (Platform × Platform × Platform) := do
  let v ← (platform .spellings).exec Platform.sample (payable user)
  let v' ← (platform .spellings).step v (.api (.advance 1 (.sample 4)))
  let p ← (platform .spellings).exec v' audited
  return (v, v', p)

/-- The events before the payment and after it, and the event of the consumer's row. -/
def attributedEvents : Platform × Platform × Platform → List Uuid × List Uuid × List (Option Uuid)
  | (v, v', p) => (v.world.db.outboxEvents.map OutboxEvent.id,
    v'.world.db.outboxEvents.map OutboxEvent.id,
    p.consumers.shared.effects.shared.db.auditLogs.map AuditEntry.event)

/-- The actors of the transactions' rows and of the consumer's row. -/
def attributedActors : Platform × Platform × Platform → List (Option Uuid) × List (Option Uuid)
  | (_, v', p) => (v'.world.db.auditLogs.map AuditLog.actorId,
    p.consumers.shared.effects.shared.db.auditLogs.map fun a => a.row.actorId)

/-- The whole run. -/
def Platform.paidBy (user : AuthenticatedUser) : List PlatformAction :=
  payable user ++ .api (.advance 1 (.sample 4)) :: audited

/-- What the run comes to, when it has come to its end. -/
theorem exists_attributed (user : AuthenticatedUser) (actor consumed : Option Uuid)
    (hrows : (Platform.attribution user).map (fun r => (attributedEvents r, attributedActors r)) =
      some (([Uuid.repeated 3], [Uuid.repeated 3, Uuid.repeated 4], [some (Uuid.repeated 4)]),
        [some customer.id, actor], [consumed])) :
    ∃ v v' p a e entry,
      (platform .spellings).exec Platform.sample (Platform.paidBy user) = some p ∧
      (platform .spellings).Takes Platform.sample (Platform.paidBy user) v
        (.api (.advance 1 (.sample 4))) v' ∧
      v.world.db.Adds v'.world.db a e ∧
      entry ∈ p.consumers.shared.effects.shared.db.auditLogs ∧ entry.event = some e.id ∧
      a.actorId = actor ∧ entry.row.actorId = consumed := by
  obtain ⟨⟨v, v', p⟩, hrun, hids⟩ := Option.map_eq_some_iff.mp hrows
  simp only [attributedEvents, attributedActors, Prod.mk.injEq] at hids
  obtain ⟨⟨hbefore, hafter, hconsumed⟩, hactor, howner⟩ := hids
  obtain ⟨v₁, hv, hrun⟩ := Option.bind_eq_some_iff.mp hrun
  obtain ⟨v₂, hstep, hrun⟩ := Option.bind_eq_some_iff.mp hrun
  obtain ⟨p₁, hp, hrun⟩ := Option.bind_eq_some_iff.mp hrun
  cases hrun
  -- the payment writes its two rows
  have hw : v.world.step (.advance 1 (.sample 4)) = some v'.world := by
    obtain ⟨w, hw, rfl⟩ := Option.map_eq_some_iff.mp
      (show (v.world.step (.advance 1 (.sample 4))).map _ = some v' from hstep)
    exact hw
  obtain ⟨a, e, hadds⟩ := (change_of_step hw).exists_adds (by
    have hbefore := congrArg List.length hbefore
    have hafter := congrArg List.length hafter
    simp only [List.length_map] at hbefore hafter
    rw [hbefore, hafter]
    decide)
  have hid : e.id = Uuid.repeated 4 := by
    have hlast := congrArg List.getLast? hafter
    rw [hadds.outboxEvents] at hlast
    simpa using hlast
  have ha : a.actorId = actor := by
    have hlast := congrArg List.getLast? hactor
    rw [hadds.auditLogs] at hlast
    simpa using hlast
  -- the consumer has one row
  obtain ⟨entry, hentry⟩ := List.length_eq_one_iff.mp
    (show p.consumers.shared.effects.shared.db.auditLogs.length = 1 by
      simpa using congrArg List.length howner)
  rw [hentry] at hconsumed howner
  refine ⟨v, v', p, a, e, entry, ?_, ?_, hadds, ?_, ?_, ha, by simpa using howner⟩
  · rw [Platform.paidBy, Sys.exec_append, hv, Option.bind_some, Sys.exec_cons, hstep,
      Option.bind_some, hp]
  · have htakes := (Sys.takes_last hv hstep).append Platform.audited
    rwa [List.append_assoc, List.singleton_append] at htakes
  · rw [hentry]
    exact List.mem_singleton.mpr rfl
  · rw [hid]
    simpa using hconsumed

/-- The customer pays: the two rows name the same actor. -/
theorem sample_actors_agree :
    ∃ (v v' p : Platform) (a : AuditLog) (e : OutboxEvent) (entry : AuditEntry),
      (platform .spellings).exec Platform.sample (Platform.paidBy customer) = some p ∧
      v.world.db.Adds v'.world.db a e ∧
      entry ∈ p.consumers.shared.effects.shared.db.auditLogs ∧ entry.event = some e.id ∧
      entry.row.actorId = some customer.id ∧
      (entry.row.actorId = a.actorId ↔
        v.world.paysOwnOrder (.api (.advance 1 (.sample 4))) = true) := by
  obtain ⟨v, v', p, a, e, entry, hrun, htakes, hadds, hentry, hevent, -, howner⟩ :=
    exists_attributed customer (some customer.id) (some customer.id) (by decide +kernel)
  exact ⟨v, v', p, a, e, entry, hrun, hadds, hentry, hevent, howner,
    actors_agree_iff UuidSyntax.spellings_readsRendered
      Platform.sample_init hrun htakes hadds hentry hevent⟩

/-- **A manager pays for the customer**: the transaction's audit row names the manager,
that of the consumer the customer. -/
theorem payment_names_another_actor :
    ¬∀ (u : UuidSyntax), u.ReadsRendered → ∀ p₀ p as, (platform u).init p₀ →
      (platform u).exec p₀ as = some p → ∀ v b v', (platform u).Takes p₀ as v b v' →
        ∀ a e, v.world.db.Adds v'.world.db a e →
          ∀ entry ∈ p.consumers.shared.effects.shared.db.auditLogs,
            entry.event = some e.id → entry.row.actorId = a.actorId := by
  intro hall
  obtain ⟨v, v', p, a, e, entry, hrun, htakes, hadds, hentry, hevent, hactor, howner⟩ :=
    exists_attributed manager (some manager.id) (some customer.id) (by decide +kernel)
  have hsame := hall .spellings UuidSyntax.spellings_readsRendered _ p _
    Platform.sample_init hrun v _ v' htakes a e hadds
    entry hentry hevent
  rw [hactor, howner] at hsame
  exact absurd hsame (by decide)

end ScaleForge
