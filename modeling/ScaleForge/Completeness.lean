import ScaleForge.Evolution

/-!
# Outbox and audit completeness

The order or payment, its outbox row and its audit row are inserted by one
transaction, and nothing inserts one of them alone.  So, in the order of their
insertion, the orders are paired with the `OrderCreated` rows of the outbox and
with the `ORDER_CREATED` rows of the audit log, and the payments with the
`PaymentCompleted` and `PAYMENT_COMPLETED` rows.  The pairing survives status
changes, which keep every column the events mention, and the pollers, which
never touch an event's data.  Because the paired rows share the text of an
identifier, the pairing is a one-to-one correspondence.

## Main definitions

* `OrderCreatedFor`, `OrderAuditFor`, `PaymentCompletedFor`, `PaymentAuditFor` —
  what the paired rows say about each other.
* `Db.Complete` — the four pairings, position by position.

## Main results

* `Change.complete`, `complete_of_reachable` — the pairings are an invariant.
* `outbox_and_audit_complete` — the four one-to-one correspondences, and a
  rejected request leaves the rows as they were.
-/

namespace ScaleForge

open Transaction Table

/-! ### What the paired rows say about each other -/

/-- The text a JSON property holds. -/
def Json.text? (key : String) (j : Json) : Option String := Json.string? (j.get key)

/-- A text denotes an amount. -/
def Decimal.DenotedBy (d : Decimal) (s : Option String) : Prop :=
  ∃ t, s = some t ∧ Decimal.ofChars t.toList = some d

/-- An identifier in some spelling. -/
def Uuid.SpelledBy (u : Uuid) (s : Option String) : Prop :=
  ∃ t : UuidText, s = some t.toString ∧ t.value = u

/-- The `OrderCreated` event of an order. -/
structure OrderCreatedFor (o : Order) (e : OutboxEvent) : Prop where
  aggregateId : e.aggregateId = o.id.text.toString
  orderId : e.payload.text? "orderId" = some o.id.text.toString
  userId : e.payload.text? "userId" = some o.userId.text.toString
  restaurantId : o.restaurantId.SpelledBy (e.payload.text? "restaurantId")
  totalAmount : o.totalAmount.DenotedBy (e.payload.text? "totalAmount")

/-- The `ORDER_CREATED` audit row of an order. -/
structure OrderAuditFor (o : Order) (a : AuditLog) : Prop where
  aggregateId : a.aggregateId = o.id.text.toString
  actorId : a.actorId = some o.userId
  totalAmount : o.totalAmount.DenotedBy (a.metadata.text? "totalAmount")

/-- The `PaymentCompleted` event of a payment; `orders` are the present ones,
among which the paid order names the user. -/
structure PaymentCompletedFor (orders : List Order) (p : Payment) (e : OutboxEvent) : Prop where
  aggregateId : e.aggregateId = p.id.text.toString
  paymentId : e.payload.text? "paymentId" = some p.id.text.toString
  orderId : e.payload.text? "orderId" = some p.orderId.text.toString
  userId : ∃ o ∈ orders, o.id = p.orderId ∧
    e.payload.text? "userId" = some o.userId.text.toString
  amount : p.amount.DenotedBy (e.payload.text? "amount")
  currency : e.payload.text? "currency" = some p.currency

/-- The `PAYMENT_COMPLETED` audit row of a payment. -/
structure PaymentAuditFor (p : Payment) (a : AuditLog) : Prop where
  aggregateId : a.aggregateId = p.id.text.toString
  orderId : a.metadata.text? "orderId" = some p.orderId.text.toString
  amount : p.amount.DenotedBy (a.metadata.text? "amount")
  currency : a.metadata.text? "currency" = some p.currency

/-- The outbox rows of a type. -/
def eventsOf (type : EventType) (rows : List OutboxEvent) : List OutboxEvent :=
  rows.filter fun e => e.type = type

/-- The audit rows of an action. -/
def auditsOf (action : String) (rows : List AuditLog) : List AuditLog :=
  rows.filter fun a => a.action = action

/-- **The four pairings**, in the order of insertion. -/
structure Db.Complete (db : Db) : Prop where
  orderEvents : List.Forall₂ OrderCreatedFor db.orders (eventsOf .orderCreated db.outboxEvents)
  orderAudits : List.Forall₂ OrderAuditFor db.orders (auditsOf "ORDER_CREATED" db.auditLogs)
  paymentEvents : List.Forall₂ (PaymentCompletedFor db.orders) db.payments
    (eventsOf .paymentCompleted db.outboxEvents)
  paymentAudits : List.Forall₂ PaymentAuditFor db.payments
    (auditsOf "PAYMENT_COMPLETED" db.auditLogs)

/-! ### The rows of one transaction -/

theorem Decimal.denotedBy_toString (d : Decimal) : d.DenotedBy (some d.toString) :=
  ⟨d.toString, rfl, by rw [Decimal.toString, String.toList_ofList, Decimal.ofChars_toChars]⟩

/-- An order creation inserts an order and its event. -/
theorem orderCreatedFor_createdEvent (userId : Uuid) (dto : CreateOrderDto)
    (correlationId : Option String) (lineItems : List OrdersRepository.LineItem)
    (fresh : FreshIds) (now : ℕ) :
    OrderCreatedFor (OrdersRepository.newOrder userId dto lineItems fresh now)
      (OrdersRepository.createdEvent
        (OrdersRepository.newOrder userId dto lineItems fresh now) userId dto.restaurantId
        correlationId fresh now) where
  aggregateId := rfl
  orderId := rfl
  userId := rfl
  restaurantId := ⟨dto.restaurantId, rfl, rfl⟩
  totalAmount := Decimal.denotedBy_toString _

/-- An order creation inserts an order and its audit row. -/
theorem orderAuditFor_createdAudit (userId : Uuid) (dto : CreateOrderDto)
    (correlationId : Option String) (lineItems : List OrdersRepository.LineItem)
    (fresh : FreshIds) (now : ℕ) :
    OrderAuditFor (OrdersRepository.newOrder userId dto lineItems fresh now)
      (OrdersRepository.createdAudit
        (OrdersRepository.newOrder userId dto lineItems fresh now) userId
        correlationId fresh now) where
  aggregateId := rfl
  actorId := rfl
  totalAmount := Decimal.denotedBy_toString _

section Paid

variable {input : PaymentsRepository.Input} {order : Order} (hid : order.id = input.orderId.value)
include hid

/-- A payment inserts a payment and its event, which names the owner of the
order the transaction read. -/
theorem paymentCompletedFor_completedEvent (fresh : FreshIds) (now : ℕ) {orders : List Order}
    {o : Order} (ho : o ∈ orders) (hev : order.Evolves o) :
    PaymentCompletedFor orders (PaymentsRepository.newPayment input order fresh now)
      (PaymentsRepository.completedEvent input order
        (PaymentsRepository.newPayment input order fresh now) fresh now) := by
  obtain ⟨hid', huser, -, -⟩ := hev.fixed
  refine ⟨rfl, rfl, ?_, ⟨o, ho, hid'.trans hid, ?_⟩, Decimal.denotedBy_toString _, rfl⟩
  · exact congrArg (fun u : Uuid => some u.text.toString) hid
  · exact congrArg (fun u : Uuid => some u.text.toString) huser.symm

/-- A payment inserts a payment and its audit row. -/
theorem paymentAuditFor_completedAudit (fresh : FreshIds) (now : ℕ) :
    PaymentAuditFor (PaymentsRepository.newPayment input order fresh now)
      (PaymentsRepository.completedAudit input order
        (PaymentsRepository.newPayment input order fresh now) fresh now) where
  aggregateId := rfl
  orderId := congrArg (fun u : Uuid => some u.text.toString) hid
  amount := Decimal.denotedBy_toString _
  currency := rfl

end Paid

/-! ### What later writes keep -/

/-- A status change keeps the columns an event mentions. -/
theorem OrderCreatedFor.evolves {o o' : Order} {e : OutboxEvent} (h : OrderCreatedFor o e)
    (hev : o.Evolves o') : OrderCreatedFor o' e := by
  obtain ⟨hid, huser, hrest, htotal⟩ := hev.fixed
  constructor
  · rw [hid]; exact h.aggregateId
  · rw [hid]; exact h.orderId
  · rw [huser]; exact h.userId
  · rw [hrest]; exact h.restaurantId
  · rw [htotal]; exact h.totalAmount

/-- A status change keeps the columns an audit row mentions. -/
theorem OrderAuditFor.evolves {o o' : Order} {a : AuditLog} (h : OrderAuditFor o a)
    (hev : o.Evolves o') : OrderAuditFor o' a := by
  obtain ⟨hid, huser, -, htotal⟩ := hev.fixed
  constructor
  · rw [hid]; exact h.aggregateId
  · rw [huser]; exact h.actorId
  · rw [htotal]; exact h.totalAmount

/-- The paid order keeps its owner. -/
theorem PaymentCompletedFor.evolves {orders orders' : List Order} {p : Payment} {e : OutboxEvent}
    (h : PaymentCompletedFor orders p e)
    (hev : ∀ o ∈ orders, ∃ o' ∈ orders', o.Evolves o') : PaymentCompletedFor orders' p e := by
  obtain ⟨o, ho, hid, huser⟩ := h.userId
  obtain ⟨o', ho', hoo'⟩ := hev o ho
  obtain ⟨hid', huser', -, -⟩ := hoo'.fixed
  refine ⟨h.aggregateId, h.paymentId, h.orderId, ⟨o', ho', hid'.trans hid, ?_⟩, h.amount,
    h.currency⟩
  rw [huser']
  exact huser

/-- Two versions of an outbox row carry the same event. -/
def OutboxEvent.SameEvent (e e' : OutboxEvent) : Prop :=
  e'.type = e.type ∧ e'.aggregateId = e.aggregateId ∧ e'.payload = e.payload

theorem OrderCreatedFor.sameEvent {o : Order} {e e' : OutboxEvent} (h : OrderCreatedFor o e)
    (he : e.SameEvent e') : OrderCreatedFor o e' := by
  obtain ⟨-, haggregate, hpayload⟩ := he
  constructor
  · rw [haggregate]; exact h.aggregateId
  all_goals rw [hpayload]
  · exact h.orderId
  · exact h.userId
  · exact h.restaurantId
  · exact h.totalAmount

theorem PaymentCompletedFor.sameEvent {orders : List Order} {p : Payment} {e e' : OutboxEvent}
    (h : PaymentCompletedFor orders p e) (he : e.SameEvent e') :
    PaymentCompletedFor orders p e' := by
  obtain ⟨-, haggregate, hpayload⟩ := he
  constructor
  · rw [haggregate]; exact h.aggregateId
  all_goals rw [hpayload]
  · exact h.paymentId
  · exact h.orderId
  · exact h.userId
  · exact h.amount
  · exact h.currency

/-- Changing the status of orders keeps both pairings of the orders. -/
theorem forall₂_bump {β : Type} {R : Order → β → Prop} {orders : List Order} {ys : List β}
    (hR : ∀ o o' y, R o y → o.Evolves o' → R o' y) (p : Order → Bool) (status : OrderStatus)
    (h : List.Forall₂ R orders ys) :
    List.Forall₂ R (update p (OrdersRepository.bump status) orders) ys :=
  forall₂_update_left h fun o y ho => hR o _ y ho (Order.evolves_bump status o)

theorem forall₂_paidOrders {β : Type} {R : Order → β → Prop} {orders : List Order} {ys : List β}
    (hR : ∀ o o' y, R o y → o.Evolves o' → R o' y) (order : Order)
    (h : List.Forall₂ R orders ys) :
    List.Forall₂ R (PaymentsRepository.paidOrders order orders) ys := by
  unfold PaymentsRepository.paidOrders
  split
  · exact forall₂_bump hR _ _ h
  · exact h

/-! ### The invariant -/

/-- The writes of a poller keep a pairing with the events of a type. -/
theorem forall₂_writes {α : Type} {R : α → OutboxEvent → Prop} {xs : List α} {type : EventType}
    (hR : ∀ x e e', R x e → e.SameEvent e' → R x e') {j now : ℕ} {p : Poller}
    {rows rows' : List OutboxEvent} (hw : OutboxPublisherService.Writes j now p rows rows')
    (h : List.Forall₂ R xs (eventsOf type rows)) : List.Forall₂ R xs (eventsOf type rows') := by
  obtain ⟨q, f, rfl, hf⟩ := hw.eq_update
  have htype : ∀ e, (f e).type = e.type := fun e => congrArg LeasedOutboxEvent.type (hf e)
  refine forall₂_update_right h ?_ ?_
  · intro e
    rw [htype e]
  · intro x e hx
    exact hR x e _ hx ⟨htype e, congrArg LeasedOutboxEvent.aggregateId (hf e),
      congrArg LeasedOutboxEvent.payload (hf e)⟩

/-- **Every change keeps the pairings.** -/
theorem Change.complete {w : World} {db' : Db} (h : Change w db')
    (hok : ∀ i call, w.calls i = some call → call.pc.Ok w.db call.request)
    (hc : w.db.Complete) : db'.Complete := by
  have hevolves := h.evolves.orders
  -- whatever happens to the orders, the old payment events still name their owners
  have hpayments := hc.paymentEvents.imp fun _ _ he => he.evolves hevolves
  cases h with
  | catalog => exact ⟨hc.1, hc.2, hc.3, hc.4⟩
  | created hcall h =>
    obtain ⟨rfl, -, -, -, rfl⟩ := OrdersRepository.createWrite_commits h
    exact ⟨forall₂_insert hc.orderEvents rfl (orderCreatedFor_createdEvent ..),
      forall₂_insert hc.orderAudits rfl (orderAuditFor_createdAudit ..),
      forall₂_insert_of_not hpayments rfl, forall₂_insert_of_not hc.paymentAudits rfl⟩
  | updated hcall h =>
    obtain ⟨-, -, -, -, rfl⟩ := OrdersRepository.updateStatus_commits h
    refine ⟨forall₂_bump (fun _ _ _ ho => ho.evolves) _ _ hc.orderEvents, ?_, hpayments,
      forall₂_insert_of_not hc.paymentAudits rfl⟩
    exact forall₂_insert_of_not (forall₂_bump (fun _ _ _ ho => ho.evolves) _ _ hc.orderAudits) rfl
  | paid hcall h =>
    obtain ⟨-, -, -, hsnapshot⟩ := hok _ _ hcall
    obtain ⟨order, hmem, hid, rfl, -, -, -, -, -, rfl⟩ := PaymentsRepository.complete_commits h
    -- the order the transaction read has evolved into a present one
    obtain ⟨o, ho, hev⟩ := hsnapshot.orders order hmem
    obtain ⟨o', ho', hev'⟩ := hevolves o ho
    have hevents := forall₂_paidOrders (fun _ _ _ ho => ho.evolves) order hc.orderEvents
    have haudits := forall₂_paidOrders (fun _ _ _ ho => ho.evolves) order hc.orderAudits
    exact ⟨forall₂_insert_of_not hevents rfl, forall₂_insert_of_not haudits rfl,
      forall₂_insert hpayments rfl
        (paymentCompletedFor_completedEvent hid _ _ ho' (hev.trans hev')),
      forall₂_insert hc.paymentAudits rfl (paymentAuditFor_completedAudit hid _ _)⟩
  | polled h =>
    exact ⟨forall₂_writes (fun _ _ _ he => he.sameEvent) h hc.orderEvents, hc.orderAudits,
      forall₂_writes (fun _ _ _ he => he.sameEvent) h hc.paymentEvents, hc.paymentAudits⟩

theorem World.Initial.complete {w : World} (h : w.Initial) : w.db.Complete := by
  obtain ⟨ho, -, hp, ha, he, -⟩ := h
  constructor
  · rw [ho, he]; exact .nil
  · rw [ho, ha]; exact .nil
  · rw [hp, he]; exact .nil
  · rw [hp, ha]; exact .nil

/-- **The pairings hold in every reachable state.** -/
theorem complete_of_reachable {w : World} (hw : system.Reachable w) : w.db.Complete :=
  hw.invariant (I := fun w => w.db.Complete) (fun _ h => World.Initial.complete h)
    (fun _ _ _ hw hc h => (change_of_step h).complete (ok_of_reachable hw) hc)

/-! ### Completeness -/

/-- Rows told apart by an identifier are told apart by its text. -/
theorem uniqueOn_text {ρ : Type} {key : ρ → Uuid} {rows : List ρ} (h : UniqueOn key rows) :
    UniqueOn (fun r => (key r).text.toString) rows := by
  have hmap := List.Nodup.map Uuid.toString_text_injective h
  rwa [List.map_map] at hmap

/-- The tables correspond row by row: orders with their events and their audit
rows, payments with theirs. -/
structure Db.Accounted (db : Db) : Prop where
  orderEvents : Corresponds OrderCreatedFor db.orders (eventsOf .orderCreated db.outboxEvents)
  orderAudits : Corresponds OrderAuditFor db.orders (auditsOf "ORDER_CREATED" db.auditLogs)
  paymentEvents : Corresponds (PaymentCompletedFor db.orders) db.payments
    (eventsOf .paymentCompleted db.outboxEvents)
  paymentAudits : Corresponds PaymentAuditFor db.payments
    (auditsOf "PAYMENT_COMPLETED" db.auditLogs)

theorem Db.Complete.accounted {db : Db} (h : db.Complete) (hk : db.Keys) : db.Accounted where
  orderEvents := .of_forall₂ h.orderEvents (fun _ _ he => he.aggregateId.symm)
    (uniqueOn_text hk.orders)
  orderAudits := .of_forall₂ h.orderAudits (fun _ _ he => he.aggregateId.symm)
    (uniqueOn_text hk.orders)
  paymentEvents := .of_forall₂ h.paymentEvents (fun _ _ he => he.aggregateId.symm)
    (uniqueOn_text hk.payments)
  paymentAudits := .of_forall₂ h.paymentAudits (fun _ _ he => he.aggregateId.symm)
    (uniqueOn_text hk.payments)

/-- **Transactional outbox and audit completeness.**  In every reachable state
no row is there twice, the orders and payments correspond one to one with their
outbox rows and with their audit rows; and a step of a request that the run goes
on to reject leaves the rows as they were. -/
theorem outbox_and_audit_complete {w : World} (hw : system.Reachable w) :
    w.db.Keys ∧ w.db.Accounted ∧
      ∀ i c w₁ as w₂ call e, system.step w (.advance i c) = some w₁ →
        system.exec w₁ as = some w₂ → w₂.calls i = some call → call.pc = .rejected e →
        w₁.db = w.db :=
  ⟨keys_of_reachable hw, (complete_of_reachable hw).accounted (keys_of_reachable hw),
    fun _ _ _ _ _ _ _ h hexec hcall hrej => unchanged_of_rejected hw h hexec hcall hrej⟩

/-- The state in which the sample order has been placed. -/
theorem sample_order_accounted : ∃ w, system.exec World.sample Action.sampleOrder = some w ∧
    w.db.orders.length = 1 ∧ w.db.Accounted := by
  obtain ⟨w, hw, hlen⟩ : ∃ w, system.exec World.sample Action.sampleOrder = some w ∧
      w.db.orders.length = 1 := by
    rw [← Option.map_eq_some_iff (f := fun w : World => w.db.orders.length)]
    decide
  exact ⟨w, hw, hlen, (outbox_and_audit_complete (World.sample_reachable.exec hw)).2.1⟩

end ScaleForge
