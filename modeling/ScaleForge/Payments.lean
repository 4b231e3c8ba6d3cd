import ScaleForge.Orders

/-!
# Payments: the service and its repository

`PaymentsService.complete` checks the idempotency key, reads the order, looks
the key up and, when it is new, runs the `Serializable` transaction of
`PaymentsRepository.complete`.  The four are separate steps: other requests run
between them.

A `Serializable` transaction reads its snapshot.  The unique index on the key
and the row lock of the order are checked against the rows committed by the
others, so a key committed in the meantime surfaces as `P2002` and an order row
that is not the one of the snapshot any more as a write conflict.

## Main definitions

* `PaymentsService.checkKey`, `PaymentsService.authorize`,
  `PaymentsService.replay` — the segments of `PaymentsService.complete`.
* `PaymentsRepository.complete` — the transaction.

## Main results

* `PaymentsRepository.complete_commits` — what the transaction leaves behind
  when it commits.
-/

namespace ScaleForge

open Transaction

/-- A validated payment request. -/
structure CompletePaymentDto where
  providerReference : Option String
  max_length : ∀ s ∈ providerReference, s.length ≤ 160
  deriving DecidableEq

namespace PaymentsService

/-- The `Idempotency-Key` header has to be there and hold 16 to 100
characters. -/
def checkKey : Option String → Except Failure String
  | none => .error (.badRequest "Idempotency-Key header must contain 16 to 100 characters")
  | some key =>
    if key = "" ∨ key.length < 16 ∨ 100 < key.length then
      .error (.badRequest "Idempotency-Key header must contain 16 to 100 characters")
    else .ok key

/-- The checks on the order `findById` read. -/
def authorize (user : AuthenticatedUser) (found : Option Order) : Except Failure Order :=
  match found with
  | none => .error (.notFound "Order not found")
  | some order =>
    if user.role = .user ∧ order.userId ≠ user.id then
      .error (.forbidden "Users may only pay for their own orders")
    else .ok order

/-- What the service answers when the key is already bound.  The stored id is
compared with the spelling of the request, text against text. -/
def replay (orderId : UuidText) (existing : Payment) : Except Failure Payment :=
  if existing.orderId.text ≠ orderId then
    .error (.conflict "Idempotency key is already bound to another order")
  else .ok existing

end PaymentsService

namespace PaymentsRepository

/-- `findByIdempotencyKey`. -/
def findByIdempotencyKey (db : Db) (key : String) : Option Payment :=
  Table.find Payment.idempotencyKey key db.payments

/-- The argument of `complete`. -/
structure Input where
  orderId : UuidText
  actorId : Uuid
  idempotencyKey : String
  providerReference : Option String
  correlationId : Option String

/-- The payment row a completion inserts; the currency is the column's
default. -/
def newPayment (input : Input) (order : Order) (fresh : FreshIds) (now : ℕ) : Payment where
  id := fresh.row
  orderId := input.orderId.value
  idempotencyKey := input.idempotencyKey
  amount := order.totalAmount
  currency := "EUR"
  status := .completed
  providerRef := input.providerReference
  createdAt := now

/-- The `PAYMENT_COMPLETED` audit row. -/
def completedAudit (input : Input) (order : Order) (payment : Payment) (fresh : FreshIds)
    (now : ℕ) : AuditLog where
  id := fresh.audit
  actorId := some input.actorId
  action := "PAYMENT_COMPLETED"
  aggregateType := "Payment"
  aggregateId := payment.id.text.toString
  metadata := .obj [("orderId", .str order.id.text.toString),
    ("amount", .str order.totalAmount.toString), ("currency", .str payment.currency)]
  correlationId := input.correlationId
  createdAt := now

/-- The `PaymentCompleted` outbox row. -/
def completedEvent (input : Input) (order : Order) (payment : Payment) (fresh : FreshIds)
    (now : ℕ) : OutboxEvent :=
  .new fresh.event .paymentCompleted "Payment" payment.id.text.toString
    (.obj [("paymentId", .str payment.id.text.toString), ("orderId", .str order.id.text.toString),
      ("userId", .str order.userId.text.toString), ("amount", .str order.totalAmount.toString),
      ("currency", .str payment.currency)])
    input.correlationId now

/-- The conditional update of `complete`: a pending order is confirmed. -/
def confirm (snapshot : Db) (order : Order) : DbTx Unit :=
  if order.status = .pending then
    Order.updateSerializable snapshot order.id (OrdersRepository.bump .confirmed)
  else pure ()

/-- The `Serializable` transaction of `complete`; its reads see `snapshot`. -/
def complete (snapshot : Db) (input : Input) (fresh : FreshIds) (now : ℕ) :
    DbTx Payment := do
  let order ← Order.findUniqueOrThrow (fun _ => snapshot.orders) input.orderId.value
  let payment ← Payment.create (newPayment input order fresh now)
  confirm snapshot order
  AuditLog.create (completedAudit input order payment fresh now)
  OutboxEvent.create (completedEvent input order payment fresh now)
  return payment

/-- The orders after a payment of an order that the transaction read as
`order`: a pending one is confirmed. -/
def paidOrders (order : Order) (orders : List Order) : List Order :=
  if order.status = .pending then
    Table.update (fun o => o.id = order.id) (OrdersRepository.bump .confirmed) orders
  else orders

theorem confirm_commits {snapshot : Db} {order : Order} {db db' : Db} {u : Unit}
    (h : Commits (confirm snapshot order) db u db') :
    (order.status = .pending → ∃ row, Table.find Order.id order.id db.orders = some row ∧
      Table.find Order.id order.id snapshot.orders = some row) ∧
      db' = { db with orders := paidOrders order db.orders } := by
  unfold confirm at h
  unfold paidOrders
  split at h
  · next hpending =>
    obtain ⟨hrow, rfl⟩ := Order.updateSerializable_commits h
    rw [if_pos hpending]
    exact ⟨fun _ => hrow, rfl⟩
  · next hpending =>
    obtain ⟨-, rfl⟩ := h.pure
    rw [if_neg hpending]
    exact ⟨fun hp => absurd hp hpending, rfl⟩

/-- **What a committed payment leaves behind**: one payment under a key and an
identifier not used before, one audit row, one outbox row, and the order
confirmed when the snapshot had it pending, in which case the row is still the
one of the snapshot. -/
theorem complete_commits {snapshot : Db} {input : Input} {fresh : FreshIds} {now : ℕ}
    {db db' : Db} {p : Payment}
    (h : Commits (complete snapshot input fresh now) db p db') :
    ∃ order ∈ snapshot.orders, order.id = input.orderId.value ∧
      p = newPayment input order fresh now ∧
      (∀ r ∈ db.payments, r.id ≠ p.id) ∧
      (∀ r ∈ db.payments, r.idempotencyKey ≠ p.idempotencyKey) ∧
      (∀ r ∈ db.auditLogs, r.id ≠ fresh.audit) ∧
      (∀ r ∈ db.outboxEvents, r.id ≠ fresh.event) ∧
      (order.status = .pending → ∃ row, Table.find Order.id order.id db.orders = some row ∧
        Table.find Order.id order.id snapshot.orders = some row) ∧
      db' = { db with
        orders := paidOrders order db.orders
        payments := db.payments ++ [p]
        auditLogs := db.auditLogs ++ [completedAudit input order p fresh now]
        outboxEvents := db.outboxEvents ++ [completedEvent input order p fresh now] } := by
  obtain ⟨order, db₁, hfind, h⟩ := h.bind
  obtain ⟨payment, db₂, hpay, h⟩ := h.bind
  obtain ⟨_, db₃, hconfirm, h⟩ := h.bind
  obtain ⟨_, db₄, haudit, h⟩ := h.bind
  obtain ⟨_, db₅, hevent, h⟩ := h.bind
  obtain ⟨hmem, hid, rfl⟩ := Order.findUniqueOrThrow_commits hfind
  obtain ⟨rfl, hpid, hkey, rfl⟩ := Payment.create_commits hpay
  obtain ⟨hrow, rfl⟩ := confirm_commits hconfirm
  obtain ⟨hauditId, rfl⟩ := AuditLog.create_commits haudit
  obtain ⟨heventId, rfl⟩ := OutboxEvent.create_commits hevent
  obtain ⟨rfl, rfl⟩ := h.pure
  exact ⟨order, hmem, hid, rfl, hpid, hkey, hauditId, heventId, hrow, rfl⟩

end PaymentsRepository

end ScaleForge
