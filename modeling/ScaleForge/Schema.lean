import ScaleForge.Data.Decimal
import ScaleForge.Data.Json
import ScaleForge.Data.Uuid
import ScaleForge.Lib.Table
import ScaleForge.Lib.Transaction

/-!
# The relational schema and its statements

The tables of `prisma/schema.prisma` that the request path and the outbox
poller read and write, the exceptions a request can end with, and the Prisma
statements the repositories are made of.  Columns that no modelled function
reads (`updatedAt`, names of restaurants) are left out.

A statement runs against the working copy of its transaction.  Row locks are
held from a statement to the commit, so a transaction is linearized at its
commit: a condition of an `updateMany` is evaluated on the rows that commit
finds, and a unique index refuses a row whose key has been committed by then.

Times are milliseconds of the one clock of application and database.

## Main definitions

* `Order`, `OrderItem`, `Payment`, `AuditLog`, `OutboxEvent` — the rows.
* `Db` — the tables.
* `Failure` — what a request can be rejected with.
* `Order.create`, `Order.updateMany`, … — the statements, as transaction bodies.
-/

namespace ScaleForge

open Transaction

/-! ### Enumerations -/

inductive Role
  | admin
  | manager
  | user
  deriving DecidableEq, Repr

inductive OrderStatus
  | pending
  | confirmed
  | preparing
  | ready
  | completed
  | cancelled
  deriving DecidableEq, Repr

/-- The name of a status, as it is stored and sent. -/
def OrderStatus.name : OrderStatus → String
  | pending => "PENDING"
  | confirmed => "CONFIRMED"
  | preparing => "PREPARING"
  | ready => "READY"
  | completed => "COMPLETED"
  | cancelled => "CANCELLED"

inductive PaymentStatus
  | pending
  | completed
  | failed
  | refunded
  deriving DecidableEq, Repr

/-- The event types of the outbox. -/
inductive EventType
  | orderCreated
  | paymentCompleted
  deriving DecidableEq, Repr

/-- The name of an event type, as it is stored and sent. -/
def EventType.name : EventType → String
  | orderCreated => "OrderCreated"
  | paymentCompleted => "PaymentCompleted"

/-! ### Rows -/

structure Restaurant where
  id : Uuid
  active : Bool
  deriving DecidableEq

structure MenuItem where
  id : Uuid
  restaurantId : Uuid
  name : String
  price : Decimal
  available : Bool
  deriving DecidableEq

structure Order where
  id : Uuid
  userId : Uuid
  restaurantId : Uuid
  status : OrderStatus
  totalAmount : Decimal
  version : ℕ
  createdAt : ℕ
  deriving DecidableEq

structure OrderItem where
  id : Uuid
  orderId : Uuid
  menuItemId : Uuid
  name : String
  unitPrice : Decimal
  quantity : ℕ
  lineTotal : Decimal
  deriving DecidableEq

structure Payment where
  id : Uuid
  orderId : Uuid
  idempotencyKey : String
  amount : Decimal
  currency : String
  status : PaymentStatus
  providerRef : Option String
  createdAt : ℕ
  deriving DecidableEq

/-- `aggregateId` is a text column: it holds whatever spelling was written. -/
structure AuditLog where
  id : Uuid
  actorId : Option Uuid
  action : String
  aggregateType : String
  aggregateId : String
  metadata : Json
  correlationId : Option String
  createdAt : ℕ

structure OutboxEvent where
  id : Uuid
  type : EventType
  aggregateType : String
  aggregateId : String
  payload : Json
  correlationId : Option String
  attempts : ℕ
  nextAttemptAt : ℕ
  lockedAt : Option ℕ
  lockedBy : Option ℕ
  publishedAt : Option ℕ
  lastError : Option String
  createdAt : ℕ

/-- The committed rows. -/
structure Db where
  restaurants : List Restaurant
  menuItems : List MenuItem
  orders : List Order
  orderItems : List OrderItem
  payments : List Payment
  auditLogs : List AuditLog
  outboxEvents : List OutboxEvent

/-! ### Exceptions -/

/-- What the broker or the database threw. -/
inductive Thrown
  /-- An `Error` with its message. -/
  | error (message : String)
  /-- Any other value. -/
  | other

/-- The codes of `PrismaClientKnownRequestError` that the statements below end
with: unique constraint, value out of range, record not found, and write
conflict. -/
inductive PrismaCode
  | P2002
  | P2020
  | P2025
  | P2034
  deriving DecidableEq, Repr

/-- What a request can be rejected with.  `infrastructure` is a failure of the
database, the broker or the connection to them. -/
inductive Failure
  | badRequest (message : String)
  | unauthorized (message : String)
  | forbidden (message : String)
  | notFound (message : String)
  | conflict (message : String)
  | prisma (code : PrismaCode)
  | typeError
  | infrastructure
  deriving DecidableEq, Repr

/-! ### Statements -/

/-- The body of an interactive transaction. -/
abbrev DbTx := Tx Db Failure

/-- One statement against the tables. -/
def sql {α : Type} (f : Db → Except Failure (α × Db)) : DbTx α := statement .infrastructure f

/-- `tx.order.findUniqueOrThrow`, reading the rows of `view`. -/
def Order.findUniqueOrThrow (view : Db → List Order) (id : Uuid) : DbTx Order :=
  sql fun db =>
    match Table.find Order.id id (view db) with
    | some order => .ok (order, db)
    | none => .error (.prisma .P2025)

/-- `tx.order.create` with its nested items.  The columns are `DECIMAL(12,2)`,
and PostgreSQL refuses a value that does not fit. -/
def Order.create (order : Order) (items : List OrderItem) : DbTx Order :=
  sql fun db =>
    if ¬order.totalAmount.Fits ∨ ∃ i ∈ items, ¬i.unitPrice.Fits ∨ ¬i.lineTotal.Fits then
      .error (.prisma .P2020)
    else
      match Table.insert Order.id order db.orders with
      | none => .error (.prisma .P2002)
      | some orders =>
        if (db.orderItems ++ items).map OrderItem.id |>.Nodup then
          .ok (order, { db with orders := orders, orderItems := db.orderItems ++ items })
        else .error (.prisma .P2002)

/-- `tx.order.updateMany`; the result is the number of rows it met. -/
def Order.updateMany (p : Order → Bool) (f : Order → Order) : DbTx ℕ :=
  sql fun db => .ok (db.orders.countP p, { db with orders := Table.update p f db.orders })

/-- `tx.order.update` in a `Serializable` transaction: it aborts when the row
is not the one of the transaction's snapshot any more. -/
def Order.updateSerializable (snapshot : Db) (id : Uuid) (f : Order → Order) : DbTx Unit :=
  sql fun db =>
    match Table.find Order.id id db.orders with
    | none => .error (.prisma .P2025)
    | some row =>
      if Table.find Order.id id snapshot.orders = some row then
        .ok ((), { db with orders := Table.update (fun o => o.id = id) f db.orders })
      else .error (.prisma .P2034)

/-- `tx.payment.create`: `id` and `idempotencyKey` are unique. -/
def Payment.create (payment : Payment) : DbTx Payment :=
  sql fun db =>
    match Table.insert Payment.id payment db.payments,
        Table.insert Payment.idempotencyKey payment db.payments with
    | some payments, some _ => .ok (payment, { db with payments := payments })
    | _, _ => .error (.prisma .P2002)

/-- `tx.auditLog.create`. -/
def AuditLog.create (row : AuditLog) : DbTx Unit :=
  sql fun db =>
    match Table.insert AuditLog.id row db.auditLogs with
    | some auditLogs => .ok ((), { db with auditLogs := auditLogs })
    | none => .error (.prisma .P2002)

/-- `tx.outboxEvent.create`. -/
def OutboxEvent.create (row : OutboxEvent) : DbTx Unit :=
  sql fun db =>
    match Table.insert OutboxEvent.id row db.outboxEvents with
    | some outboxEvents => .ok ((), { db with outboxEvents := outboxEvents })
    | none => .error (.prisma .P2002)

/-! ### What a committed statement did -/

section Commits

variable {db db' : Db}

theorem eq_ok_of_commits_sql {α : Type} {f : Db → Except Failure (α × Db)} {a : α}
    (h : Commits (sql f) db a db') : f db = .ok (a, db') :=
  Commits.statement h

theorem Order.findUniqueOrThrow_commits {view : Db → List Order} {id : Uuid} {order : Order}
    (h : Commits (Order.findUniqueOrThrow view id) db order db') :
    order ∈ view db ∧ order.id = id ∧ db' = db := by
  unfold Order.findUniqueOrThrow at h
  have h := eq_ok_of_commits_sql h
  split at h
  · next o ho =>
    simp only [Except.ok.injEq, Prod.mk.injEq] at h
    obtain ⟨rfl, rfl⟩ := h
    exact ⟨(Table.find_mem ho).1, (Table.find_mem ho).2, rfl⟩
  · cases h

theorem Order.create_commits {order o : Order} {items : List OrderItem}
    (h : Commits (Order.create order items) db o db') :
    o = order ∧ order.totalAmount.Fits ∧ (∀ i ∈ items, i.unitPrice.Fits ∧ i.lineTotal.Fits) ∧
      (∀ r ∈ db.orders, r.id ≠ order.id) ∧
      Table.UniqueOn OrderItem.id (db.orderItems ++ items) ∧
      db' = { db with orders := db.orders ++ [order], orderItems := db.orderItems ++ items } := by
  unfold Order.create at h
  have h := eq_ok_of_commits_sql h
  split at h
  · cases h
  · next hfits =>
    split at h
    · cases h
    · next orders hins =>
      rw [Table.insert_eq_some_iff] at hins
      obtain ⟨hne, rfl⟩ := hins
      split at h
      · next hnodup =>
        simp only [Except.ok.injEq, Prod.mk.injEq] at h
        push Not at hfits
        exact ⟨h.1.symm, hfits.1, hfits.2, hne, hnodup, h.2.symm⟩
      · cases h

theorem Order.updateMany_commits {p : Order → Bool} {f : Order → Order} {n : ℕ}
    (h : Commits (Order.updateMany p f) db n db') :
    n = db.orders.countP p ∧ db' = { db with orders := Table.update p f db.orders } := by
  unfold Order.updateMany at h
  have h := eq_ok_of_commits_sql h
  simp only [Except.ok.injEq, Prod.mk.injEq] at h
  exact ⟨h.1.symm, h.2.symm⟩

theorem Order.updateSerializable_commits {snapshot : Db} {id : Uuid} {f : Order → Order}
    {u : Unit} (h : Commits (Order.updateSerializable snapshot id f) db u db') :
    (∃ row, Table.find Order.id id db.orders = some row ∧
      Table.find Order.id id snapshot.orders = some row) ∧
      db' = { db with orders := Table.update (fun o => o.id = id) f db.orders } := by
  unfold Order.updateSerializable at h
  have h := eq_ok_of_commits_sql h
  split at h
  · cases h
  · next row hrow =>
    split at h
    · next hsnap =>
      simp only [Except.ok.injEq, Prod.mk.injEq] at h
      exact ⟨⟨row, hrow, hsnap⟩, h.2.symm⟩
    · cases h

theorem Payment.create_commits {payment p : Payment}
    (h : Commits (Payment.create payment) db p db') :
    p = payment ∧ (∀ r ∈ db.payments, r.id ≠ payment.id) ∧
      (∀ r ∈ db.payments, r.idempotencyKey ≠ payment.idempotencyKey) ∧
      db' = { db with payments := db.payments ++ [payment] } := by
  unfold Payment.create at h
  have h := eq_ok_of_commits_sql h
  split at h
  · next hid hkey =>
    rw [Table.insert_eq_some_iff] at hid hkey
    simp only [Except.ok.injEq, Prod.mk.injEq] at h
    exact ⟨h.1.symm, hid.1, hkey.1, by rw [← h.2, hid.2]⟩
  · cases h

theorem AuditLog.create_commits {row : AuditLog} {u : Unit}
    (h : Commits (AuditLog.create row) db u db') :
    (∀ r ∈ db.auditLogs, r.id ≠ row.id) ∧
      db' = { db with auditLogs := db.auditLogs ++ [row] } := by
  unfold AuditLog.create at h
  have h := eq_ok_of_commits_sql h
  split at h
  · next hins =>
    rw [Table.insert_eq_some_iff] at hins
    simp only [Except.ok.injEq, Prod.mk.injEq] at h
    exact ⟨hins.1, by rw [← h.2, hins.2]⟩
  · cases h

theorem OutboxEvent.create_commits {row : OutboxEvent} {u : Unit}
    (h : Commits (OutboxEvent.create row) db u db') :
    (∀ r ∈ db.outboxEvents, r.id ≠ row.id) ∧
      db' = { db with outboxEvents := db.outboxEvents ++ [row] } := by
  unfold OutboxEvent.create at h
  have h := eq_ok_of_commits_sql h
  split at h
  · next hins =>
    rw [Table.insert_eq_some_iff] at hins
    simp only [Except.ok.injEq, Prod.mk.injEq] at h
    exact ⟨hins.1, by rw [← h.2, hins.2]⟩
  · cases h

end Commits

end ScaleForge
