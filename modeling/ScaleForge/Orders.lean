import ScaleForge.Schema

/-!
# Orders: the service and its repository

`OrdersService` and `OrdersRepository`, cut at the statements other requests
can get between.  Creating an order reads the restaurant, then the menu, and
then writes; changing a status reads the order in `findById`, checks the
transition against what it read, and writes under the version the client sent.

## Main definitions

* `transitions` — the table of status changes.
* `OrdersService.create`, `OrdersRepository.findRestaurant`,
  `OrdersRepository.priceItems`, `OrdersRepository.createWrite` — the segments
  of an order creation.
* `OrdersService.updateStatus`, `OrdersRepository.updateStatus` — the check and
  the write of a status change.

## Main results

* `OrdersRepository.createWrite_commits`, `OrdersRepository.updateStatus_commits`
  — what the two transactions leave behind when they commit.
-/

namespace ScaleForge

open Transaction

/-! ### Requests -/

/-- The user of a verified access token; `id` is the `sub` the service signed. -/
structure AuthenticatedUser where
  id : Uuid
  role : Role
  deriving DecidableEq

/-- A validated item of an order request. -/
structure CreateOrderItemDto where
  menuItemId : UuidText
  quantity : ℕ
  min_quantity : 1 ≤ quantity
  max_quantity : quantity ≤ 50
  deriving DecidableEq

/-- A validated order request. -/
structure CreateOrderDto where
  restaurantId : UuidText
  items : List CreateOrderItemDto
  min_items : 1 ≤ items.length
  max_items : items.length ≤ 50
  deriving DecidableEq

/-- A validated status change; the version is any integer from one on. -/
structure UpdateOrderStatusDto where
  status : OrderStatus
  version : ℕ
  min_version : 1 ≤ version
  deriving DecidableEq

/-- The identifiers a transaction draws for the rows it inserts. -/
structure FreshIds where
  /-- The order or the payment. -/
  row : Uuid
  /-- The audit row. -/
  audit : Uuid
  /-- The outbox row. -/
  event : Uuid
  /-- The order items. -/
  item : ℕ → Uuid

/-- Reject with `e` when the condition holds: `if (c) throw e`. -/
def rejectIf (c : Prop) [Decidable c] (e : Failure) : DbTx Unit := if c then throw e else pure ()

theorem rejectIf_commits {c : Prop} [Decidable c] {e : Failure} {db db' : Db} {u : Unit}
    (h : Commits (rejectIf c e) db u db') : ¬c ∧ db' = db := by
  unfold rejectIf at h
  split at h
  · exact (Commits.throw h).elim
  · next hc => exact ⟨hc, (Commits.pure h).2⟩

/-- A new outbox row: unlocked, unpublished and due at once. -/
def OutboxEvent.new (id : Uuid) (type : EventType) (aggregateType aggregateId : String)
    (payload : Json) (correlationId : Option String) (now : ℕ) : OutboxEvent where
  id := id
  type := type
  aggregateType := aggregateType
  aggregateId := aggregateId
  payload := payload
  correlationId := correlationId
  attempts := 0
  nextAttemptAt := now
  lockedAt := none
  lockedBy := none
  publishedAt := none
  lastError := none
  createdAt := now

/-! ### Creating an order -/

/-- The part of `OrdersService.create` before the repository: each menu item
may be named once, compared as text. -/
def OrdersService.create (dto : CreateOrderDto) : Except Failure Unit :=
  let ids := dto.items.map CreateOrderItemDto.menuItemId
  if ids.dedup.length ≠ ids.length then
    .error (.badRequest "Each menu item may appear only once; increase quantity instead")
  else .ok ()

namespace OrdersRepository

/-- The line of an order, priced from the menu. -/
structure LineItem where
  menuItemId : Uuid
  name : String
  unitPrice : Decimal
  quantity : ℕ
  lineTotal : Decimal
  deriving DecidableEq

/-- The first read of `create`: the restaurant has to be active. -/
def findRestaurant (db : Db) (dto : CreateOrderDto) : Except Failure Unit :=
  if db.restaurants.any fun r => r.id = dto.restaurantId.value && r.active then .ok ()
  else .error (.notFound "Active restaurant not found")

/-- The second read of `create`: `tx.menuItem.findMany`, by value. -/
def findMenuItems (db : Db) (dto : CreateOrderDto) : List MenuItem :=
  db.menuItems.filter fun m =>
    m.id ∈ dto.items.map (fun i => i.menuItemId.value) &&
      m.restaurantId = dto.restaurantId.value && m.available

/-- `byId.get(requested.menuItemId)!`: the map is keyed by the texts PostgreSQL
returned, and a missing entry is a `TypeError` at `menu.price`. -/
def lineItem (menuItems : List MenuItem) (requested : CreateOrderItemDto) :
    Except Failure LineItem :=
  match menuItems.find? fun m => m.id.text = requested.menuItemId with
  | none => .error .typeError
  | some menu => .ok
      { menuItemId := menu.id
        name := menu.name
        unitPrice := menu.price
        quantity := requested.quantity
        lineTotal := menu.price.mul requested.quantity }

/-- The lines of the order, once the menu has been read. -/
def priceItems (dto : CreateOrderDto) (menuItems : List MenuItem) :
    Except Failure (List LineItem) :=
  if menuItems.length ≠ dto.items.length then
    .error (.conflict "One or more menu items are invalid, duplicated, or unavailable")
  else dto.items.mapM (lineItem menuItems)

/-- The sum of the lines. -/
def totalAmount (lineItems : List LineItem) : Decimal :=
  lineItems.foldl (fun sum item => sum.add item.lineTotal) .zero

/-- The order row a creation inserts. -/
def newOrder (userId : Uuid) (dto : CreateOrderDto) (lineItems : List LineItem)
    (fresh : FreshIds) (now : ℕ) : Order where
  id := fresh.row
  userId := userId
  restaurantId := dto.restaurantId.value
  status := .pending
  totalAmount := totalAmount lineItems
  version := 1
  createdAt := now

/-- The item rows a creation inserts. -/
def newItems (lineItems : List LineItem) (fresh : FreshIds) : List OrderItem :=
  lineItems.mapIdx fun n l =>
    { id := fresh.item n
      orderId := fresh.row
      menuItemId := l.menuItemId
      name := l.name
      unitPrice := l.unitPrice
      quantity := l.quantity
      lineTotal := l.lineTotal }

/-- The `ORDER_CREATED` audit row. -/
def createdAudit (order : Order) (userId : Uuid) (correlationId : Option String)
    (fresh : FreshIds) (now : ℕ) : AuditLog where
  id := fresh.audit
  actorId := some userId
  action := "ORDER_CREATED"
  aggregateType := "Order"
  aggregateId := order.id.text.toString
  metadata := .obj [("status", .str order.status.name),
    ("totalAmount", .str order.totalAmount.toString)]
  correlationId := correlationId
  createdAt := now

/-- The `OrderCreated` outbox row. -/
def createdEvent (order : Order) (userId : Uuid) (restaurantId : UuidText)
    (correlationId : Option String) (fresh : FreshIds) (now : ℕ) : OutboxEvent :=
  .new fresh.event .orderCreated "Order" order.id.text.toString
    (.obj [("orderId", .str order.id.text.toString), ("userId", .str userId.text.toString),
      ("restaurantId", .str restaurantId.toString),
      ("totalAmount", .str order.totalAmount.toString)])
    correlationId now

/-- The writes of `create`: the order with its items, the audit row and the
outbox row. -/
def createWrite (userId : Uuid) (dto : CreateOrderDto) (correlationId : Option String)
    (lineItems : List LineItem) (fresh : FreshIds) (now : ℕ) : DbTx Order := do
  let order ← Order.create (newOrder userId dto lineItems fresh now) (newItems lineItems fresh)
  AuditLog.create (createdAudit order userId correlationId fresh now)
  OutboxEvent.create (createdEvent order userId dto.restaurantId correlationId fresh now)
  return order

/-- **What a committed order creation leaves behind**: one order with its
items, one audit row and one outbox row, all under identifiers not used
before. -/
theorem createWrite_commits {userId : Uuid} {dto : CreateOrderDto}
    {correlationId : Option String} {lineItems : List LineItem} {fresh : FreshIds} {now : ℕ}
    {db db' : Db} {o : Order}
    (h : Commits (createWrite userId dto correlationId lineItems fresh now) db o db') :
    o = newOrder userId dto lineItems fresh now ∧
      (∀ r ∈ db.orders, r.id ≠ o.id) ∧
      (∀ r ∈ db.auditLogs, r.id ≠ fresh.audit) ∧
      (∀ r ∈ db.outboxEvents, r.id ≠ fresh.event) ∧
      db' = { db with
        orders := db.orders ++ [o]
        orderItems := db.orderItems ++ newItems lineItems fresh
        auditLogs := db.auditLogs ++ [createdAudit o userId correlationId fresh now]
        outboxEvents := db.outboxEvents ++
          [createdEvent o userId dto.restaurantId correlationId fresh now] } := by
  obtain ⟨order, db₁, hcreate, h⟩ := h.bind
  obtain ⟨_, db₂, haudit, h⟩ := h.bind
  obtain ⟨_, db₃, hevent, h⟩ := h.bind
  obtain ⟨rfl, -, -, hid, -, rfl⟩ := Order.create_commits hcreate
  obtain ⟨hauditId, rfl⟩ := AuditLog.create_commits haudit
  obtain ⟨heventId, rfl⟩ := OutboxEvent.create_commits hevent
  obtain ⟨rfl, rfl⟩ := h.pure
  exact ⟨rfl, hid, hauditId, heventId, rfl⟩

end OrdersRepository

/-! ### Changing a status -/

/-- The allowed status changes. -/
def transitions : OrderStatus → List OrderStatus
  | .pending => [.confirmed, .cancelled]
  | .confirmed => [.preparing, .cancelled]
  | .preparing => [.ready, .cancelled]
  | .ready => [.completed]
  | .completed => []
  | .cancelled => []

/-- `OrdersRepository.findById`. -/
def OrdersRepository.findById (db : Db) (id : UuidText) : Option Order :=
  Table.find Order.id id.value db.orders

/-- The checks of `OrdersService.updateStatus` on the order `findById` read. -/
def OrdersService.updateStatus (user : AuthenticatedUser) (dto : UpdateOrderStatusDto)
    (found : Option Order) : Except Failure Order :=
  match found with
  | none => .error (.notFound "Order not found")
  | some current =>
    if user.role = .user ∧ (current.userId ≠ user.id ∨ dto.status ≠ .cancelled) then
      .error (.forbidden "Users may only cancel their own eligible orders")
    else if dto.status ∉ transitions current.status then
      .error (.badRequest
        ("Order cannot transition from " ++ current.status.name ++ " to " ++ dto.status.name))
    else .ok current

namespace OrdersRepository

/-- The `ORDER_STATUS_UPDATED` audit row; `aggregateId` is the spelling of the
request. -/
def statusAudit (id : UuidText) (currentVersion : ℕ) (status : OrderStatus) (actorId : Uuid)
    (correlationId : Option String) (fresh : FreshIds) (now : ℕ) : AuditLog where
  id := fresh.audit
  actorId := some actorId
  action := "ORDER_STATUS_UPDATED"
  aggregateType := "Order"
  aggregateId := id.toString
  metadata := .obj [("status", .str status.name), ("previousVersion", .num currentVersion)]
  correlationId := correlationId
  createdAt := now

/-- The rows the conditional update of `updateStatus` meets. -/
def atVersion (id : UuidText) (currentVersion : ℕ) (o : Order) : Bool :=
  o.id = id.value && o.version = currentVersion

/-- What a status change does to a row. -/
def bump (status : OrderStatus) (o : Order) : Order :=
  { o with status := status, version := o.version + 1 }

/-- The transaction of `updateStatus`. -/
def updateStatus (id : UuidText) (currentVersion : ℕ) (status : OrderStatus) (actorId : Uuid)
    (correlationId : Option String) (fresh : FreshIds) (now : ℕ) : DbTx Order := do
  let count ← Order.updateMany (atVersion id currentVersion) (bump status)
  rejectIf (count ≠ 1)
    (.conflict "Order was updated by another request; reload and retry")
  AuditLog.create (statusAudit id currentVersion status actorId correlationId fresh now)
  Order.findUniqueOrThrow Db.orders id.value

/-- **What a committed status change leaves behind**: the row with the version
the client sent, moved to the status the client sent, and one audit row. -/
theorem updateStatus_commits {id : UuidText} {currentVersion : ℕ} {status : OrderStatus}
    {actorId : Uuid} {correlationId : Option String} {fresh : FreshIds} {now : ℕ}
    {db db' : Db} {o : Order}
    (h : Commits (updateStatus id currentVersion status actorId correlationId fresh now)
      db o db') :
    (∃ old ∈ db.orders, atVersion id currentVersion old = true) ∧
      (∀ r ∈ db.auditLogs, r.id ≠ fresh.audit) ∧
      o ∈ db'.orders ∧ o.id = id.value ∧
      db' = { db with
        orders := Table.update (atVersion id currentVersion) (bump status) db.orders
        auditLogs := db.auditLogs ++
          [statusAudit id currentVersion status actorId correlationId fresh now] } := by
  obtain ⟨count, db₁, hupdate, h⟩ := h.bind
  obtain ⟨_, db₂, hreject, h⟩ := h.bind
  obtain ⟨_, db₃, haudit, hfind⟩ := h.bind
  obtain ⟨hcount, rfl⟩ := Order.updateMany_commits hupdate
  obtain ⟨hone, rfl⟩ := rejectIf_commits hreject
  obtain ⟨hauditId, rfl⟩ := AuditLog.create_commits haudit
  obtain ⟨hmem, hid, rfl⟩ := Order.findUniqueOrThrow_commits hfind
  refine ⟨?_, hauditId, hmem, hid, rfl⟩
  -- the update met exactly one row, so there is one
  have hpos : 0 < db.orders.countP (atVersion id currentVersion) := by
    rw [not_not] at hone
    omega
  exact List.countP_pos_iff.mp hpos

end OrdersRepository

end ScaleForge
