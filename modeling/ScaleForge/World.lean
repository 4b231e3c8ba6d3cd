import ScaleForge.Lib.Transition
import ScaleForge.Outbox
import ScaleForge.Payments

/-!
# Requests and pollers over one database

The system the API processes form: any number of requests in flight, each at
one of its awaits, any number of outbox pollers, and one PostgreSQL.  A step
advances the clock, edits the catalog, accepts a request, runs one request to
its next await, or runs one poller.  A request's own steps are its reads and the
commit or rollback of its write transaction; every other interleaving is a
choice of the scheduler, so a run is a list of actions.

## Main definitions

* `Request`, `Pc`, `Call` — a request and how far it has come.
* `advance` — one step of a request.
* `World`, `Action`, `World.step`, `system` — the transition system.

## Main results

* `advance_cases` — the ways a step of a request can go, with everything each
  of them guarantees.
* `World.step_advance` — the same for the step of the system.
* `unchanged_of_rejected` — **a request that is rejected changes nothing.**
-/

namespace ScaleForge

open Transaction

/-! ### Requests -/

/-- A request that has passed authentication and DTO validation. -/
inductive Request
  | createOrder (user : AuthenticatedUser) (dto : CreateOrderDto)
  | updateStatus (user : AuthenticatedUser) (id : UuidText) (dto : UpdateOrderStatusDto)
  | completePayment (user : AuthenticatedUser) (orderId : UuidText)
      (idempotencyKey : Option String) (dto : CompletePaymentDto)

/-- What a request returns. -/
inductive Response
  | order (order : Order)
  | payment (payment : Payment)

/-- How far a request has come, with the local variables it needs from there. -/
inductive Pc
  /-- Nothing has run. -/
  | start
  /-- `OrdersRepository.create` has found the restaurant. -/
  | createMenu
  /-- `OrdersRepository.create` has priced the lines. -/
  | createWrite (lineItems : List OrdersRepository.LineItem)
  /-- `OrdersService.updateStatus` has passed its checks on `current`. -/
  | statusWrite (current : Order)
  /-- `PaymentsService.complete` has passed its checks on `order`. -/
  | paymentLookup (key : String) (order : Order)
  /-- `PaymentsService.complete` has found no payment under the key. -/
  | paymentBegin (key : String)
  /-- `PaymentsRepository.complete` runs on its snapshot. -/
  | paymentCommit (key : String) (snapshot : Db)
  /-- The request has returned. -/
  | returned (response : Response)
  /-- The request has been rejected. -/
  | rejected (failure : Failure)

/-- The request has come to its end. -/
def Pc.final : Pc → Bool
  | .returned _ => true
  | .rejected _ => true
  | _ => false

/-- A request in flight or finished. -/
structure Call where
  request : Request
  correlationId : Option String
  pc : Pc

/-- What the environment decides in one step of a request: where the fuse of
the transaction stands, and the identifiers it draws. -/
structure Choice where
  fuse : Option ℕ
  fresh : FreshIds

/-- Go on with the value of a check, or reject. -/
def orReject {α : Type} (x : Except Failure α) (k : α → Pc) : Pc :=
  match x with
  | .ok a => k a
  | .error e => .rejected e

/-- A read outside a write transaction; it may fail on its own account. -/
def read (c : Choice) (pc : Pc) : Pc := if c.fuse = some 0 then .rejected .infrastructure else pc

/-- Commit or roll back a transaction and answer. -/
def commit {α : Type} (c : Choice) (db : Db) (body : DbTx α) (respond : α → Response) : Db × Pc :=
  ((transaction body c.fuse db).2,
    orReject (transaction body c.fuse db).1 fun a => .returned (respond a))

/-- The argument `PaymentsService.complete` passes to the repository. -/
def paymentInput (user : AuthenticatedUser) (orderId : UuidText) (key : String)
    (dto : CompletePaymentDto) (correlationId : Option String) : PaymentsRepository.Input where
  orderId := orderId
  actorId := user.id
  idempotencyKey := key
  providerReference := dto.providerReference
  correlationId := correlationId

/-- One step of a request on the committed rows. -/
def advance (db : Db) (now : ℕ) (c : Choice) (correlationId : Option String) :
    Request → Pc → Option (Db × Pc)
  | .createOrder _ dto, .start =>
    some (db, orReject (OrdersService.create dto) fun _ =>
      read c (orReject (OrdersRepository.findRestaurant db dto) fun _ => .createMenu))
  | .createOrder _ dto, .createMenu =>
    some (db, read c (orReject
      (OrdersRepository.priceItems dto (OrdersRepository.findMenuItems db dto)) .createWrite))
  | .createOrder user dto, .createWrite lineItems =>
    some (commit c db
      (OrdersRepository.createWrite user.id dto correlationId lineItems c.fresh now) .order)
  | .updateStatus user id dto, .start =>
    some (db, read c (orReject
      (OrdersService.updateStatus user dto (OrdersRepository.findById db id)) .statusWrite))
  | .updateStatus user id dto, .statusWrite _ =>
    some (commit c db (OrdersRepository.updateStatus id dto.version dto.status user.id
      correlationId c.fresh now) .order)
  | .completePayment user orderId key _, .start =>
    some (db, orReject (PaymentsService.checkKey key) fun key =>
      read c (orReject
        (PaymentsService.authorize user (OrdersRepository.findById db orderId))
        (.paymentLookup key)))
  | .completePayment _ orderId _ _, .paymentLookup key _ =>
    some (db, read c
      (match PaymentsRepository.findByIdempotencyKey db key with
      | some existing => orReject (PaymentsService.replay orderId existing) fun p =>
          .returned (.payment p)
      | none => .paymentBegin key))
  | .completePayment _ _ _ _, .paymentBegin key => some (db, read c (.paymentCommit key db))
  | .completePayment user orderId _ dto, .paymentCommit key snapshot =>
    some (commit c db (PaymentsRepository.complete snapshot
      (paymentInput user orderId key dto correlationId) c.fresh now) .payment)
  | _, _ => none

/-! ### The system -/

/-- The state of the system. -/
structure World where
  /-- The one clock of application and database. -/
  clock : ℕ
  /-- The committed rows. -/
  db : Db
  /-- The requests accepted so far. -/
  calls : ℕ → Option Call
  /-- The outbox pollers, by `instanceId`. -/
  pollers : ℕ → Poller
  /-- The events of which the broker has confirmed a publish; nothing reads it. -/
  confirmed : List Uuid

/-- One step of the system. -/
inductive Action
  /-- Time passes. -/
  | tick (ms : ℕ)
  /-- A restaurant is added or edited. -/
  | setRestaurant (restaurant : Restaurant)
  /-- A menu item is added or edited. -/
  | setMenuItem (item : MenuItem)
  /-- A request arrives. -/
  | request (i : ℕ) (request : Request) (correlationId : Option String)
  /-- A request runs to its next await. -/
  | advance (i : ℕ) (c : Choice)
  /-- A poller runs to its next await. -/
  | poll (j : ℕ) (a : PollAction)

namespace World

/-- Add a row, or replace the one with its key. -/
def put {ρ : Type} (key : ρ → Uuid) (row : ρ) (rows : List ρ) : List ρ :=
  row :: rows.filter fun r => key r ≠ key row

/-- The state after the catalog has been edited. -/
def withCatalog (w : World) (restaurants : List Restaurant) (menuItems : List MenuItem) : World :=
  { w with db := { w.db with restaurants := restaurants, menuItems := menuItems } }

/-- The state after a request has arrived. -/
def accept (w : World) (i : ℕ) (request : Request) (correlationId : Option String) : World :=
  { w with calls := Function.update w.calls i (some ⟨request, correlationId, .start⟩) }

/-- The state after one of the requests has moved. -/
def move (w : World) (i : ℕ) (call : Call) (db : Db) (pc : Pc) : World :=
  { w with db := db, calls := Function.update w.calls i (some { call with pc := pc }) }

/-- The state after one of the pollers has moved. -/
def polled (w : World) (j : ℕ) (p : Poller) (rows : List OutboxEvent)
    (confirmed : Option Uuid) : World :=
  { w with
    db := { w.db with outboxEvents := rows }
    pollers := Function.update w.pollers j p
    confirmed := w.confirmed ++ confirmed.toList }

@[simp] theorem polled_pollers_self (w : World) (j : ℕ) (p : Poller) (rows : List OutboxEvent)
    (confirmed : Option Uuid) : (w.polled j p rows confirmed).pollers j = p :=
  Function.update_self _ _ _

theorem polled_pollers_of_ne (w : World) {j j' : ℕ} (h : j' ≠ j) (p : Poller)
    (rows : List OutboxEvent) (confirmed : Option Uuid) :
    (w.polled j p rows confirmed).pollers j' = w.pollers j' :=
  Function.update_of_ne h _ _

@[simp] theorem move_calls_self (w : World) (i : ℕ) (call : Call) (db : Db) (pc : Pc) :
    (w.move i call db pc).calls i = some { call with pc := pc } :=
  Function.update_self _ _ _

theorem move_calls_of_ne (w : World) {i i' : ℕ} (h : i' ≠ i) (call : Call) (db : Db) (pc : Pc) :
    (w.move i call db pc).calls i' = w.calls i' :=
  Function.update_of_ne h _ _

@[simp] theorem accept_calls_self (w : World) (i : ℕ) (r : Request)
    (correlationId : Option String) :
    (w.accept i r correlationId).calls i = some ⟨r, correlationId, .start⟩ :=
  Function.update_self _ _ _

theorem accept_calls_of_ne (w : World) {i i' : ℕ} (h : i' ≠ i) (r : Request)
    (correlationId : Option String) : (w.accept i r correlationId).calls i' = w.calls i' :=
  Function.update_of_ne h _ _

/-- The state after an action, when it is enabled. -/
def step (w : World) : Action → Option World
  | .tick ms => some { w with clock := w.clock + ms }
  | .setRestaurant r => some (w.withCatalog (put Restaurant.id r w.db.restaurants) w.db.menuItems)
  | .setMenuItem m => some (w.withCatalog w.db.restaurants (put MenuItem.id m w.db.menuItems))
  | .request i request correlationId =>
    match w.calls i with
    | none => some (w.accept i request correlationId)
    | some _ => none
  | .advance i c =>
    match w.calls i with
    | none => none
    | some call =>
      (advance w.db w.clock c call.correlationId call.request call.pc).map fun r =>
        w.move i call r.1 r.2
  | .poll j a =>
    (OutboxPublisherService.step j w.clock w.db.outboxEvents (w.pollers j) a).map fun r =>
      w.polled j r.1 r.2.1 r.2.2

/-- A database without orders, before any request. -/
def Initial (w : World) : Prop :=
  w.db.orders = [] ∧ w.db.orderItems = [] ∧ w.db.payments = [] ∧ w.db.auditLogs = [] ∧
    w.db.outboxEvents = [] ∧ (∀ i, w.calls i = none) ∧ (∀ j, w.pollers j = .idle) ∧
    w.confirmed = []

end World

/-- **The system**: requests, pollers and the clock, in any order. -/
def system : Transition.Sys World Action where
  init := World.Initial
  step := World.step

/-! ### Taking a step apart -/

section Advance

variable {db db' : Db} {now : ℕ} {c : Choice} {correlationId : Option String}

/-- The ways one step of a request can go.  Every step either leaves the rows
alone or is the commit of one of the three transactions. -/
inductive Advance (db : Db) (now : ℕ) (c : Choice) (correlationId : Option String) :
    Request → Pc → Db → Pc → Prop
  /-- The request is rejected. -/
  | reject {r : Request} {pc : Pc} (hpc : pc.final = false) (e : Failure) :
      Advance db now c correlationId r pc db (.rejected e)
  /-- An order creation has found its restaurant. -/
  | restaurant {user : AuthenticatedUser} {dto : CreateOrderDto}
      (hdto : OrdersService.create dto = .ok ()) :
      Advance db now c correlationId (.createOrder user dto) .start db .createMenu
  /-- An order creation has priced its lines. -/
  | priced {user : AuthenticatedUser} {dto : CreateOrderDto}
      {lineItems : List OrdersRepository.LineItem}
      (h : OrdersRepository.priceItems dto (OrdersRepository.findMenuItems db dto) =
        .ok lineItems) :
      Advance db now c correlationId (.createOrder user dto) .createMenu db
        (.createWrite lineItems)
  /-- An order creation commits. -/
  | created {user : AuthenticatedUser} {dto : CreateOrderDto}
      {lineItems : List OrdersRepository.LineItem} {db' : Db} {o : Order}
      (h : Commits (OrdersRepository.createWrite user.id dto correlationId lineItems c.fresh now)
        db o db') :
      Advance db now c correlationId (.createOrder user dto) (.createWrite lineItems) db'
        (.returned (.order o))
  /-- A status change has passed its checks. -/
  | checked {user : AuthenticatedUser} {id : UuidText} {dto : UpdateOrderStatusDto}
      {current : Order}
      (h : OrdersService.updateStatus user dto (OrdersRepository.findById db id) = .ok current) :
      Advance db now c correlationId (.updateStatus user id dto) .start db (.statusWrite current)
  /-- A status change commits. -/
  | updated {user : AuthenticatedUser} {id : UuidText} {dto : UpdateOrderStatusDto}
      {current : Order} {db' : Db} {o : Order}
      (h : Commits (OrdersRepository.updateStatus id dto.version dto.status user.id correlationId
        c.fresh now) db o db') :
      Advance db now c correlationId (.updateStatus user id dto) (.statusWrite current) db'
        (.returned (.order o))
  /-- A payment has passed its checks on the order. -/
  | authorized {user : AuthenticatedUser} {orderId : UuidText} {key : Option String}
      {dto : CompletePaymentDto} {k : String} {order : Order}
      (hkey : PaymentsService.checkKey key = .ok k)
      (h : PaymentsService.authorize user (OrdersRepository.findById db orderId) = .ok order) :
      Advance db now c correlationId (.completePayment user orderId key dto) .start db
        (.paymentLookup k order)
  /-- A payment is answered with the one already recorded under its key. -/
  | replayed {user : AuthenticatedUser} {orderId : UuidText} {key : Option String}
      {dto : CompletePaymentDto} {k : String} {order : Order} {existing p : Payment}
      (hfind : PaymentsRepository.findByIdempotencyKey db k = some existing)
      (h : PaymentsService.replay orderId existing = .ok p) :
      Advance db now c correlationId (.completePayment user orderId key dto)
        (.paymentLookup k order) db (.returned (.payment p))
  /-- A payment has found its key unused. -/
  | unused {user : AuthenticatedUser} {orderId : UuidText} {key : Option String}
      {dto : CompletePaymentDto} {k : String} {order : Order}
      (hfind : PaymentsRepository.findByIdempotencyKey db k = none) :
      Advance db now c correlationId (.completePayment user orderId key dto)
        (.paymentLookup k order) db (.paymentBegin k)
  /-- A payment transaction takes its snapshot. -/
  | begun {user : AuthenticatedUser} {orderId : UuidText} {key : Option String}
      {dto : CompletePaymentDto} {k : String} :
      Advance db now c correlationId (.completePayment user orderId key dto)
        (.paymentBegin k) db (.paymentCommit k db)
  /-- A payment transaction commits. -/
  | paid {user : AuthenticatedUser} {orderId : UuidText} {key : Option String}
      {dto : CompletePaymentDto} {k : String} {snapshot db' : Db} {p : Payment}
      (h : Commits (PaymentsRepository.complete snapshot
        (paymentInput user orderId k dto correlationId) c.fresh now) db p db') :
      Advance db now c correlationId (.completePayment user orderId key dto)
        (.paymentCommit k snapshot) db' (.returned (.payment p))

variable {r : Request} {pc pc' : Pc}

/-- A check goes on with its value or rejects. -/
theorem Advance.orReject {α : Type} {x : Except Failure α} {k : α → Pc}
    (hpc : pc.final = false) (h : ∀ a, x = .ok a → Advance db now c correlationId r pc db (k a)) :
    Advance db now c correlationId r pc db (orReject x k) := by
  cases x with
  | ok a => exact h a rfl
  | error e => exact .reject hpc e

/-- A read goes on or rejects. -/
theorem Advance.read (hpc : pc.final = false) (h : Advance db now c correlationId r pc db pc') :
    Advance db now c correlationId r pc db (read c pc') := by
  unfold ScaleForge.read
  split
  · exact .reject hpc _
  · exact h

/-- A transaction commits or rejects with the rows as they were. -/
theorem Advance.commit {α : Type} {body : DbTx α} {respond : α → Response}
    (hpc : pc.final = false) (h : ∀ a db', Commits body db a db' →
      Advance db now c correlationId r pc db' (.returned (respond a))) :
    Advance db now c correlationId r pc (commit c db body respond).1
      (commit c db body respond).2 := by
  unfold ScaleForge.commit
  cases ht : (transaction body c.fuse db).1 with
  | ok a => exact h a _ (commits_of_transaction ht)
  | error e =>
    rw [transaction_error ht]
    exact .reject hpc e

/-- **The ways one step of a request can go.** -/
theorem advance_cases (h : advance db now c correlationId r pc = some (db', pc')) :
    Advance db now c correlationId r pc db' pc' := by
  unfold advance at h
  split at h <;> cases h
  case h_1 =>
    exact .orReject rfl fun _ hdto => .read rfl (.orReject rfl fun _ _ => .restaurant hdto)
  case h_2 => exact .read rfl (.orReject rfl fun _ h => .priced h)
  case h_3 => exact .commit rfl fun _ _ h => .created h
  case h_4 => exact .read rfl (.orReject rfl fun _ h => .checked h)
  case h_5 => exact .commit rfl fun _ _ h => .updated h
  case h_6 =>
    exact .orReject rfl fun _ hkey => .read rfl (.orReject rfl fun _ h => .authorized hkey h)
  case h_7 =>
    refine .read rfl ?_
    split
    · next hfind => exact .orReject rfl fun _ h => .replayed hfind h
    · next hfind => exact .unused hfind
  case h_8 => exact .read rfl .begun
  case h_9 => exact .commit rfl fun _ _ h => .paid h

/-- A request that has come to its end takes no further step. -/
theorem Advance.not_final (h : Advance db now c correlationId r pc db' pc') :
    pc.final = false := by
  cases h with
  | reject hpc => exact hpc
  | _ => rfl

/-- A step of a request that changes the rows is its last one, and it returns. -/
theorem Advance.returned_of_ne (h : Advance db now c correlationId r pc db' pc')
    (hne : db' ≠ db) : ∃ response, pc' = .returned response := by
  cases h with
  | created h => exact ⟨_, rfl⟩
  | updated h => exact ⟨_, rfl⟩
  | paid h => exact ⟨_, rfl⟩
  | _ => exact absurd rfl hne

end Advance

namespace World

variable {w w' : World}

/-- The step of a request, taken apart. -/
theorem step_advance {i : ℕ} {c : Choice} (h : w.step (.advance i c) = some w') :
    ∃ call db' pc', w.calls i = some call ∧
      Advance w.db w.clock c call.correlationId call.request call.pc db' pc' ∧
      w' = w.move i call db' pc' := by
  simp only [step] at h
  split at h
  · cases h
  · next call hcall =>
    rw [Option.map_eq_some_iff] at h
    obtain ⟨⟨db', pc'⟩, hadv, rfl⟩ := h
    exact ⟨call, db', pc', hcall, advance_cases hadv, rfl⟩

/-- The arrival of a request, taken apart. -/
theorem step_request {i : ℕ} {r : Request} {correlationId : Option String}
    (h : w.step (.request i r correlationId) = some w') :
    w.calls i = none ∧ w' = w.accept i r correlationId := by
  simp only [step] at h
  split at h
  · next hnone => exact ⟨hnone, (Option.some.inj h).symm⟩
  · cases h

/-- The step of a poller, taken apart. -/
theorem step_poll {j : ℕ} {a : PollAction} (h : w.step (.poll j a) = some w') :
    ∃ p rows confirmed,
      OutboxPublisherService.step j w.clock w.db.outboxEvents (w.pollers j) a =
        some (p, rows, confirmed) ∧
      w' = w.polled j p rows confirmed := by
  simp only [step, Option.map_eq_some_iff] at h
  obtain ⟨⟨p, rows, confirmed⟩, hstep, rfl⟩ := h
  exact ⟨p, rows, confirmed, hstep, rfl⟩

/-- A call changes in a step only when the call arrives or runs. -/
theorem calls_of_step {a : Action} (h : w.step a = some w') (i : ℕ) :
    w'.calls i = w.calls i ∨ (∃ r correlationId, a = .request i r correlationId) ∨
      ∃ c, a = .advance i c := by
  cases a with
  | request i' r correlationId =>
    obtain ⟨-, rfl⟩ := step_request h
    by_cases hi : i = i'
    · subst hi
      exact Or.inr (Or.inl ⟨r, correlationId, rfl⟩)
    · exact Or.inl (accept_calls_of_ne w hi r correlationId)
  | advance i' c =>
    obtain ⟨call', db', pc', -, -, rfl⟩ := step_advance h
    by_cases hi : i = i'
    · subst hi
      exact Or.inr (Or.inr ⟨c, rfl⟩)
    · exact Or.inl (move_calls_of_ne w hi call' db' pc')
  | poll j a =>
    obtain ⟨p, rows, confirmed, -, rfl⟩ := step_poll h
    exact Or.inl rfl
  | _ => cases h; exact Or.inl rfl

/-- What a call was asked for never changes. -/
theorem step_request_stable {a : Action} (h : w.step a = some w') {i : ℕ} {r : Request}
    {correlationId : Option String} (hcall : ∃ pc, w.calls i = some ⟨r, correlationId, pc⟩) :
    ∃ pc, w'.calls i = some ⟨r, correlationId, pc⟩ := by
  obtain ⟨pc, hcall⟩ := hcall
  rcases calls_of_step h i with hsame | ⟨r', correlationId', rfl⟩ | ⟨c, rfl⟩
  · exact ⟨pc, hsame.trans hcall⟩
  · rw [(step_request h).1] at hcall
    cases hcall
  · obtain ⟨call, db', pc', hcall', -, rfl⟩ := step_advance h
    rw [hcall, Option.some.injEq] at hcall'
    subst hcall'
    exact ⟨pc', move_calls_self w i _ db' pc'⟩

/-- A request that has come to its end stays there. -/
theorem step_final {a : Action} (h : w.step a = some w') {i : ℕ} {call : Call}
    (hcall : w.calls i = some call) (hfinal : call.pc.final = true) :
    w'.calls i = some call := by
  rcases calls_of_step h i with hsame | ⟨r, correlationId, rfl⟩ | ⟨c, rfl⟩
  · exact hsame.trans hcall
  · rw [(step_request h).1] at hcall
    cases hcall
  · obtain ⟨call', db', pc', hcall', hadv, -⟩ := step_advance h
    rw [hcall, Option.some.injEq] at hcall'
    rw [hcall', hadv.not_final] at hfinal
    cases hfinal

end World

/-- A request that has arrived in a run is there at its end. -/
theorem exists_call_of_request {w w' u u' : World} {as : List Action} {i : ℕ} {r : Request}
    {correlationId : Option String} (hw : system.Reachable w) (h : system.exec w as = some w')
    (htakes : system.Takes w as u (.request i r correlationId) u') :
    ∃ pc, w'.calls i = some ⟨r, correlationId, pc⟩ := by
  have hstep : u.step (.request i r correlationId) = some u' := htakes.step
  obtain ⟨-, cs, -, hrest⟩ := htakes.split
  refine Transition.Sys.exec_stable
    (I := fun v => ∃ pc, v.calls i = some ⟨r, correlationId, pc⟩)
    (fun _ _ _ _ hI hs => World.step_request_stable hs hI)
    ((htakes.reachable hw).step htakes.step) ⟨.start, ?_⟩ (hrest w' h)
  rw [(World.step_request hstep).2, World.accept_calls_self]

/-- **A request that has not returned has changed nothing.**  Whichever of its
steps one looks at, if at the end of the run it has not returned, that step left
the rows alone. -/
theorem unchanged_of_not_returned {w w₁ w₂ : World} {i : ℕ} {c : Choice} {as : List Action}
    (hw : system.Reachable w) (h : system.step w (.advance i c) = some w₁)
    (hexec : system.exec w₁ as = some w₂) {call : Call} (hcall : w₂.calls i = some call)
    (hnot : ∀ response, call.pc ≠ .returned response) : w₁.db = w.db := by
  have hw₁ := hw.step h
  obtain ⟨call', db', pc', -, hadv, rfl⟩ := World.step_advance h
  by_contra hne
  obtain ⟨response, rfl⟩ := hadv.returned_of_ne hne
  -- the request has returned, and stays so to the end of the run
  have hstay : w₂.calls i = some { call' with pc := .returned response } :=
    Transition.Sys.exec_stable
      (I := fun v => v.calls i = some { call' with pc := .returned response })
      (fun _ _ _ _ hv hstep => World.step_final hstep hv rfl) hw₁
      (World.move_calls_self w i call' db' _) hexec
  rw [hcall, Option.some.injEq] at hstay
  exact hnot response (by rw [hstay])

/-- **A request that is rejected changes nothing.** -/
theorem unchanged_of_rejected {w w₁ w₂ : World} {i : ℕ} {c : Choice} {as : List Action}
    (hw : system.Reachable w) (h : system.step w (.advance i c) = some w₁)
    (hexec : system.exec w₁ as = some w₂) {call : Call} {e : Failure}
    (hcall : w₂.calls i = some call) (hrej : call.pc = .rejected e) : w₁.db = w.db :=
  unchanged_of_not_returned hw h hexec hcall fun response hreturned => by
    rw [hrej] at hreturned
    cases hreturned

/-! ### A small instance

One restaurant with one dish, a customer and a manager: the runs below that show
something possible start from it. -/

/-- One restaurant, one dish, no orders. -/
def World.sample : World where
  clock := 0
  db :=
    { restaurants := [⟨Uuid.repeated 1, true⟩]
      menuItems := [⟨Uuid.repeated 2, Uuid.repeated 1, "Resilience Bowl", ⟨1250⟩, true⟩]
      orders := []
      orderItems := []
      payments := []
      auditLogs := []
      outboxEvents := [] }
  calls := fun _ => none
  pollers := fun _ => .idle
  confirmed := []

theorem World.sample_initial : World.sample.Initial :=
  ⟨rfl, rfl, rfl, rfl, rfl, fun _ => rfl, fun _ => rfl, rfl⟩

theorem World.sample_reachable : system.Reachable World.sample := .init World.sample_initial

/-- No fault, and all identifiers drawn from one nibble. -/
def Choice.sample (n : ℕ) : Choice where
  fuse := none
  fresh := ⟨Uuid.repeated n, Uuid.repeated n, Uuid.repeated n, fun _ => Uuid.repeated n⟩

/-- The customer. -/
def customer : AuthenticatedUser := ⟨Uuid.repeated 5, .user⟩

/-- The manager. -/
def manager : AuthenticatedUser := ⟨Uuid.repeated 6, .manager⟩

/-- The customer orders the dish twice. -/
def Request.sampleOrder : Request :=
  .createOrder customer
    ⟨(Uuid.repeated 1).text, [⟨(Uuid.repeated 2).text, 2, by decide, by decide⟩], by decide,
      by decide⟩

/-- Request `0` creates the order, whose id repeats the nibble `3`. -/
def Action.sampleOrder : List Action :=
  [.request 0 .sampleOrder none, .advance 0 (.sample 3), .advance 0 (.sample 3),
    .advance 0 (.sample 3)]

/-- A payment request under a key. -/
def Request.samplePayment (orderId : UuidText) (key : String) : Request :=
  .completePayment customer orderId (some key) ⟨none, nofun⟩

/-- A payment by the customer, as request `i`, whose steps all draw from `n`. -/
def Action.samplePayment (i : ℕ) (orderId : UuidText) (key : String) (n : ℕ) : List Action :=
  .request i (.samplePayment orderId key) none :: List.replicate 4 (.advance i (.sample n))

/-- A status change of that order from its version `v + 1`, as request `i`, run to its
end. -/
def Action.sampleStatus (i : ℕ) (status : OrderStatus) (v n : ℕ) : List Action :=
  [.request i (.updateStatus manager (Uuid.repeated 3).text
      ⟨status, v + 1, Nat.le_add_left 1 v⟩) none,
    .advance i (.sample n), .advance i (.sample n)]

end ScaleForge
