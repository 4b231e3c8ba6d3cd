import ScaleForge.World

/-!
# How the rows evolve

A step of the system changes the rows in one of five ways: the catalog is
edited, an order is created, a status is changed, a payment is recorded, or a
poller writes the outbox.  From that list come the facts every later argument
rests on: the keys of the tables stay unique, and the rows only grow along a
preorder.  An order row keeps its identity and either stays as it is or moves
to a larger version, payments and audit rows are never touched again, and an
outbox row keeps its event.

A request works with rows it read some steps ago.  What it knows about them is
that they have evolved into the present ones, and that is an invariant
(`Pc.Ok`).

## Main definitions

* `Change w db'` — the ways a step from `w` can change the rows to `db'`.
* `Db.Keys` — the unique keys of the tables.
* `Order.Evolves`, `Db.Evolves` — the preorder the rows move along.
* `Pc.Ok` — what a request knows at each of its awaits.

## Main results

* `change_of_step` — every step is one of those changes.
* `keys_of_reachable`, `evolves_of_step`, `evolves_of_exec`.
* `polls_of_step` — a step is a poller's, or it only adds rows to the outbox.
* `ok_of_reachable` — every request in flight knows what `Pc.Ok` says.
-/

namespace ScaleForge

open Transaction

/-! ### The changes -/

/-- The ways a step from `w` can change the rows. -/
inductive Change (w : World) : Db → Prop
  /-- At most the catalog is edited. -/
  | catalog (restaurants : List Restaurant) (menuItems : List MenuItem) :
      Change w { w.db with restaurants := restaurants, menuItems := menuItems }
  /-- An order is created. -/
  | created {i : ℕ} {user : AuthenticatedUser} {dto : CreateOrderDto}
      {correlationId : Option String} {lineItems : List OrdersRepository.LineItem}
      {fresh : FreshIds} {o : Order} {db' : Db}
      (hcall : w.calls i = some ⟨.createOrder user dto, correlationId, .createWrite lineItems⟩)
      (h : Commits (OrdersRepository.createWrite user.id dto correlationId lineItems fresh
        w.clock) w.db o db') : Change w db'
  /-- A status is changed. -/
  | updated {i : ℕ} {user : AuthenticatedUser} {id : UuidText} {dto : UpdateOrderStatusDto}
      {correlationId : Option String} {current : Order} {fresh : FreshIds} {o : Order} {db' : Db}
      (hcall : w.calls i = some ⟨.updateStatus user id dto, correlationId, .statusWrite current⟩)
      (h : Commits (OrdersRepository.updateStatus id dto.version dto.status user.id correlationId
        fresh w.clock) w.db o db') : Change w db'
  /-- A payment is recorded. -/
  | paid {i : ℕ} {user : AuthenticatedUser} {orderId : UuidText} {key : Option String}
      {dto : CompletePaymentDto} {correlationId : Option String} {k : String} {snapshot : Db}
      {fresh : FreshIds} {p : Payment} {db' : Db}
      (hcall : w.calls i =
        some ⟨.completePayment user orderId key dto, correlationId, .paymentCommit k snapshot⟩)
      (h : Commits (PaymentsRepository.complete snapshot
        (paymentInput user orderId k dto correlationId) fresh w.clock) w.db p db') : Change w db'
  /-- A poller writes the outbox. -/
  | polled {j : ℕ} {rows : List OutboxEvent}
      (h : OutboxPublisherService.Writes j w.clock (w.pollers j) w.db.outboxEvents rows) :
      Change w { w.db with outboxEvents := rows }

/-- The rows stay as they are. -/
theorem Change.refl (w : World) : Change w w.db := .catalog w.db.restaurants w.db.menuItems

/-- What a step of a request does to the rows. -/
theorem change_of_advance {w : World} {i : ℕ} {c : Choice} {call : Call} {db' : Db} {pc' : Pc}
    (hcall : w.calls i = some call)
    (h : Advance w.db w.clock c call.correlationId call.request call.pc db' pc') :
    Change w db' := by
  obtain ⟨request, correlationId, pc⟩ := call
  cases h with
  | created h => exact .created hcall h
  | updated h => exact .updated hcall h
  | paid h => exact .paid hcall h
  | _ => exact .refl w

/-- **Every step changes the rows in one of these ways.** -/
theorem change_of_step {w w' : World} {a : Action} (h : w.step a = some w') :
    Change w w'.db := by
  cases a with
  | tick ms => cases h; exact .refl w
  | setRestaurant r => cases h; exact .catalog _ _
  | setMenuItem m => cases h; exact .catalog _ _
  | request i r correlationId =>
    obtain ⟨-, rfl⟩ := World.step_request h
    exact .refl w
  | advance i c =>
    obtain ⟨call, db', pc', hcall, hadv, rfl⟩ := World.step_advance h
    exact change_of_advance hcall hadv
  | poll j a =>
    obtain ⟨p, rows, confirmed, hstep, rfl⟩ := World.step_poll h
    exact .polled (OutboxPublisherService.writes_of_step hstep)

/-! ### Unique keys -/

/-- The unique keys of the tables. -/
structure Db.Keys (db : Db) : Prop where
  orders : Table.UniqueOn Order.id db.orders
  payments : Table.UniqueOn Payment.id db.payments
  idempotencyKeys : Table.UniqueOn Payment.idempotencyKey db.payments
  auditLogs : Table.UniqueOn AuditLog.id db.auditLogs
  outboxEvents : Table.UniqueOn OutboxEvent.id db.outboxEvents

/-- Confirming a paid order keeps the keys of the orders. -/
theorem uniqueOn_paidOrders {order : Order} {orders : List Order}
    (h : Table.UniqueOn Order.id orders) :
    Table.UniqueOn Order.id (PaymentsRepository.paidOrders order orders) := by
  unfold PaymentsRepository.paidOrders
  split
  · exact Table.uniqueOn_update h fun _ _ _ => rfl
  · exact h

/-- The writes of a poller keep the event of every row. -/
theorem OutboxPublisherService.Writes.eq_update {j : ℕ} {now : ℕ} {p : Poller}
    {rows rows' : List OutboxEvent} (h : Writes j now p rows rows') :
    ∃ q f, rows' = Table.update q f rows ∧ ∀ e, (f e).leased = { e.leased with
      attempts := (f e).attempts } := by
  cases h with
  | same => exact ⟨fun _ => false, id, (Table.update_eq_self fun _ _ => rfl).symm, fun _ => rfl⟩
  | lease skipped => exact ⟨_, _, rfl, fun _ => rfl⟩
  | mark record rest publishedAt => exact ⟨_, _, rfl, fun _ => rfl⟩
  | defer record rest nextAttemptAt lastError => exact ⟨_, _, rfl, fun _ => rfl⟩

/-- **Every change keeps the keys unique.** -/
theorem Change.keys {w : World} {db' : Db} (h : Change w db') (hk : w.db.Keys) : db'.Keys := by
  cases h with
  | catalog => exact ⟨hk.1, hk.2, hk.3, hk.4, hk.5⟩
  | created hcall h =>
    obtain ⟨-, hid, haudit, hevent, rfl⟩ := OrdersRepository.createWrite_commits h
    exact ⟨Table.uniqueOn_append_singleton.mpr ⟨hk.1, hid⟩, hk.2, hk.3,
      Table.uniqueOn_append_singleton.mpr ⟨hk.4, haudit⟩,
      Table.uniqueOn_append_singleton.mpr ⟨hk.5, hevent⟩⟩
  | updated hcall h =>
    obtain ⟨-, haudit, -, -, rfl⟩ := OrdersRepository.updateStatus_commits h
    exact ⟨Table.uniqueOn_update hk.1 fun _ _ _ => rfl, hk.2, hk.3,
      Table.uniqueOn_append_singleton.mpr ⟨hk.4, haudit⟩, hk.5⟩
  | paid hcall h =>
    obtain ⟨order, -, -, -, hid, hkey, haudit, hevent, -, rfl⟩ :=
      PaymentsRepository.complete_commits h
    exact ⟨uniqueOn_paidOrders hk.1, Table.uniqueOn_append_singleton.mpr ⟨hk.2, hid⟩,
      Table.uniqueOn_append_singleton.mpr ⟨hk.3, hkey⟩,
      Table.uniqueOn_append_singleton.mpr ⟨hk.4, haudit⟩,
      Table.uniqueOn_append_singleton.mpr ⟨hk.5, hevent⟩⟩
  | polled h =>
    obtain ⟨q, f, rfl, hf⟩ := h.eq_update
    exact ⟨hk.1, hk.2, hk.3, hk.4,
      Table.uniqueOn_update hk.5 fun e _ _ => congrArg LeasedOutboxEvent.id (hf e)⟩

theorem World.Initial.keys {w : World} (h : w.Initial) : w.db.Keys := by
  obtain ⟨ho, -, hp, ha, he, -⟩ := h
  constructor
  · rw [ho]; exact Table.uniqueOn_nil _
  · rw [hp]; exact Table.uniqueOn_nil _
  · rw [hp]; exact Table.uniqueOn_nil _
  · rw [ha]; exact Table.uniqueOn_nil _
  · rw [he]; exact Table.uniqueOn_nil _

theorem keys_of_reachable {w : World} (hw : system.Reachable w) : w.db.Keys :=
  hw.invariant (I := fun w => w.db.Keys) (fun _ h => World.Initial.keys h)
    (fun _ _ _ _ hk h => (change_of_step h).keys hk)

/-! ### The preorder of the rows -/

/-- An order row is what it was, or has moved to a larger version with nothing
but its status changed. -/
def Order.Evolves (o o' : Order) : Prop :=
  o' = o ∨ o.version < o'.version ∧ o' = { o with status := o'.status, version := o'.version }

theorem Order.Evolves.refl (o : Order) : o.Evolves o := Or.inl rfl

theorem Order.Evolves.trans {o o' o'' : Order} (h : o.Evolves o') (h' : o'.Evolves o'') :
    o.Evolves o'' := by
  rcases h with rfl | ⟨hlt, he⟩
  · exact h'
  · rcases h' with rfl | ⟨hlt', he'⟩
    · exact Or.inr ⟨hlt, he⟩
    · refine Or.inr ⟨hlt.trans hlt', ?_⟩
      rw [he', he]

/-- The columns of an order that no write touches. -/
theorem Order.Evolves.fixed {o o' : Order} (h : o.Evolves o') :
    o'.id = o.id ∧ o'.userId = o.userId ∧ o'.restaurantId = o.restaurantId ∧
      o'.totalAmount = o.totalAmount := by
  rcases h with rfl | ⟨-, he⟩
  · exact ⟨rfl, rfl, rfl, rfl⟩
  · rw [he]
    exact ⟨rfl, rfl, rfl, rfl⟩

/-- A row that is still at the version read is the row read. -/
theorem Order.Evolves.eq_of_version {o o' : Order} (h : o.Evolves o')
    (hv : o'.version ≤ o.version) : o' = o := by
  rcases h with rfl | ⟨hlt, -⟩
  · rfl
  · omega

theorem Order.evolves_bump (status : OrderStatus) (o : Order) :
    o.Evolves (OrdersRepository.bump status o) :=
  Or.inr ⟨Nat.lt_succ_self _, rfl⟩

/-- The preorder the rows move along. -/
structure Db.Evolves (db db' : Db) : Prop where
  orders : ∀ o ∈ db.orders, ∃ o' ∈ db'.orders, o.Evolves o'
  payments : db.payments <+: db'.payments
  auditLogs : db.auditLogs <+: db'.auditLogs
  outboxEvents : ∀ e ∈ db.outboxEvents, ∃ e' ∈ db'.outboxEvents,
    e'.leased = { e.leased with attempts := e'.attempts }

theorem Db.Evolves.refl (db : Db) : db.Evolves db :=
  ⟨fun o ho => ⟨o, ho, .refl o⟩, List.prefix_refl _, List.prefix_refl _,
    fun e he => ⟨e, he, rfl⟩⟩

theorem Db.Evolves.trans {db db' db'' : Db} (h : db.Evolves db') (h' : db'.Evolves db'') :
    db.Evolves db'' := by
  refine ⟨?_, h.payments.trans h'.payments, h.auditLogs.trans h'.auditLogs, ?_⟩
  · intro o ho
    obtain ⟨o', ho', he⟩ := h.orders o ho
    obtain ⟨o'', ho'', he'⟩ := h'.orders o' ho'
    exact ⟨o'', ho'', he.trans he'⟩
  · intro e he
    obtain ⟨e', he', hl⟩ := h.outboxEvents e he
    obtain ⟨e'', he'', hl'⟩ := h'.outboxEvents e' he'
    exact ⟨e'', he'', by rw [hl', hl]⟩

/-- Updating orders along the preorder. -/
theorem evolves_update {p : Order → Bool} {status : OrderStatus} {orders : List Order} {o : Order}
    (ho : o ∈ orders) :
    ∃ o' ∈ Table.update p (OrdersRepository.bump status) orders, o.Evolves o' := by
  refine ⟨_, Table.mem_update.mpr ⟨o, ho, rfl⟩, ?_⟩
  split
  · exact Order.evolves_bump status o
  · exact .refl o

theorem evolves_paidOrders {order : Order} {orders : List Order} {o : Order} (ho : o ∈ orders) :
    ∃ o' ∈ PaymentsRepository.paidOrders order orders, o.Evolves o' := by
  unfold PaymentsRepository.paidOrders
  split
  · exact evolves_update ho
  · exact ⟨o, ho, .refl o⟩

/-- **Every change moves the rows along the preorder.** -/
theorem Change.evolves {w : World} {db' : Db} (h : Change w db') : w.db.Evolves db' := by
  cases h with
  | catalog => exact ⟨(Db.Evolves.refl w.db).1, List.prefix_refl _, List.prefix_refl _,
      (Db.Evolves.refl w.db).4⟩
  | created hcall h =>
    obtain ⟨-, -, -, -, rfl⟩ := OrdersRepository.createWrite_commits h
    exact ⟨fun o ho => ⟨o, List.mem_append_left _ ho, .refl o⟩, List.prefix_refl _,
      List.prefix_append _ _, fun e he => ⟨e, List.mem_append_left _ he, rfl⟩⟩
  | updated hcall h =>
    obtain ⟨-, -, -, -, rfl⟩ := OrdersRepository.updateStatus_commits h
    exact ⟨fun o ho => evolves_update ho, List.prefix_refl _, List.prefix_append _ _,
      fun e he => ⟨e, he, rfl⟩⟩
  | paid hcall h =>
    obtain ⟨order, -, -, -, -, -, -, -, -, rfl⟩ := PaymentsRepository.complete_commits h
    exact ⟨fun o ho => evolves_paidOrders ho, List.prefix_append _ _, List.prefix_append _ _,
      fun e he => ⟨e, List.mem_append_left _ he, rfl⟩⟩
  | polled h =>
    obtain ⟨q, f, rfl, hf⟩ := h.eq_update
    refine ⟨(Db.Evolves.refl w.db).1, List.prefix_refl _, List.prefix_refl _, ?_⟩
    intro e he
    refine ⟨_, Table.mem_update.mpr ⟨e, he, rfl⟩, ?_⟩
    split
    · exact hf e
    · rfl

/-- A request only adds rows to the outbox. -/
theorem Advance.outbox_subset {db db' : Db} {now : ℕ} {c : Choice}
    {correlationId : Option String} {r : Request} {pc pc' : Pc}
    (h : Advance db now c correlationId r pc db' pc') :
    db.outboxEvents ⊆ db'.outboxEvents := by
  cases h with
  | created h =>
    obtain ⟨-, -, -, -, rfl⟩ := OrdersRepository.createWrite_commits h
    exact List.subset_append_left _ _
  | updated h =>
    obtain ⟨-, -, -, -, rfl⟩ := OrdersRepository.updateStatus_commits h
    exact List.Subset.refl _
  | paid h =>
    obtain ⟨order, -, -, -, -, -, -, -, -, rfl⟩ := PaymentsRepository.complete_commits h
    exact List.subset_append_left _ _
  | _ => exact List.Subset.refl _

/-- A step is a poller's, or it only adds rows to the outbox and moves no poller. -/
theorem polls_of_step {w w' : World} {a : Action} (h : w.step a = some w') :
    (∃ i b p rows new, a = .poll i b ∧
      OutboxPublisherService.Polls i w.clock w.db.outboxEvents (w.pollers i) b p rows new ∧
      w' = w.polled i p rows new) ∨
    (∀ i b, a ≠ .poll i b) ∧ w.db.outboxEvents ⊆ w'.db.outboxEvents ∧
      w'.pollers = w.pollers := by
  cases a with
  | poll i b =>
    obtain ⟨p, rows, new, hpoll, rfl⟩ := World.step_poll h
    exact Or.inl ⟨i, b, p, rows, new, rfl,
      OutboxPublisherService.step_cases hpoll, rfl⟩
  | advance i c =>
    obtain ⟨call, db', pc', -, hadv, rfl⟩ := World.step_advance h
    exact Or.inr ⟨fun _ _ => Action.noConfusion, hadv.outbox_subset, rfl⟩
  | request i r correlationId =>
    obtain ⟨-, rfl⟩ := World.step_request h
    exact Or.inr ⟨fun _ _ => Action.noConfusion, List.Subset.refl _, rfl⟩
  | _ => cases h; exact Or.inr ⟨fun _ _ => Action.noConfusion, List.Subset.refl _, rfl⟩

/-- **The rows at two points of a run.** -/
theorem evolves_of_exec {w w' : World} {as : List Action} (hw : system.Reachable w)
    (h : system.exec w as = some w') : w.db.Evolves w'.db :=
  Transition.Sys.exec_rel (R := fun w w' => w.db.Evolves w'.db) (fun w => .refl w.db)
    (fun _ _ _ h h' => h.trans h') (fun _ _ _ _ h => (change_of_step h).evolves) hw h

/-! ### What a request knows -/

/-- The checks of `PaymentsService.complete` on the order hold. -/
def Payable (db : Db) (user : AuthenticatedUser) (orderId : UuidText) : Prop :=
  ∃ o ∈ db.orders, o.id = orderId.value ∧ (user.role = .user → o.userId = user.id)

theorem Payable.mono {db db' : Db} {user : AuthenticatedUser} {orderId : UuidText}
    (h : Payable db user orderId) (he : db.Evolves db') : Payable db' user orderId := by
  obtain ⟨o, ho, hid, hown⟩ := h
  obtain ⟨o', ho', hev⟩ := he.orders o ho
  obtain ⟨hid', huser, -, -⟩ := hev.fixed
  exact ⟨o', ho', hid'.trans hid, fun hr => huser.trans (hown hr)⟩

/-- What a request knows at each of its awaits: the checks it has passed, and
that the rows it holds have evolved into the present ones. -/
def Pc.Ok (db : Db) : Request → Pc → Prop
  | .updateStatus user id dto, .statusWrite current =>
    current.id = id.value ∧ dto.status ∈ transitions current.status ∧
      (user.role = .user → current.userId = user.id ∧ dto.status = .cancelled) ∧
      ∃ o ∈ db.orders, current.Evolves o
  | .completePayment user orderId key _, .paymentLookup k _ =>
    PaymentsService.checkKey key = .ok k ∧ Payable db user orderId
  | .completePayment user orderId key _, .paymentBegin k =>
    PaymentsService.checkKey key = .ok k ∧ Payable db user orderId
  | .completePayment user orderId key _, .paymentCommit k snapshot =>
    PaymentsService.checkKey key = .ok k ∧ Payable snapshot user orderId ∧
      snapshot.Keys ∧ snapshot.Evolves db
  | .completePayment _ orderId key _, .returned (.payment p) =>
    PaymentsService.checkKey key = .ok p.idempotencyKey ∧ p ∈ db.payments ∧
      p.orderId = orderId.value
  | .completePayment _ _ _ _, .returned (.order _) => False
  | _, _ => True

/-- What a request knows stays true while others run. -/
theorem Pc.Ok.mono {db db' : Db} {r : Request} {pc : Pc} (h : pc.Ok db r)
    (he : db.Evolves db') : pc.Ok db' r := by
  unfold Pc.Ok at h ⊢
  split
  · next current =>
    obtain ⟨hid, ht, hown, o, ho, hev⟩ := h
    obtain ⟨o', ho', hev'⟩ := he.orders o ho
    exact ⟨hid, ht, hown, o', ho', hev.trans hev'⟩
  · exact ⟨h.1, h.2.mono he⟩
  · exact ⟨h.1, h.2.mono he⟩
  · exact ⟨h.1, h.2.1, h.2.2.1, h.2.2.2.trans he⟩
  · exact ⟨h.1, he.payments.subset h.2.1, h.2.2⟩
  · exact h
  · trivial

/-- A status change that passes its checks. -/
theorem updateStatus_eq_ok {user : AuthenticatedUser} {dto : UpdateOrderStatusDto}
    {found : Option Order} {current : Order}
    (h : OrdersService.updateStatus user dto found = .ok current) :
    found = some current ∧ dto.status ∈ transitions current.status ∧
      (user.role = .user → current.userId = user.id ∧ dto.status = .cancelled) := by
  unfold OrdersService.updateStatus at h
  split at h
  · cases h
  · next o =>
    split at h
    · cases h
    · next hown =>
      split at h
      · cases h
      · next ht =>
        cases h
        refine ⟨rfl, not_not.mp ht, fun hr => ?_⟩
        push Not at hown
        exact hown hr

/-- A payment that passes its checks on the order. -/
theorem authorize_eq_ok {user : AuthenticatedUser} {found : Option Order} {order : Order}
    (h : PaymentsService.authorize user found = .ok order) :
    found = some order ∧ (user.role = .user → order.userId = user.id) := by
  unfold PaymentsService.authorize at h
  split at h
  · cases h
  · split at h
    · cases h
    · next hown =>
      cases h
      refine ⟨rfl, fun hr => ?_⟩
      push Not at hown
      exact hown hr

/-- A replay answers with the stored payment, whose order id is the spelling of
the request. -/
theorem replay_eq_ok {orderId : UuidText} {existing p : Payment} :
    PaymentsService.replay orderId existing = .ok p ↔
      p = existing ∧ existing.orderId.text = orderId := by
  unfold PaymentsService.replay
  split
  · next h =>
    simp only [reduceCtorEq, false_iff]
    rintro ⟨-, he⟩
    exact h he
  · next h =>
    rw [not_not] at h
    simp only [Except.ok.injEq, h, and_true]
    exact eq_comm

/-- **One step of a request establishes what it knows next.** -/
theorem Advance.ok {db db' : Db} {now : ℕ} {c : Choice} {correlationId : Option String}
    {r : Request} {pc pc' : Pc} (h : Advance db now c correlationId r pc db' pc')
    (hk : db.Keys) (hok : pc.Ok db r) : pc'.Ok db' r := by
  cases h with
  | reject e => cases r <;> trivial
  | restaurant => trivial
  | priced => trivial
  | created => trivial
  | checked h =>
    obtain ⟨hfound, ht, hown⟩ := updateStatus_eq_ok h
    obtain ⟨hmem, hid⟩ := Table.find_mem hfound
    exact ⟨hid, ht, hown, _, hmem, .refl _⟩
  | updated => trivial
  | authorized hkey h =>
    obtain ⟨hfound, hown⟩ := authorize_eq_ok h
    obtain ⟨hmem, hid⟩ := Table.find_mem hfound
    exact ⟨hkey, _, hmem, hid, hown⟩
  | replayed hfind h =>
    obtain ⟨hmem, hkey⟩ := Table.find_mem hfind
    obtain ⟨rfl, htext⟩ := replay_eq_ok.mp h
    refine ⟨hkey ▸ hok.1, hmem, ?_⟩
    rw [← htext, Uuid.value_text]
  | unused => exact hok
  | begun => exact ⟨hok.1, hok.2, hk, .refl _⟩
  | paid h =>
    obtain ⟨order, -, hid, rfl, -, -, -, -, -, rfl⟩ := PaymentsRepository.complete_commits h
    exact ⟨hok.1, List.mem_append_right _ (List.mem_singleton.mpr rfl), rfl⟩

/-- **Every request in flight knows what `Pc.Ok` says.** -/
theorem ok_of_reachable {w : World} (hw : system.Reachable w) :
    ∀ i call, w.calls i = some call → call.pc.Ok w.db call.request := by
  refine hw.invariant (I := fun w => ∀ i call, w.calls i = some call →
    call.pc.Ok w.db call.request) ?_ ?_
  · intro w h0 i call hcall
    obtain ⟨-, -, -, -, -, hcalls, -⟩ := h0
    rw [hcalls i] at hcall
    cases hcall
  · intro w a w' hw ih hstep i call hcall
    have he := (change_of_step hstep).evolves
    -- either this request has just moved, or it stands where it stood
    rcases World.calls_of_step hstep i with hsame | ⟨r, correlationId, rfl⟩ | ⟨c, rfl⟩
    · exact (ih i call (hsame.symm.trans hcall)).mono he
    · obtain ⟨-, rfl⟩ := World.step_request hstep
      rw [World.accept_calls_self] at hcall
      cases hcall
      cases r <;> trivial
    · obtain ⟨call', db', pc', hcall', hadv, rfl⟩ := World.step_advance hstep
      rw [World.move_calls_self] at hcall
      cases hcall
      exact hadv.ok (keys_of_reachable hw) (ih _ _ hcall')

end ScaleForge
