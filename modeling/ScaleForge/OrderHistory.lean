import ScaleForge.Completeness

/-!
# Versions and history of an order

Two transactions change the status of an order: `updateStatus`, which asks for
the version the client sent, and a payment, which asks that the row is still the
one it read.  Each adds one to the version, so no version is left twice, and no
update is lost.

`updateStatus` appends to the history of the order in the same transaction.  The
payment that confirms a pending order does not: it writes the audit row of the
payment only.  So the audit rows of an order tell its whole history exactly when
no payment has confirmed it.

## Main definitions

* `statusRows`, `orderHistory` — the audit rows of an order.
* `World.confirms` — the step commits a payment whose transaction read the order
  as pending.
* `OrderStep` — the ways a step can touch one order and its history.
* `StatusLog` — the status rows are in order of the versions they left.

## Main results

* `orderStep_of_step` — every step touches an order in one of those ways.
* `version_eq` — the version counts the status rows and the confirming payments.
* `no_lost_update` — **no update of an order is lost.**
* `history_complete_iff` — which orders have their whole history.
* `history_incomplete` — an order that has not.
-/

namespace ScaleForge

open Transaction Transition

/-! ### The audit rows of an order -/

/-- The status with a name. -/
def OrderStatus.ofName (s : String) : Option OrderStatus :=
  [pending, confirmed, preparing, ready, completed, cancelled].find? fun status => status.name = s

@[simp] theorem OrderStatus.ofName_name (status : OrderStatus) :
    ofName status.name = some status := by
  cases status <;> decide

/-- `metadata.previousVersion`. -/
def AuditLog.previousVersion (a : AuditLog) : Option ℤ :=
  match a.metadata.get "previousVersion" with
  | some (.num n) => some n
  | _ => none

/-- `metadata.status`. -/
def AuditLog.status (a : AuditLog) : Option OrderStatus :=
  (a.metadata.text? "status").bind OrderStatus.ofName

/-- The row is one of the order's, in whatever spelling of its id, for an action. -/
def AuditLog.ofOrder (action : String) (id : Uuid) (a : AuditLog) : Bool :=
  a.action = action && a.aggregateType = "Order" && id.spelledIn a.aggregateId

/-- The `ORDER_STATUS_UPDATED` rows of an order. -/
def statusRows (db : Db) (id : Uuid) : List AuditLog :=
  db.auditLogs.filter (AuditLog.ofOrder "ORDER_STATUS_UPDATED" id)

/-- The `ORDER_CREATED` rows of an order. -/
def createdRows (db : Db) (id : Uuid) : List AuditLog :=
  db.auditLogs.filter (AuditLog.ofOrder "ORDER_CREATED" id)

/-- The audit rows of an order that the request path wrote: its creation, then its
status changes in order of the versions they left. -/
def orderHistory (db : Db) (id : Uuid) : List AuditLog :=
  createdRows db id ++ (statusRows db id).insertionSort fun a b =>
    a.previousVersion.getD 0 ≤ b.previousVersion.getD 0

/-- The status a history ends with. -/
def replay (rows : List AuditLog) : Option OrderStatus :=
  rows.foldl (fun _ a => a.status) none

/-- The order with an identifier. -/
def World.order (w : World) (id : Uuid) : Option Order := Table.find Order.id id w.db.orders

theorem order_eq_some_iff {w : World} (hw : system.Reachable w) {id : Uuid} {o : Order} :
    w.order id = some o ↔ o ∈ w.db.orders ∧ o.id = id :=
  Table.find_eq_some_iff (keys_of_reachable hw).orders

/-- The step commits a payment whose transaction read the order as pending. -/
def World.confirms (id : Uuid) (w : World) (a : Action) (w' : World) : Bool :=
  match a with
  | .advance i _ =>
    match w.calls i with
    | some ⟨.completePayment _ orderId _ _, _, .paymentCommit _ snapshot⟩ =>
      orderId.value = id && w'.db.payments.length ≠ w.db.payments.length &&
        (Table.find Order.id id snapshot.orders).any fun o => o.status = .pending
    | _ => false
  | _ => false

/-- A step that records no payment confirms nothing. -/
theorem confirms_of_payments {w w' : World} (h : w'.db.payments = w.db.payments) (id : Uuid)
    (a : Action) : w.confirms id a w' = false := by
  unfold World.confirms
  split
  · split
    · rw [h]
      simp
    · rfl
  · rfl

/-! ### The rows of one transaction -/

@[simp] theorem ofOrder_statusAudit {t : UuidText} {v : ℕ} {status : OrderStatus} {actorId : Uuid}
    {correlationId : Option String} {fresh : FreshIds} {now : ℕ} {id : Uuid} :
    AuditLog.ofOrder "ORDER_STATUS_UPDATED" id
      (OrdersRepository.statusAudit t v status actorId correlationId fresh now) =
        decide (t.value = id) := by
  rw [Bool.eq_iff_iff, decide_eq_true_eq, ← Uuid.spelledIn_toString]
  simp [AuditLog.ofOrder, OrdersRepository.statusAudit]

@[simp] theorem ofOrder_createdAudit {o : Order} {userId : Uuid} {correlationId : Option String}
    {fresh : FreshIds} {now : ℕ} {id : Uuid} :
    AuditLog.ofOrder "ORDER_CREATED" id
      (OrdersRepository.createdAudit o userId correlationId fresh now) = decide (o.id = id) := by
  rw [Bool.eq_iff_iff, decide_eq_true_eq]
  simp only [AuditLog.ofOrder, OrdersRepository.createdAudit, decide_true, Bool.true_and]
  rw [Uuid.spelledIn_toString, Uuid.value_text]

section Rows

variable {db db' : Db} {row : AuditLog} {id : Uuid}

theorem statusRows_of_append (h : db'.auditLogs = db.auditLogs ++ [row]) :
    statusRows db' id = if row.ofOrder "ORDER_STATUS_UPDATED" id then statusRows db id ++ [row]
      else statusRows db id := by
  unfold statusRows
  rw [h, Table.filter_append_singleton]

theorem createdRows_of_append (h : db'.auditLogs = db.auditLogs ++ [row]) :
    createdRows db' id = if row.ofOrder "ORDER_CREATED" id then createdRows db id ++ [row]
      else createdRows db id := by
  unfold createdRows
  rw [h, Table.filter_append_singleton]

end Rows

/-! ### The ways a step can touch an order -/

/-- The ways a step can touch the order `id` and its audit rows. -/
inductive OrderStep (w : World) (a : Action) (w' : World) (id : Uuid) : Prop
  /-- It leaves them alone. -/
  | same (horder : w'.order id = w.order id) (hrows : statusRows w'.db id = statusRows w.db id)
      (hcreated : createdRows w'.db id = createdRows w.db id)
      (hconfirms : w.confirms id a w' = false)
  /-- It creates the order. -/
  | created {o : Order} {row : AuditLog} (hnone : w.order id = none)
      (horder : w'.order id = some o) (hversion : o.version = 1) (hstatus : o.status = .pending)
      (hrows : statusRows w'.db id = statusRows w.db id)
      (hcreated : createdRows w'.db id = createdRows w.db id ++ [row])
      (hrow : row.status = some .pending) (hconfirms : w.confirms id a w' = false)
  /-- A status change commits. -/
  | updated {o : Order} {row : AuditLog} {i : ℕ} {c : Choice} {user : AuthenticatedUser}
      {t : UuidText} {dto : UpdateOrderStatusDto} {correlationId : Option String} {pc : Pc}
      (ha : a = .advance i c)
      (hcall : w.calls i = some ⟨.updateStatus user t dto, correlationId, pc⟩)
      (ht : t.value = id) (hbefore : w.order id = some o) (hversion : dto.version = o.version)
      (horder : w'.order id = some (OrdersRepository.bump dto.status o))
      (hrows : statusRows w'.db id = statusRows w.db id ++ [row])
      (hprevious : row.previousVersion = some (o.version : ℤ)) (hrow : row.status = some dto.status)
      (hcreated : createdRows w'.db id = createdRows w.db id)
      (hconfirms : w.confirms id a w' = false)
  /-- A payment confirms the order. -/
  | confirmed {o : Order} (hbefore : w.order id = some o) (hpending : o.status = .pending)
      (horder : w'.order id = some (OrdersRepository.bump .confirmed o))
      (hrows : statusRows w'.db id = statusRows w.db id)
      (hcreated : createdRows w'.db id = createdRows w.db id)
      (hconfirms : w.confirms id a w' = true)

section Step

variable {w w' : World} {a : Action} {id : Uuid}

/-- A step that leaves the orders and the audit rows alone, and records no payment,
touches no order. -/
theorem OrderStep.of_eq (horders : w'.db.orders = w.db.orders)
    (haudits : w'.db.auditLogs = w.db.auditLogs) (hpayments : w'.db.payments = w.db.payments) :
    OrderStep w a w' id := by
  refine .same ?_ ?_ ?_ (confirms_of_payments hpayments id a)
  · rw [World.order, horders, World.order]
  · rw [statusRows, haudits, statusRows]
  · rw [createdRows, haudits, createdRows]

/-- What the commit of an order creation does to an order. -/
theorem orderStep_of_create {user : AuthenticatedUser} {dto : CreateOrderDto}
    {correlationId : Option String} {lineItems : List OrdersRepository.LineItem}
    {fresh : FreshIds} {now : ℕ} {o : Order}
    (h : Commits (OrdersRepository.createWrite user.id dto correlationId lineItems fresh now)
      w.db o w'.db) : OrderStep w a w' id := by
  obtain ⟨ho, hfresh, -, -, hdb⟩ := OrdersRepository.createWrite_commits h
  have haudits : w'.db.auditLogs = w.db.auditLogs ++
      [OrdersRepository.createdAudit o user.id correlationId fresh now] := by rw [hdb]
  have horder : w'.order id = if o.id = id then some o else w.order id := by
    unfold World.order
    rw [hdb]
    exact Table.find_append_singleton hfresh
  have hconfirms : w.confirms id a w' = false := confirms_of_payments (by rw [hdb]) id a
  have hrows : statusRows w'.db id = statusRows w.db id := by
    rw [statusRows_of_append haudits]
    exact if_neg Bool.false_ne_true
  have hcreated : createdRows w'.db id = _ := createdRows_of_append haudits
  rw [ofOrder_createdAudit] at hcreated
  by_cases hid : o.id = id
  · rw [if_pos hid] at horder
    rw [if_pos (decide_eq_true hid)] at hcreated
    have hnone : w.order id = none := Table.find_eq_none_iff.mpr (hid ▸ hfresh)
    have hrow : (OrdersRepository.createdAudit o user.id correlationId fresh now).status =
        some .pending := by
      rw [ho]
      rfl
    exact .created hnone horder (by rw [ho]; rfl) (by rw [ho]; rfl) hrows hcreated hrow hconfirms
  · rw [if_neg hid] at horder
    rw [if_neg (by simpa using hid)] at hcreated
    exact .same horder hrows hcreated hconfirms

/-- What the commit of a status change does to an order. -/
theorem orderStep_of_update (hw : system.Reachable w) {i : ℕ} {c : Choice}
    {user : AuthenticatedUser} {t : UuidText} {dto : UpdateOrderStatusDto}
    {correlationId : Option String} {pc : Pc} {fresh : FreshIds} {now : ℕ} {o : Order}
    (hcall : w.calls i = some ⟨.updateStatus user t dto, correlationId, pc⟩)
    (h : Commits (OrdersRepository.updateStatus t dto.version dto.status user.id correlationId
      fresh now) w.db o w'.db) : OrderStep w (.advance i c) w' id := by
  obtain ⟨⟨old, hold, hversion⟩, -, -, -, hdb⟩ := OrdersRepository.updateStatus_commits h
  simp only [OrdersRepository.atVersion, Bool.and_eq_true, decide_eq_true_eq] at hversion
  have haudits : w'.db.auditLogs = w.db.auditLogs ++ [OrdersRepository.statusAudit t dto.version
      dto.status user.id correlationId fresh now] := by rw [hdb]
  have horder : w'.order id = (w.order id).map fun o =>
      if OrdersRepository.atVersion t dto.version o then OrdersRepository.bump dto.status o
      else o := by
    unfold World.order
    rw [hdb]
    exact Table.find_update fun _ => rfl
  have hconfirms : w.confirms id (.advance i c) w' = false :=
    confirms_of_payments (by rw [hdb]) id (.advance i c)
  have hcreated : createdRows w'.db id = createdRows w.db id := by
    rw [createdRows_of_append haudits]
    exact if_neg Bool.false_ne_true
  have hrows : statusRows w'.db id = _ := statusRows_of_append haudits
  rw [ofOrder_statusAudit] at hrows
  by_cases hid : t.value = id
  · rw [if_pos (decide_eq_true hid)] at hrows
    have hbefore : w.order id = some old :=
      (order_eq_some_iff hw).mpr ⟨hold, hversion.1.trans hid⟩
    rw [hbefore, Option.map_some, if_pos (by simpa [OrdersRepository.atVersion] using hversion)]
      at horder
    refine .updated rfl hcall hid hbefore hversion.2.symm horder hrows ?_ ?_ hcreated hconfirms
    · rw [hversion.2]
      rfl
    · exact OrderStatus.ofName_name dto.status
  · rw [if_neg (by simpa using hid)] at hrows
    refine .same ?_ hrows hcreated hconfirms
    rw [horder]
    cases hbefore : w.order id with
    | none => rfl
    | some o' =>
      have ho' := ((order_eq_some_iff hw).mp hbefore).2
      have hne : OrdersRepository.atVersion t dto.version o' = false := by
        simp only [OrdersRepository.atVersion, ho', Bool.and_eq_false_iff, decide_eq_false_iff_not]
        exact Or.inl fun heq => hid heq.symm
      rw [Option.map_some, hne]
      rfl

/-- What the commit of a payment does to an order. -/
theorem orderStep_of_pay (hw : system.Reachable w) {i : ℕ} {c : Choice} {user : AuthenticatedUser}
    {orderId : UuidText} {key : Option String} {dto : CompletePaymentDto}
    {correlationId : Option String} {k : String} {snapshot : Db} {fresh : FreshIds} {now : ℕ}
    {p : Payment} (hcall : w.calls i =
      some ⟨.completePayment user orderId key dto, correlationId, .paymentCommit k snapshot⟩)
    (h : Commits (PaymentsRepository.complete snapshot
      (paymentInput user orderId k dto correlationId) fresh now) w.db p w'.db) :
    OrderStep w (.advance i c) w' id := by
  obtain ⟨-, -, hsnapshot, -⟩ := ok_of_reachable hw i _ hcall
  obtain ⟨order, hmem, horderId, -, -, -, -, -, hrow, hdb⟩ := PaymentsRepository.complete_commits h
  have hread : Table.find Order.id order.id snapshot.orders = some order :=
    (Table.find_eq_some_iff hsnapshot.orders).mpr ⟨hmem, rfl⟩
  have haudits : w'.db.auditLogs = w.db.auditLogs ++ [PaymentsRepository.completedAudit
      (paymentInput user orderId k dto correlationId) order p fresh now] := by rw [hdb]
  have hrows : statusRows w'.db id = statusRows w.db id := by
    rw [statusRows_of_append haudits]
    exact if_neg Bool.false_ne_true
  have hcreated : createdRows w'.db id = createdRows w.db id := by
    rw [createdRows_of_append haudits]
    exact if_neg Bool.false_ne_true
  have hconfirms : w.confirms id (.advance i c) w' =
      decide (order.id = id ∧ order.status = .pending) := by
    have hlength : w'.db.payments.length ≠ w.db.payments.length := by
      rw [hdb]
      simp
    have horderId : orderId.value = order.id := horderId.symm
    simp only [World.confirms, hcall, hlength, ne_eq, not_false_eq_true, decide_true,
      Bool.and_true, horderId]
    by_cases hid : order.id = id
    · rw [← hid, hread]
      simp
    · simp [hid]
  have horders : w'.db.orders = PaymentsRepository.paidOrders order w.db.orders := by rw [hdb]
  by_cases hpending : order.status = .pending
  · rw [PaymentsRepository.paidOrders, if_pos hpending] at horders
    have horder : w'.order id = (w.order id).map fun o =>
        if o.id = order.id then OrdersRepository.bump .confirmed o else o := by
      have hkey : ∀ o : Order, (OrdersRepository.bump .confirmed o).id = o.id := fun _ => rfl
      unfold World.order
      rw [horders, Table.find_update hkey]
      simp only [decide_eq_true_eq]
    obtain ⟨row, hfound, hsame⟩ := hrow hpending
    rw [hread, Option.some.injEq] at hsame
    subst hsame
    by_cases hid : order.id = id
    · subst hid
      have hbefore : w.order order.id = some order := hfound
      rw [hbefore, Option.map_some, if_pos rfl] at horder
      exact .confirmed hbefore hpending horder hrows hcreated
        (hconfirms.trans (decide_eq_true ⟨rfl, hpending⟩))
    · refine .same ?_ hrows hcreated (hconfirms.trans (decide_eq_false fun h => hid h.1))
      rw [horder]
      cases hbefore : w.order id with
      | none => rfl
      | some o' =>
        have ho' := ((order_eq_some_iff hw).mp hbefore).2
        rw [Option.map_some, if_neg]
        exact fun heq => hid (heq.symm.trans ho')
  · rw [PaymentsRepository.paidOrders, if_neg hpending] at horders
    refine .same ?_ hrows hcreated (hconfirms.trans (decide_eq_false fun h => hpending h.2))
    rw [World.order, horders, World.order]

/-- **Every step touches an order in one of these ways.** -/
theorem orderStep_of_step (hw : system.Reachable w) (h : w.step a = some w') (id : Uuid) :
    OrderStep w a w' id := by
  cases a with
  | tick ms => cases h; exact .of_eq rfl rfl rfl
  | setRestaurant r => cases h; exact .of_eq rfl rfl rfl
  | setMenuItem m => cases h; exact .of_eq rfl rfl rfl
  | request i r correlationId =>
    obtain ⟨-, rfl⟩ := World.step_request h
    exact .of_eq rfl rfl rfl
  | advance i c =>
    obtain ⟨⟨request, correlationId, pc⟩, db', pc', hcall, hadv, rfl⟩ := World.step_advance h
    cases hadv with
    | created hc => exact orderStep_of_create hc
    | updated hc => exact orderStep_of_update hw hcall hc
    | paid hc => exact orderStep_of_pay hw hcall hc
    | _ => exact .of_eq rfl rfl rfl
  | poll j a =>
    obtain ⟨p, rows, confirmed, -, rfl⟩ := World.step_poll h
    exact .of_eq rfl rfl rfl

/-- What a step does to an order that is there: nothing, or it changes the status
and adds one to the version. -/
theorem OrderStep.order_cases {o : Order} (h : OrderStep w a w' id) (ho : w.order id = some o) :
    w'.order id = some o ∨ ∃ status, w'.order id = some (OrdersRepository.bump status o) := by
  cases h with
  | same horder => exact Or.inl (horder.trans ho)
  | created hnone =>
    rw [ho] at hnone
    cases hnone
  | updated _ _ _ hbefore _ horder =>
    rw [ho, Option.some.injEq] at hbefore
    subst hbefore
    exact Or.inr ⟨_, horder⟩
  | confirmed hbefore _ horder =>
    rw [ho, Option.some.injEq] at hbefore
    subst hbefore
    exact Or.inr ⟨_, horder⟩

/-- An order that appears is at version one. -/
theorem OrderStep.version_of_none {o' : Order} (h : OrderStep w a w' id)
    (hnone : w.order id = none) (ho' : w'.order id = some o') : o'.version = 1 := by
  cases h with
  | same horder =>
    rw [horder, hnone] at ho'
    cases ho'
  | created _ horder hversion =>
    rw [ho', Option.some.injEq] at horder
    rw [horder]
    exact hversion
  | updated _ _ _ hbefore =>
    rw [hnone] at hbefore
    cases hbefore
  | confirmed hbefore =>
    rw [hnone] at hbefore
    cases hbefore

end Step

/-! ### Versions -/

/-- The creation of every order is in its history, once. -/
theorem createdRows_of_reachable {w : World} (hw : system.Reachable w) (id : Uuid) :
    (w.order id = none → createdRows w.db id = []) ∧
      ∀ o, w.order id = some o → ∃ row, createdRows w.db id = [row] := by
  refine hw.invariant (I := fun w => (w.order id = none → createdRows w.db id = []) ∧
    ∀ o, w.order id = some o → ∃ row, createdRows w.db id = [row]) ?_ ?_
  · intro w h0
    have haudits : createdRows w.db id = [] := by
      rw [createdRows, h0.2.2.2.1, List.filter_nil]
    have horder : w.order id = none := by
      rw [World.order, h0.1]
      rfl
    refine ⟨fun _ => haudits, fun o ho => ?_⟩
    rw [horder] at ho
    cases ho
  · rintro w a w' hw ⟨hnone, hsome⟩ h
    cases orderStep_of_step hw h id with
    | same horder _ hcreated =>
      rw [horder, hcreated]
      exact ⟨hnone, hsome⟩
    | created hbefore horder _ _ _ hcreated =>
      rw [horder, hcreated, hnone hbefore]
      exact ⟨nofun, fun _ _ => ⟨_, rfl⟩⟩
    | updated _ _ _ hbefore _ horder _ _ _ hcreated =>
      rw [horder, hcreated]
      exact ⟨nofun, fun _ _ => hsome _ hbefore⟩
    | confirmed hbefore _ horder _ hcreated =>
      rw [horder, hcreated]
      exact ⟨nofun, fun _ _ => hsome _ hbefore⟩

/-- The status rows of an order are in order of the versions they left, all below
its present one. -/
structure StatusLog (w : World) (id : Uuid) : Prop where
  below : ∀ row ∈ statusRows w.db id, ∃ (o : Order) (n : ℕ), w.order id = some o ∧
    row.previousVersion = some (n : ℤ) ∧ n < o.version
  sorted : (statusRows w.db id).Pairwise fun a b =>
    a.previousVersion.getD 0 < b.previousVersion.getD 0

theorem statusLog_of_reachable {w : World} (hw : system.Reachable w) (id : Uuid) :
    StatusLog w id := by
  refine hw.invariant (I := fun w => StatusLog w id) ?_ ?_
  · intro w h0
    have hrows : statusRows w.db id = [] := by
      rw [statusRows, h0.2.2.2.1, List.filter_nil]
    constructor
    · rw [hrows]
      exact nofun
    · rw [hrows]
      exact List.Pairwise.nil
  intro w a w' hw ih h
  -- a row that was there stays below the version, which does not fall
  have hbelow : ∀ row ∈ statusRows w.db id, ∃ (o : Order) (n : ℕ), w'.order id = some o ∧
      row.previousVersion = some (n : ℤ) ∧ n < o.version := by
    intro row hrow
    obtain ⟨o, n, ho, hprevious, hlt⟩ := ih.below row hrow
    rcases (orderStep_of_step hw h id).order_cases ho with horder | ⟨status, horder⟩
    · exact ⟨o, n, horder, hprevious, hlt⟩
    · exact ⟨_, n, horder, hprevious, Nat.lt_succ_of_lt hlt⟩
  cases orderStep_of_step hw h id with
  | same _ hrows => exact ⟨by rwa [hrows], by rw [hrows]; exact ih.sorted⟩
  | created _ _ _ _ hrows => exact ⟨by rwa [hrows], by rw [hrows]; exact ih.sorted⟩
  | confirmed _ _ _ hrows => exact ⟨by rwa [hrows], by rw [hrows]; exact ih.sorted⟩
  | @updated o row _ _ _ _ _ _ _ _ _ _ hbefore _ horder hrows hprevious =>
    constructor
    · intro row' hrow'
      rw [hrows, List.mem_append, List.mem_singleton] at hrow'
      rcases hrow' with hold | rfl
      · exact hbelow row' hold
      · exact ⟨_, o.version, horder, hprevious, Nat.lt_succ_self _⟩
    · rw [hrows, List.pairwise_append]
      refine ⟨ih.sorted, List.pairwise_singleton _ _, ?_⟩
      intro old hold new hnew
      obtain ⟨o', n, ho', hn, hlt⟩ := ih.below old hold
      rw [hbefore, Option.some.injEq] at ho'
      subst ho'
      rw [List.mem_singleton.mp hnew, hn, hprevious]
      exact Int.ofNat_lt.mpr hlt

/-- The history of an order is in the order in which it was written. -/
theorem orderHistory_eq {w : World} (hw : system.Reachable w) (id : Uuid) :
    orderHistory w.db id = createdRows w.db id ++ statusRows w.db id := by
  unfold orderHistory
  have hsorted := (statusLog_of_reachable hw id).sorted.imp fun h => le_of_lt h
  rw [List.Pairwise.insertionSort_eq hsorted]

/-- The version of an order, or zero before there is one. -/
def World.version (w : World) (id : Uuid) : ℕ := (w.order id).elim 0 Order.version

/-- **The version counts the rows of the history and the payments that confirmed
the order.** -/
theorem version_eq {w₀ w : World} {as : List Action} (h0 : w₀.Initial)
    (h : system.exec w₀ as = some w) (id : Uuid) :
    w.version id = (createdRows w.db id).length + (statusRows w.db id).length +
      system.count (World.confirms id) w₀ as := by
  have hbalance := Sys.count_balance (S := system) (p := World.confirms id)
    (f := fun w => w.version id)
    (g := fun w => (createdRows w.db id).length + (statusRows w.db id).length) ?_
    (.init h0) h
  · have hversion : w₀.version id = 0 := by
      rw [World.version, World.order, h0.1]
      rfl
    have hrows : (createdRows w₀.db id).length + (statusRows w₀.db id).length = 0 := by
      rw [createdRows, statusRows, h0.2.2.2.1]
      rfl
    simp only [hversion, hrows] at hbalance
    omega
  · intro w a w' hw hstep
    simp only [World.version]
    cases orderStep_of_step hw hstep id with
    | same horder hrows hcreated hconfirms =>
      rw [horder, hrows, hcreated, hconfirms]
      simp
    | created hnone horder hversion _ hrows hcreated _ hconfirms =>
      rw [hnone, horder, hrows, hcreated, hconfirms]
      simp [hversion]
      omega
    | updated _ _ _ hbefore _ horder hrows _ _ hcreated hconfirms =>
      rw [hbefore, horder, hrows, hcreated, hconfirms]
      simp [OrdersRepository.bump]
      omega
    | confirmed hbefore _ horder hrows hcreated hconfirms =>
      rw [hbefore, horder, hrows, hcreated, hconfirms]
      simp [OrdersRepository.bump]
      omega

/-! ### No lost update -/

/-- The version an order has left behind stays behind. -/
theorem version_stable {id : Uuid} {n : ℕ} {w w' : World} {a : Action} (hw : system.Reachable w)
    (hn : n < w.version id) (h : w.step a = some w') : n < w'.version id := by
  cases ho : w.order id with
  | none =>
    rw [World.version, ho] at hn
    cases hn
  | some o =>
    rw [World.version, ho] at hn
    rcases (orderStep_of_step hw h id).order_cases ho with horder | ⟨status, horder⟩
    · rw [World.version, horder]
      exact hn
    · rw [World.version, horder]
      exact Nat.lt_succ_of_lt hn

/-- The step writes the order at a version. -/
def WritesAt (id : Uuid) (n : ℕ) (w w' : World) : Prop :=
  ∃ o status, w.order id = some o ∧ o.version = n ∧
    w'.order id = some (OrdersRepository.bump status o)

/-- **No version of an order is written twice in a run.** -/
theorem writesAt_unique {w₀ v v' u u' : World} {as : List Action} {a b : Action} {id : Uuid}
    {n : ℕ} (hw₀ : system.Reachable w₀) (hv : system.Takes w₀ as v a v') (hvn : WritesAt id n v v')
    (hu : system.Takes w₀ as u b u') (hun : WritesAt id n u u') : v = u ∧ a = b ∧ v' = u' := by
  -- the writes are the step in which the version comes to be above `n`
  have hgains : ∀ {v v'}, WritesAt id n v v' → ¬n < v.version id ∧ n < v'.version id := by
    rintro v v' ⟨o, status, ho, rfl, ho'⟩
    rw [World.version, World.version, ho, ho']
    exact ⟨Nat.lt_irrefl _, Nat.lt_succ_self _⟩
  exact Sys.Takes.unique (P := fun v => n < v.version id)
    (fun _ _ _ hw hn h => version_stable hw hn h) hw₀ hv (hgains hvn).1 (hgains hvn).2
    hu (hgains hun).1 (hgains hun).2

/-- A status change that has returned has written its order, at the version the
client sent. -/
theorem writesAt_of_returned {w₀ w : World} {as : List Action} (h0 : w₀.Initial)
    (h : system.exec w₀ as = some w) {i : ℕ} {user : AuthenticatedUser} {t : UuidText}
    {dto : UpdateOrderStatusDto} {correlationId : Option String} {response : Response}
    (hcall : w.calls i = some ⟨.updateStatus user t dto, correlationId, .returned response⟩) :
    ∃ v c v', system.Takes w₀ as v (.advance i c) v' ∧ WritesAt t.value dto.version v v' := by
  obtain ⟨v, a, v', htakes, hbefore, hafter⟩ := Sys.exists_takes
    (P := fun v => v.calls i = some ⟨.updateStatus user t dto, correlationId, .returned response⟩)
    h (by rw [h0.2.2.2.2.2.1 i]; nofun) hcall
  have hv := htakes.reachable (.init h0)
  have hstep : v.step a = some v' := htakes.step
  rcases World.calls_of_step hstep i with hsame | ⟨r, correlationId', rfl⟩ | ⟨c, rfl⟩
  · exact absurd (hsame.symm.trans hafter) hbefore
  · obtain ⟨-, rfl⟩ := World.step_request hstep
    rw [World.accept_calls_self] at hafter
    cases hafter
  · refine ⟨v, c, v', htakes, ?_⟩
    obtain ⟨⟨request, correlationId', pc⟩, db', pc', hold, hadv, rfl⟩ := World.step_advance hstep
    rw [World.move_calls_self, Option.some.injEq, Call.mk.injEq] at hafter
    obtain ⟨rfl, rfl, rfl⟩ := hafter
    cases hadv with
    | updated hc =>
      obtain ⟨⟨old, hmem, hversion⟩, -, -, -, rfl⟩ := OrdersRepository.updateStatus_commits hc
      have hmatch := hversion
      simp only [OrdersRepository.atVersion, Bool.and_eq_true, decide_eq_true_eq] at hversion
      have hold : v.order t.value = some old := (order_eq_some_iff hv).mpr ⟨hmem, hversion.1⟩
      refine ⟨old, dto.status, hold, hversion.2, ?_⟩
      have hkey : ∀ o : Order, (OrdersRepository.bump dto.status o).id = o.id := fun _ => rfl
      unfold World.order at hold ⊢
      rw [World.move, Table.find_update hkey, hold, Option.map_some, if_pos hmatch]

/-- What two requests have to have in common to exclude one another: they change the
status of one order from one version. -/
def Request.sameVersion : Request → Request → Prop
  | .updateStatus _ t dto, .updateStatus _ t' dto' =>
    t.value = t'.value ∧ dto.version = dto'.version
  | _, _ => False

/-- **Of two status changes from one version at most one commits.** -/
theorem not_both_returned {w₀ w : World} {as : List Action} (h0 : w₀.Initial)
    (h : system.exec w₀ as = some w) {i j : ℕ} (hij : i ≠ j) {call call' : Call}
    (hi : w.calls i = some call) (hj : w.calls j = some call')
    (hsame : call.request.sameVersion call'.request) {response : Response}
    (hreturned : call.pc = .returned response) :
    ∀ response', call'.pc ≠ .returned response' := by
  rintro response' hreturned'
  obtain ⟨request, correlationId, pc⟩ := call
  obtain ⟨request', correlationId', pc'⟩ := call'
  simp only at hreturned hreturned'
  subst hreturned hreturned'
  cases request with
  | updateStatus user t dto =>
    cases request' with
    | updateStatus user' t' dto' =>
      obtain ⟨v, c, v', htakes, hwrites⟩ := writesAt_of_returned h0 h hi
      obtain ⟨u, c', u', htakes', hwrites'⟩ := writesAt_of_returned h0 h hj
      rw [← hsame.1, ← hsame.2] at hwrites'
      obtain ⟨-, haction, -⟩ := writesAt_unique (.init h0) htakes hwrites htakes' hwrites'
      cases haction
      exact hij rfl
    | _ => exact hsame
  | _ => exact hsame

/-- The status rows of an order name different previous versions, all below the present
one. -/
theorem previousVersions_distinct {w : World} (hw : system.Reachable w) {o : Order}
    (ho : o ∈ w.db.orders) :
    ((statusRows w.db o.id).map AuditLog.previousVersion).Nodup ∧
      ∀ row ∈ statusRows w.db o.id, ∃ n : ℕ, row.previousVersion = some (n : ℤ) ∧
        n < o.version := by
  have horder : w.order o.id = some o := (order_eq_some_iff hw).mpr ⟨ho, rfl⟩
  obtain ⟨hbelow, hsorted⟩ := statusLog_of_reachable hw o.id
  refine ⟨?_, fun row hrow => ?_⟩
  · refine List.Pairwise.map _ (fun a b hlt heq => ?_) hsorted
    rw [heq] at hlt
    exact lt_irrefl _ hlt
  · obtain ⟨o', n, ho', hprevious, hlt⟩ := hbelow row hrow
    rw [horder, Option.some.injEq] at ho'
    subst ho'
    exact ⟨n, hprevious, hlt⟩

/-- A call that has ended without returning has been rejected. -/
theorem rejected_of_final {pc : Pc} (hnot : ∀ response, pc ≠ .returned response)
    (hfinal : pc.final = true) : ∃ e, pc = .rejected e := by
  cases pc with
  | rejected e => exact ⟨e, rfl⟩
  | returned response => exact absurd rfl (hnot response)
  | _ => cases hfinal

/-- **No update of an order is lost.**  Along every run: an order starts at version
one, and a step leaves it alone or changes its status and adds one to its version;
no version is written twice; of two status changes from one version at most one
returns, and a request that ends without is rejected and has changed nothing; the
status rows of an order name different previous versions, all below the present
one; and the version, less one, counts those rows and the payments that confirmed
the order. -/
theorem no_lost_update {w₀ w : World} {as : List Action} (h0 : w₀.Initial)
    (h : system.exec w₀ as = some w) :
    (∀ v a v', system.Takes w₀ as v a v' → ∀ id,
      (v.order id = none → ∀ o', v'.order id = some o' → o'.version = 1) ∧
      ∀ o, v.order id = some o →
        v'.order id = some o ∨ ∃ status, v'.order id = some (OrdersRepository.bump status o)) ∧
    (∀ id n v a v' u b u', system.Takes w₀ as v a v' → WritesAt id n v v' →
      system.Takes w₀ as u b u' → WritesAt id n u u' → v = u ∧ a = b ∧ v' = u') ∧
    (∀ i j call call' response, i ≠ j → w.calls i = some call → w.calls j = some call' →
      call.request.sameVersion call'.request → call.pc = .returned response →
        ∀ response', call'.pc ≠ .returned response') ∧
    (∀ i call, w.calls i = some call → (∀ response, call.pc ≠ .returned response) →
      (call.pc.final = true → ∃ e, call.pc = .rejected e) ∧
        ∀ c v v', system.Takes w₀ as v (.advance i c) v' → v'.db = v.db) ∧
    ∀ o ∈ w.db.orders,
      (((statusRows w.db o.id).map AuditLog.previousVersion).Nodup ∧
        ∀ row ∈ statusRows w.db o.id, ∃ n : ℕ, row.previousVersion = some (n : ℤ) ∧
          n < o.version) ∧
      o.version = 1 + (statusRows w.db o.id).length +
        system.count (World.confirms o.id) w₀ as := by
  have hw₀ : system.Reachable w₀ := .init h0
  have hw := hw₀.exec h
  refine ⟨?_, ?_, ?_, ?_, ?_⟩
  · intro v a v' htakes id
    have hstep := orderStep_of_step (htakes.reachable hw₀) htakes.step id
    exact ⟨fun hnone o' ho' => hstep.version_of_none hnone ho', fun o ho => hstep.order_cases ho⟩
  · exact fun id n v a v' u b u' hv hvn hu hun => writesAt_unique hw₀ hv hvn hu hun
  · exact fun i j call call' response hij hi hj hsame hreturned =>
      not_both_returned h0 h hij hi hj hsame hreturned
  · intro i call hcall hnot
    refine ⟨rejected_of_final hnot, fun c v v' htakes => ?_⟩
    obtain ⟨-, cs, -, hcs⟩ := htakes.split
    exact unchanged_of_not_returned (htakes.reachable hw₀) htakes.step (hcs w h) hcall hnot
  · intro o ho
    refine ⟨previousVersions_distinct hw ho, ?_⟩
    have horder : w.order o.id = some o := (order_eq_some_iff hw).mpr ⟨ho, rfl⟩
    obtain ⟨row, hrow⟩ := (createdRows_of_reachable hw o.id).2 o horder
    have hversion := version_eq h0 h o.id
    rw [World.version, horder, hrow] at hversion
    exact hversion

/-- The manager confirms the order while another request from the same version is
under way, and both have ended. -/
def twoUpdates : List Action :=
  Action.sampleOrder ++ (Action.sampleStatus 1 .confirmed 0 4).take 2 ++
    Action.sampleStatus 2 .cancelled 0 5 ++ [.advance 1 (.sample 4)]

/-- What a run of status changes leaves: the versions, and which calls returned. -/
def World.outcomes (w : World) : List ℕ × List (Option Bool) :=
  (w.db.orders.map Order.version, [1, 2].map fun i => (w.calls i).map fun call =>
    match call.pc with
    | .returned _ => true
    | _ => false)

/-- In the sample run the second request wins, and the order is at version two with
one row. -/
theorem sample_update_kept : ∃ w o, system.exec World.sample twoUpdates = some w ∧
    w.outcomes = ([2], [some false, some true]) ∧ o ∈ w.db.orders ∧
    o.version = 1 + (statusRows w.db o.id).length +
      system.count (World.confirms o.id) World.sample twoUpdates := by
  have hrun : (system.exec World.sample twoUpdates).map World.outcomes =
      some ([2], [some false, some true]) := by decide
  obtain ⟨w, hw, houtcomes⟩ := Option.map_eq_some_iff.mp hrun
  have hversions : w.db.orders.map Order.version = [2] := congrArg Prod.fst houtcomes
  obtain ⟨o, ho, -⟩ := List.map_eq_singleton_iff.mp hversions
  have hmem : o ∈ w.db.orders := by
    rw [ho]
    exact List.mem_singleton.mpr rfl
  obtain ⟨-, -, -, -, horders⟩ := no_lost_update World.sample_initial hw
  exact ⟨w, o, hw, houtcomes, hmem, (horders o hmem).2⟩

/-! ### The history -/

theorem replay_append (rows : List AuditLog) (row : AuditLog) :
    replay (rows ++ [row]) = row.status := by
  unfold replay
  rw [List.foldl_append]
  rfl

/-- The last row of the history of an order that no payment has confirmed holds its
status. -/
theorem replay_of_unconfirmed {w₀ w : World} {as : List Action} (h0 : w₀.Initial)
    (h : system.exec w₀ as = some w) {id : Uuid}
    (hnot : ∀ v a v', system.Takes w₀ as v a v' → v.confirms id a v' = false) {o : Order}
    (ho : w.order id = some o) :
    replay (createdRows w.db id ++ statusRows w.db id) = some o.status := by
  refine Sys.run_invariant (I := fun bs w =>
    (∀ v a v', system.Takes w₀ bs v a v' → v.confirms id a v' = false) →
      ∀ o, w.order id = some o →
        replay (createdRows w.db id ++ statusRows w.db id) = some o.status) ?_ ?_ h hnot o ho
  · intro _ o ho
    rw [World.order, h0.1] at ho
    cases ho
  intro bs w a w' hbs ih hstep hnot o' ho'
  have hw : system.Reachable w := Sys.Reachable.exec (.init h0) hbs
  have ih := ih fun v b v' htakes => hnot v b v' (htakes.append [a])
  cases orderStep_of_step hw hstep id with
  | same horder hrows hcreated =>
    rw [hrows, hcreated]
    exact ih o' (horder ▸ ho')
  | created hnone horder _ hstatus hrows hcreated hrow =>
    -- an order that was not there has no status rows
    have hempty : statusRows w.db id = [] := by
      refine List.eq_nil_iff_forall_not_mem.mpr fun row hrow => ?_
      obtain ⟨o, n, ho, -⟩ := (statusLog_of_reachable hw id).below row hrow
      rw [hnone] at ho
      cases ho
    rw [ho', Option.some.injEq] at horder
    rw [hrows, hcreated, hempty, List.append_nil, replay_append, hrow, horder, hstatus]
  | updated _ _ _ _ _ horder hrows _ hrow hcreated =>
    rw [ho', Option.some.injEq] at horder
    rw [hrows, hcreated, ← List.append_assoc, replay_append, hrow, horder]
    rfl
  | confirmed _ _ _ _ _ hconfirms =>
    rw [hnot w a w' (Sys.takes_last hbs hstep)] at hconfirms
    cases hconfirms

/-- The history of an order is complete: it ends with the present status, and has one
row for each version. -/
def HistoryComplete (db : Db) (o : Order) : Prop :=
  replay (orderHistory db o.id) = some o.status ∧ (orderHistory db o.id).length = o.version

/-- **Which orders have their whole history.**  In every run, the history of an order
is complete if and only if no step of the run commits a payment whose transaction
read the order as pending. -/
theorem history_complete_iff {w₀ w : World} {as : List Action} (h0 : w₀.Initial)
    (h : system.exec w₀ as = some w) :
    ∀ o ∈ w.db.orders, HistoryComplete w.db o ↔
      ∀ v a v', system.Takes w₀ as v a v' → v.confirms o.id a v' = false := by
  intro o ho
  have hw : system.Reachable w := Sys.Reachable.exec (.init h0) h
  have horder : w.order o.id = some o := (order_eq_some_iff hw).mpr ⟨ho, rfl⟩
  have hversion := version_eq h0 h o.id
  rw [World.version, horder, Option.elim_some] at hversion
  rw [HistoryComplete, orderHistory_eq hw, List.length_append, ← Sys.count_eq_zero_iff h]
  constructor
  · rintro ⟨-, hlength⟩
    omega
  · intro hzero
    refine ⟨replay_of_unconfirmed h0 h ((Sys.count_eq_zero_iff h).mp hzero) horder, ?_⟩
    omega

/-- The history of the order that only status changes have touched is complete. -/
theorem sample_history_complete : ∃ w o, system.exec World.sample twoUpdates = some w ∧
    w.db.orders = [o] ∧ o.status = .cancelled ∧ HistoryComplete w.db o := by
  have hrun : (system.exec World.sample twoUpdates).map
      (fun w => w.db.orders.map fun o => (o.id, o.status)) =
        some [(Uuid.repeated 3, .cancelled)] := by decide
  have hcount : system.count (World.confirms (Uuid.repeated 3)) World.sample twoUpdates = 0 := by
    decide
  obtain ⟨w, hw, horders⟩ := Option.map_eq_some_iff.mp hrun
  obtain ⟨o, ho, heq⟩ := List.map_eq_singleton_iff.mp horders
  rw [Prod.mk.injEq] at heq
  have hmem : o ∈ w.db.orders := by
    rw [ho]
    exact List.mem_singleton.mpr rfl
  refine ⟨w, o, hw, ho, heq.2, (history_complete_iff World.sample_initial hw o hmem).mpr ?_⟩
  rw [heq.1]
  exact (Sys.count_eq_zero_iff hw).mp hcount

/-- The order has been placed and paid. -/
def paidOrder : List Action :=
  Action.sampleOrder ++ Action.samplePayment 1 (Uuid.repeated 3).text "first-payment-key" 4

/-- **An order confirmed by a payment lacks that change in its history**: it is at
version two, with one row. -/
theorem history_incomplete :
    ¬∀ w, system.Reachable w → ∀ o ∈ w.db.orders, HistoryComplete w.db o := by
  intro hclaim
  have hrun : (system.exec World.sample paidOrder).map (fun w => w.db.orders.map fun o =>
      ((orderHistory w.db o.id).length, o.version)) = some [(1, 2)] := by decide
  obtain ⟨w, hw, horders⟩ := Option.map_eq_some_iff.mp hrun
  obtain ⟨o, ho, heq⟩ := List.map_eq_singleton_iff.mp horders
  rw [Prod.mk.injEq] at heq
  obtain ⟨-, hlength⟩ := hclaim w (World.sample_reachable.exec hw) o
    (by rw [ho]; exact List.mem_singleton.mpr rfl)
  rw [heq.1, heq.2] at hlength
  cases hlength

end ScaleForge
