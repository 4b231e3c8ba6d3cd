import ScaleForge.MoneyConsistency

/-!
# References and first versions

The schema has the database refuse a row whose foreign key finds nothing, and the model of
a transaction does not look: an insertion is refused for a key that is taken, never for one
that is missing.  Nothing is lost by that.  Rows of the catalog are rewritten and never
removed, a request writes what it has read, and an order outlives its items and payments,
so every reference finds its row and the database has nothing to refuse.

Nor does an order come back to where it began.  Every write of a status raises the version
and leaves `PENDING` for good, so a pending order is one nobody has touched; and a payment
touches its order.

## Main definitions

* `Db.Refers` — every foreign key among these tables finds its row.
* `Order.Fresh` — the order is pending exactly in its first version.

## Main results

* `references_hold` — **the foreign keys hold in every reachable state.**
* `pending_iff_untouched` — **an order is pending as long as it has its first version**, and
  an order with a payment is not.
-/

namespace ScaleForge

open Transaction Table

/-! ### The catalog -/

/-- The rows of the catalog are still there. -/
structure Db.KeepsCatalog (db db' : Db) : Prop where
  restaurants : ∀ id, (∃ r ∈ db.restaurants, r.id = id) → ∃ r ∈ db'.restaurants, r.id = id
  menuItems : ∀ id, (∃ m ∈ db.menuItems, m.id = id) → ∃ m ∈ db'.menuItems, m.id = id

theorem Db.KeepsCatalog.of_eq {db db' : Db} (hr : db'.restaurants = db.restaurants)
    (hm : db'.menuItems = db.menuItems) : db.KeepsCatalog db' :=
  ⟨fun _ h => hr ▸ h, fun _ h => hm ▸ h⟩

/-- Writing a row keeps the keys that were there. -/
theorem key_of_put {ρ : Type} {key : ρ → Uuid} {row : ρ} {rows : List ρ} {id : Uuid}
    (h : ∃ r ∈ rows, key r = id) : ∃ r ∈ World.put key row rows, key r = id := by
  obtain ⟨r, hr, rfl⟩ := h
  by_cases hk : key r = key row
  · exact ⟨row, List.mem_cons_self, hk.symm⟩
  · exact ⟨r, List.mem_cons_of_mem _ (List.mem_filter.mpr ⟨hr, by simpa using hk⟩), rfl⟩

/-- **No step removes a row of the catalog.** -/
theorem keepsCatalog_of_step {w w' : World} {a : Action} (h : w.step a = some w') :
    w.db.KeepsCatalog w'.db := by
  cases a with
  | setRestaurant r =>
    cases h
    exact ⟨fun _ => key_of_put, fun _ hm => hm⟩
  | setMenuItem m =>
    cases h
    exact ⟨fun _ hr => hr, fun _ => key_of_put⟩
  | tick ms =>
    cases h
    exact .of_eq rfl rfl
  | request i r correlationId =>
    obtain ⟨-, rfl⟩ := World.step_request h
    exact .of_eq rfl rfl
  | advance i c =>
    obtain ⟨⟨r, correlationId, pc⟩, db', pc', -, hadv, rfl⟩ := World.step_advance h
    cases hadv with
    | created hc =>
      obtain ⟨-, -, -, -, rfl⟩ := OrdersRepository.createWrite_commits hc
      exact .of_eq rfl rfl
    | updated hc =>
      obtain ⟨-, -, -, -, rfl⟩ := OrdersRepository.updateStatus_commits hc
      exact .of_eq rfl rfl
    | paid hc =>
      obtain ⟨order, -, -, -, -, -, -, -, -, rfl⟩ := PaymentsRepository.complete_commits hc
      exact .of_eq rfl rfl
    | _ => exact .of_eq rfl rfl
  | poll j b =>
    obtain ⟨p, rows, new, -, rfl⟩ := World.step_poll h
    exact .of_eq rfl rfl

/-! ### What a creation has read -/

/-- What a creation has read of the catalog is there. -/
def Pc.Stocked (db : Db) : Request → Pc → Prop
  | .createOrder _ dto, .createMenu => ∃ r ∈ db.restaurants, r.id = dto.restaurantId.value
  | .createOrder _ dto, .createWrite lineItems =>
    (∃ r ∈ db.restaurants, r.id = dto.restaurantId.value) ∧
      ∀ l ∈ lineItems, ∃ m ∈ db.menuItems, m.id = l.menuItemId
  | _, _ => True

theorem Pc.Stocked.mono {db db' : Db} {r : Request} {pc : Pc} (h : pc.Stocked db r)
    (hkeep : db.KeepsCatalog db') : pc.Stocked db' r := by
  unfold Pc.Stocked at h ⊢
  split
  · exact hkeep.restaurants _ h
  · exact ⟨hkeep.restaurants _ h.1, fun l hl => hkeep.menuItems _ (h.2 l hl)⟩
  · trivial

/-- A creation that goes on to the menu has found its restaurant. -/
theorem restaurant_of_advance {db db' : Db} {now : ℕ} {c : Choice}
    {correlationId : Option String} {user : AuthenticatedUser} {dto : CreateOrderDto}
    (h : advance db now c correlationId (.createOrder user dto) .start = some (db', .createMenu)) :
    ∃ r ∈ db.restaurants, r.id = dto.restaurantId.value := by
  simp only [advance, Option.some.injEq, Prod.mk.injEq] at h
  obtain ⟨-, h⟩ := h
  unfold orReject at h
  split at h
  · unfold read at h
    split at h
    · cases h
    · split at h
      · next hfound =>
        unfold OrdersRepository.findRestaurant at hfound
        split at hfound
        · next hany =>
          obtain ⟨r, hr, hid⟩ := List.any_eq_true.mp hany
          rw [Bool.and_eq_true, decide_eq_true_eq] at hid
          exact ⟨r, hr, hid.1⟩
        · cases hfound
      · cases h
  · cases h

/-- **One step of a request establishes what it has read.** -/
theorem stocked_of_advance {db db' : Db} {now : ℕ} {c : Choice} {correlationId : Option String}
    {r : Request} {pc pc' : Pc} (hpc : pc.Stocked db r)
    (h : advance db now c correlationId r pc = some (db', pc')) : pc'.Stocked db r := by
  have hadv := advance_cases h
  cases hadv with
  | reject => cases r <;> trivial
  | restaurant => exact restaurant_of_advance h
  | priced hprice =>
    refine ⟨hpc, fun l hl => ?_⟩
    obtain ⟨requested, -, hline⟩ :=
      exists_of_forall₂_right (lineItem_of_priceItems hprice) hl
    obtain ⟨m, hm, -, hid, -⟩ := exists_of_lineItem hline
    exact ⟨m, List.mem_of_mem_filter hm, hid.symm⟩
  | _ => trivial

/-- What the creations have read is there, in every reachable state. -/
theorem stocked_of_reachable {w : World} (hw : system.Reachable w) :
    ∀ i call, w.calls i = some call → call.pc.Stocked w.db call.request := by
  refine hw.invariant (I := fun w => ∀ i call, w.calls i = some call →
    call.pc.Stocked w.db call.request) ?_ ?_
  · rintro w ⟨-, -, -, -, -, hcalls, -⟩ i call hcall
    rw [hcalls i] at hcall
    cases hcall
  · intro w a w' _ ih h i call hcall
    have hkeep := keepsCatalog_of_step h
    rcases World.calls_of_step h i with hsame | ⟨r, correlationId, rfl⟩ | ⟨c, rfl⟩
    · exact (ih i call (hsame ▸ hcall)).mono hkeep
    · obtain ⟨-, rfl⟩ := World.step_request h
      rw [World.accept_calls_self, Option.some.injEq] at hcall
      subst hcall
      cases r <;> trivial
    · simp only [system, World.step] at h
      split at h
      · cases h
      · next old hold =>
        obtain ⟨⟨db', pc'⟩, hadv, rfl⟩ := Option.map_eq_some_iff.mp h
        rw [World.move_calls_self, Option.some.injEq] at hcall
        subst hcall
        exact (stocked_of_advance (ih i old hold) hadv).mono hkeep

/-! ### The references -/

/-- Every foreign key among the tables of the requests finds its row. -/
structure Db.Refers (db : Db) : Prop where
  restaurant : ∀ o ∈ db.orders, ∃ r ∈ db.restaurants, r.id = o.restaurantId
  order : ∀ x ∈ db.orderItems, ∃ o ∈ db.orders, o.id = x.orderId
  menuItem : ∀ x ∈ db.orderItems, ∃ m ∈ db.menuItems, m.id = x.menuItemId
  paid : ∀ p ∈ db.payments, ∃ o ∈ db.orders, o.id = p.orderId

/-- A payment after a change was there before, or is of an order that was. -/
theorem Change.order_of_payment {w : World} {db' : Db} (h : Change w db')
    (hok : ∀ i call, w.calls i = some call → call.pc.Ok w.db call.request) {p : Payment}
    (hp : p ∈ db'.payments) : p ∈ w.db.payments ∨ ∃ o ∈ w.db.orders, o.id = p.orderId := by
  cases h with
  | catalog => exact .inl hp
  | created hcall hc =>
    obtain ⟨-, -, -, -, rfl⟩ := OrdersRepository.createWrite_commits hc
    exact .inl hp
  | updated hcall hc =>
    obtain ⟨-, -, -, -, rfl⟩ := OrdersRepository.updateStatus_commits hc
    exact .inl hp
  | paid hcall hc =>
    obtain ⟨-, -, -, hsnapshot⟩ := hok _ _ hcall
    obtain ⟨order, horder, hid, rfl, -, -, -, -, -, rfl⟩ := PaymentsRepository.complete_commits hc
    rcases List.mem_append.mp hp with hold | hp
    · exact .inl hold
    · obtain ⟨o, ho, hev⟩ := hsnapshot.orders order horder
      refine .inr ⟨o, ho, hev.fixed.1.trans (hid.trans ?_)⟩
      rw [List.mem_singleton.mp hp]
      rfl
  | polled => exact .inl hp

/-- **One step keeps the references.** -/
theorem Db.Refers.step {w w' : World} {a : Action} (hr : w.db.Refers) (hw : system.Reachable w)
    (h : w.step a = some w') : w'.db.Refers := by
  have hkeep := keepsCatalog_of_step h
  have hev := (change_of_step h).evolves
  have horder : ∀ id, (∃ o ∈ w.db.orders, o.id = id) → ∃ o ∈ w'.db.orders, o.id = id := by
    rintro id ⟨o, ho, rfl⟩
    obtain ⟨o', ho', hoo'⟩ := hev.orders o ho
    exact ⟨o', ho', hoo'.fixed.1⟩
  have hpaid : ∀ p ∈ w'.db.payments, ∃ o ∈ w'.db.orders, o.id = p.orderId := by
    intro p hp
    rcases (change_of_step h).order_of_payment (ok_of_reachable hw) hp with hold | hnew
    · exact horder _ (hr.paid p hold)
    · exact horder _ hnew
  rcases orders_of_step h with ⟨i, c, user, dto, correlationId, lineItems, rfl, hcall, -, -,
    horders, hitems⟩ | ⟨hitems, horders⟩
  · -- a creation writes what it has read
    obtain ⟨hrestaurant, hmenu⟩ := stocked_of_reachable hw i _ hcall
    refine ⟨?_, ?_, ?_, hpaid⟩
    · rw [horders]
      intro o ho
      rcases List.mem_append.mp ho with hold | hnew
      · exact hkeep.restaurants _ (hr.restaurant o hold)
      · rw [List.mem_singleton.mp hnew]
        exact hkeep.restaurants _ hrestaurant
    · rw [hitems]
      intro x hx
      rcases List.mem_append.mp hx with hold | hnew
      · exact horder _ (hr.order x hold)
      · rw [orderId_of_mem_newItems hnew, horders]
        exact ⟨_, List.mem_append_right _ (List.mem_singleton_self _), rfl⟩
    · rw [hitems]
      intro x hx
      rcases List.mem_append.mp hx with hold | hnew
      · exact hkeep.menuItems _ (hr.menuItem x hold)
      · obtain ⟨n, hn, rfl⟩ := List.mem_mapIdx.mp hnew
        exact hkeep.menuItems _ (hmenu _ (List.getElem_mem hn))
  · refine ⟨?_, ?_, ?_, hpaid⟩
    · intro o' ho'
      obtain ⟨o, ho, hoo'⟩ := horders o' ho'
      rw [hoo'.fixed.2.2.1]
      exact hkeep.restaurants _ (hr.restaurant o ho)
    · rw [hitems]
      exact fun x hx => horder _ (hr.order x hx)
    · rw [hitems]
      exact fun x hx => hkeep.menuItems _ (hr.menuItem x hx)

/-- **The foreign keys hold in every reachable state**: every order is of a restaurant, every
item of an order and a menu item, and every payment of an order that is there. -/
theorem references_hold {w : World} (hw : system.Reachable w) : w.db.Refers := by
  refine hw.invariant (I := fun w => w.db.Refers) ?_ ?_
  · rintro w ⟨horders, hitems, hpayments, -⟩
    refine ⟨?_, ?_, ?_, ?_⟩
    · rw [horders]
      intro o ho
      cases ho
    · rw [hitems]
      intro x hx
      cases hx
    · rw [hitems]
      intro x hx
      cases hx
    · rw [hpayments]
      intro p hp
      cases hp
  · exact fun w a w' hw hr h => hr.step hw h

/-- The customer has placed an order and paid it. -/
def Action.samplePaid : List Action :=
  Action.sampleOrder ++ Action.samplePayment 1 (Uuid.repeated 3).text "first-payment-key" 4

/-- The paid order, its one item and its payment find what they refer to. -/
theorem sample_references_hold : ∃ w, system.exec World.sample Action.samplePaid = some w ∧
    (w.db.orders.length, w.db.orderItems.length, w.db.payments.length) = (1, 1, 1) ∧
    w.db.Refers := by
  have hrun : (system.exec World.sample Action.samplePaid).map
      (fun w => (w.db.orders.length, w.db.orderItems.length, w.db.payments.length)) =
        some (1, 1, 1) := by decide
  obtain ⟨w, hw, hlen⟩ := Option.map_eq_some_iff.mp hrun
  exact ⟨w, hw, hlen, references_hold (World.sample_reachable.exec hw)⟩

/-! ### First versions -/

/-- The order is pending exactly in its first version. -/
def Order.Fresh (o : Order) : Prop := 1 ≤ o.version ∧ (o.status = .pending ↔ o.version = 1)

/-- A later version of an order that is not pending is not pending. -/
theorem Order.Fresh.left {o o' : Order} (h : o.Fresh) (h' : o'.Fresh) (hev : o.Evolves o')
    (hne : o.status ≠ .pending) : o'.status ≠ .pending := by
  intro hpending
  have hle : o.version ≤ o'.version := by
    rcases hev with rfl | ⟨hlt, -⟩
    · exact Nat.le_refl _
    · exact hlt.le
  have hone := h'.2.mp hpending
  exact hne (h.2.mpr (Nat.le_antisymm (hone ▸ hle) h.1))

/-- A write of a status that is not `PENDING` leaves no order pending in a later version. -/
theorem fresh_update {orders : List Order} {p : Order → Bool} {status : OrderStatus}
    (h : ∀ o ∈ orders, o.Fresh) (hstatus : status ≠ .pending) :
    ∀ o ∈ update p (OrdersRepository.bump status) orders, o.Fresh := by
  intro o' ho'
  obtain ⟨o, ho, rfl⟩ := mem_update.mp ho'
  have hle := (h o ho).1
  split
  · refine ⟨Nat.le_add_left _ _, ?_⟩
    simp only [OrdersRepository.bump, hstatus, false_iff]
    omega
  · exact h o ho

theorem fresh_paidOrders {orders : List Order} {order : Order} (h : ∀ o ∈ orders, o.Fresh) :
    ∀ o ∈ PaymentsRepository.paidOrders order orders, o.Fresh := by
  unfold PaymentsRepository.paidOrders
  split
  · exact fresh_update h (by decide)
  · exact h

/-- No change of statuses leads back to `PENDING`. -/
theorem ne_pending_of_transition {s s' : OrderStatus} (h : s' ∈ transitions s) :
    s' ≠ .pending := by
  cases s <;> cases s' <;> simp_all [transitions]

/-- A paid order is there and no longer pending. -/
def Payment.Moved (orders : List Order) (p : Payment) : Prop :=
  ∃ o ∈ orders, o.id = p.orderId ∧ o.status ≠ .pending

/-- The orders there are, those the payments have read, and those that have been paid. -/
structure World.FreshOrders (w : World) : Prop where
  orders : ∀ o ∈ w.db.orders, o.Fresh
  snapshots : ∀ i user orderId key dto correlationId k snapshot,
    w.calls i = some ⟨.completePayment user orderId key dto, correlationId,
      .paymentCommit k snapshot⟩ → ∀ o ∈ snapshot.orders, o.Fresh
  payments : ∀ p ∈ w.db.payments, p.Moved w.db.orders

/-- Every change keeps pending orders to their first version. -/
theorem Change.fresh {w : World} {db' : Db} (h : Change w db')
    (hok : ∀ i call, w.calls i = some call → call.pc.Ok w.db call.request)
    (hfresh : ∀ o ∈ w.db.orders, o.Fresh) : ∀ o ∈ db'.orders, o.Fresh := by
  cases h with
  | catalog => exact hfresh
  | created hcall hc =>
    obtain ⟨rfl, -, -, -, rfl⟩ := OrdersRepository.createWrite_commits hc
    intro o ho
    rcases List.mem_append.mp ho with hold | hnew
    · exact hfresh o hold
    · rw [List.mem_singleton.mp hnew]
      exact ⟨Nat.le_refl 1, iff_of_true rfl rfl⟩
  | updated hcall hc =>
    obtain ⟨-, -, -, -, rfl⟩ := OrdersRepository.updateStatus_commits hc
    obtain ⟨-, htransition, -⟩ := hok _ _ hcall
    exact fresh_update hfresh (ne_pending_of_transition htransition)
  | paid hcall hc =>
    obtain ⟨order, -, -, -, -, -, -, -, -, rfl⟩ := PaymentsRepository.complete_commits hc
    exact fresh_paidOrders hfresh
  | polled => exact hfresh

/-- What a payment transaction read as pending it confirms, and what it read as anything
else is not pending now. -/
theorem moved_paidOrders {snapshot db : Db} {order : Order} (horder : order ∈ snapshot.orders)
    (hsnapshot : ∀ o ∈ snapshot.orders, o.Fresh) (horders : ∀ o ∈ db.orders, o.Fresh)
    (hev : snapshot.Evolves db) :
    ∃ o ∈ PaymentsRepository.paidOrders order db.orders,
      o.id = order.id ∧ o.status ≠ .pending := by
  obtain ⟨o, ho, hoo⟩ := hev.orders order horder
  unfold PaymentsRepository.paidOrders
  split
  · refine ⟨OrdersRepository.bump .confirmed o, mem_update.mpr ⟨o, ho, ?_⟩, hoo.fixed.1,
      OrderStatus.noConfusion⟩
    rw [if_pos (decide_eq_true hoo.fixed.1)]
  · next hne =>
    exact ⟨o, ho, hoo.fixed.1, (hsnapshot order horder).left (horders o ho) hoo hne⟩

/-- **Every change moves the orders that are paid.** -/
theorem Change.moved {w : World} {db' : Db} (h : Change w db') (hw : system.Reachable w)
    (hf : w.FreshOrders) : ∀ p ∈ db'.payments, p.Moved db'.orders := by
  have hfresh := h.fresh (ok_of_reachable hw) hf.orders
  have hevolves := h.evolves.orders
  have hold : ∀ p ∈ w.db.payments, p.Moved db'.orders := by
    intro p hp
    obtain ⟨o, ho, hid, hne⟩ := hf.payments p hp
    obtain ⟨o', ho', hev⟩ := hevolves o ho
    exact ⟨o', ho', hev.fixed.1.trans hid, (hf.orders o ho).left (hfresh o' ho') hev hne⟩
  cases h with
  | catalog => exact hold
  | created hcall hc =>
    obtain ⟨-, -, -, -, rfl⟩ := OrdersRepository.createWrite_commits hc
    exact hold
  | updated hcall hc =>
    obtain ⟨-, -, -, -, rfl⟩ := OrdersRepository.updateStatus_commits hc
    exact hold
  | paid hcall hc =>
    obtain ⟨-, -, -, hsnapshot⟩ := ok_of_reachable hw _ _ hcall
    obtain ⟨order, horder, hid, rfl, -, -, -, -, -, rfl⟩ := PaymentsRepository.complete_commits hc
    intro p hp
    rcases List.mem_append.mp hp with hmem | hnew
    · exact hold p hmem
    · obtain ⟨o, ho, hoid, hne⟩ := moved_paidOrders horder
        (hf.snapshots _ _ _ _ _ _ _ _ hcall) hf.orders hsnapshot
      refine ⟨o, ho, hoid.trans (hid.trans ?_), hne⟩
      rw [List.mem_singleton.mp hnew]
      rfl
  | polled => exact hold

/-- A payment transaction that has just taken its snapshot has read the present orders. -/
theorem snapshot_of_advance {db db' : Db} {now : ℕ} {c : Choice} {correlationId : Option String}
    {user : AuthenticatedUser} {orderId : UuidText} {key : Option String}
    {dto : CompletePaymentDto} {pc : Pc} {k : String} {snapshot : Db}
    (h : Advance db now c correlationId (.completePayment user orderId key dto) pc db'
      (.paymentCommit k snapshot)) : snapshot = db := by
  cases h
  rfl

theorem freshOrders_of_reachable {w : World} (hw : system.Reachable w) : w.FreshOrders := by
  refine hw.invariant (I := World.FreshOrders) ?_ ?_
  · rintro w ⟨horders, -, hpayments, -, -, hcalls, -⟩
    refine ⟨?_, ?_, ?_⟩
    · rw [horders]
      intro o ho
      cases ho
    · intro i user orderId key dto correlationId k snapshot hcall
      rw [hcalls i] at hcall
      cases hcall
    · rw [hpayments]
      intro p hp
      cases hp
  · intro w a w' hw hf h
    have hchange := change_of_step h
    refine ⟨hchange.fresh (ok_of_reachable hw) hf.orders, ?_, hchange.moved hw hf⟩
    intro i user orderId key dto correlationId k snapshot hcall
    rcases World.calls_of_step h i with hsame | ⟨r, correlationId', rfl⟩ | ⟨c, rfl⟩
    · exact hf.snapshots _ _ _ _ _ _ _ _ (hsame ▸ hcall)
    · obtain ⟨-, rfl⟩ := World.step_request h
      rw [World.accept_calls_self] at hcall
      cases hcall
    · obtain ⟨⟨r, correlationId', pc⟩, db', pc', -, hadv, rfl⟩ := World.step_advance h
      rw [World.move_calls_self] at hcall
      cases hcall
      rw [snapshot_of_advance hadv]
      exact hf.orders

/-- **An order is pending exactly as long as nobody has touched it.**  In every reachable
state the pending orders are those in their first version; and the order of a payment is
there, has left `PENDING`, and is past its first version. -/
theorem pending_iff_untouched {w : World} (hw : system.Reachable w) :
    (∀ o ∈ w.db.orders, o.status = .pending ↔ o.version = 1) ∧
      ∀ p ∈ w.db.payments, ∃ o ∈ w.db.orders, o.id = p.orderId ∧ o.status ≠ .pending ∧
        2 ≤ o.version := by
  have hf := freshOrders_of_reachable hw
  refine ⟨fun o ho => (hf.orders o ho).2, fun p hp => ?_⟩
  obtain ⟨o, ho, hid, hne⟩ := hf.payments p hp
  obtain ⟨hle, hiff⟩ := hf.orders o ho
  have hone : o.version ≠ 1 := fun h => hne (hiff.mpr h)
  refine ⟨o, ho, hid, hne, ?_⟩
  omega

/-- The paid order has moved to `CONFIRMED`, its second version. -/
theorem sample_pending_iff_untouched : ∃ w,
    system.exec World.sample Action.samplePaid = some w ∧
    w.db.orders.map (fun o => (o.status, o.version)) = [(.confirmed, 2)] ∧
    (∀ o ∈ w.db.orders, o.status = .pending ↔ o.version = 1) ∧
    ∀ p ∈ w.db.payments, ∃ o ∈ w.db.orders, o.id = p.orderId ∧ o.status ≠ .pending ∧
      2 ≤ o.version := by
  have hrun : (system.exec World.sample Action.samplePaid).map
      (fun w => w.db.orders.map fun o => (o.status, o.version)) =
        some [(.confirmed, 2)] := by decide
  obtain ⟨w, hw, hrow⟩ := Option.map_eq_some_iff.mp hrun
  exact ⟨w, hw, hrow, pending_iff_untouched (World.sample_reachable.exec hw)⟩

end ScaleForge
