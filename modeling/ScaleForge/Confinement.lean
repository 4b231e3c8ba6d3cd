import ScaleForge.Evolution

/-!
# What a user's requests can touch

A user may place orders, cancel her own and pay for her own.  Who owns an order is
checked against a row read earlier, and the writes name the order by its id only;
they hit the same owner's row because no write ever changes the owner of an order.

## Main definitions

* `Db.ofOthers` — the order belongs to somebody else.
* `Confined` — the frame of a step of a user's request.

## Main results

* `user_confined` — **a user's request touches the user's own orders only**, and
  those only by cancelling, or by confirming a pending one.
-/

namespace ScaleForge

open Transaction Table

/-- Who has sent the request. -/
def Request.user : Request → AuthenticatedUser
  | .createOrder user _ => user
  | .updateStatus user _ _ => user
  | .completePayment user _ _ _ => user

/-- The request changes a status. -/
def Request.isUpdateStatus : Request → Bool
  | .updateStatus _ _ _ => true
  | _ => false

/-- The request is a payment. -/
def Request.isCompletePayment : Request → Bool
  | .completePayment _ _ _ _ => true
  | _ => false

/-- The order with this id belongs to somebody else. -/
def Db.ofOthers (db : Db) (userId orderId : Uuid) : Bool :=
  db.orders.any fun o => o.id = orderId && o.userId ≠ userId

/-- What a step of a request `r` of the user changes: no order, item or payment of
anybody else; of the user's orders the status and the version, by a cancellation or by
the confirmation of a pending one; and the orders it adds are the user's. -/
structure Confined (userId : Uuid) (r : Request) (db db' : Db) : Prop where
  otherOrders : db'.orders.filter (fun o => o.userId ≠ userId) =
    db.orders.filter fun o => o.userId ≠ userId
  otherItems : db'.orderItems.filter (fun x => db'.ofOthers userId x.orderId) =
    db.orderItems.filter fun x => db.ofOthers userId x.orderId
  otherPayments : db'.payments.filter (fun p => db'.ofOthers userId p.orderId) =
    db.payments.filter fun p => db.ofOthers userId p.orderId
  ownOrders : ∀ o ∈ db.orders, o.userId = userId → ∀ o' ∈ db'.orders, o'.id = o.id →
    o' = o ∨
      (r.isUpdateStatus = true ∧ o' = { o with status := .cancelled, version := o.version + 1 }) ∨
      (r.isCompletePayment = true ∧ o.status = .pending ∧
        o' = { o with status := .confirmed, version := o.version + 1 })
  ownRows : db.payments <+: db'.payments ∧ ∃ items, db'.orderItems = db.orderItems ++ items ∧
    ∀ x ∈ items, ∀ o ∈ db.orders, o.id ≠ x.orderId
  newOrders : ∀ o' ∈ db'.orders, (∀ o ∈ db.orders, o.id ≠ o'.id) → o'.userId = userId

/-! ### Whose orders there are -/

section Others

variable {db db' : Db} {userId orderId : Uuid}

theorem ofOthers_eq_false_iff :
    db.ofOthers userId orderId = false ↔ ∀ o ∈ db.orders, o.id = orderId → o.userId = userId := by
  simp [Db.ofOthers]

/-- Changing statuses changes no owner. -/
theorem ofOthers_update {p : Order → Bool} {status : OrderStatus}
    (h : db'.orders = update p (OrdersRepository.bump status) db.orders) :
    db'.ofOthers userId orderId = db.ofOthers userId orderId := by
  unfold Db.ofOthers update at *
  rw [h, List.any_map]
  congr 1
  funext o
  simp only [Function.comp_apply]
  split <;> rfl

theorem ofOthers_paidOrders {order : Order}
    (h : db'.orders = PaymentsRepository.paidOrders order db.orders) :
    db'.ofOthers userId orderId = db.ofOthers userId orderId := by
  unfold PaymentsRepository.paidOrders at h
  split at h
  · exact ofOthers_update h
  · rw [Db.ofOthers, h, Db.ofOthers]

/-- The order with the id of a row belongs to the owner of that row. -/
theorem ofOthers_of_mem (hk : db.Keys) {o : Order} (ho : o ∈ db.orders) (hid : o.id = orderId)
    (huser : o.userId = userId) : db.ofOthers userId orderId = false := by
  rw [ofOthers_eq_false_iff]
  intro o' ho' hid'
  rw [hk.orders.eq_of_key ho' ho (hid'.trans hid.symm)]
  exact huser

end Others

/-! ### The steps -/

section Steps

variable {db db' : Db} {user : AuthenticatedUser}

theorem Confined.refl (hk : db.Keys) (userId : Uuid) (r : Request) : Confined userId r db db where
  otherOrders := rfl
  otherItems := rfl
  otherPayments := rfl
  ownOrders o ho _ o' ho' hid := Or.inl (hk.orders.eq_of_key ho' ho hid)
  ownRows := ⟨List.prefix_refl _, [], by simp, nofun⟩
  newOrders o' ho' hnew := absurd rfl (hnew o' ho')

/-- An order creation adds an order of the user. -/
theorem confined_of_create (hk : db.Keys) {dto : CreateOrderDto} {correlationId : Option String}
    {lineItems : List OrdersRepository.LineItem} {fresh : FreshIds} {now : ℕ} {o : Order}
    (h : Commits (OrdersRepository.createWrite user.id dto correlationId lineItems fresh now)
      db o db') : Confined user.id (.createOrder user dto) db db' := by
  obtain ⟨ho, hfresh, -, -, rfl⟩ := OrdersRepository.createWrite_commits h
  have hown : o.userId = user.id := by rw [ho]; rfl
  have hothers : ∀ orderId, ({ db with orders := db.orders ++ [o] } : Db).ofOthers user.id orderId =
      db.ofOthers user.id orderId := by
    intro orderId
    simp [Db.ofOthers, hown]
  have hitems : ∀ x ∈ OrdersRepository.newItems lineItems fresh, x.orderId = o.id := by
    intro x hx
    obtain ⟨n, hn, rfl⟩ := List.mem_mapIdx.mp hx
    rw [ho]
    rfl
  have hnone : db.ofOthers user.id o.id = false :=
    ofOthers_eq_false_iff.mpr fun r hr hid => absurd hid (hfresh r hr)
  refine ⟨?_, ?_, ?_, ?_, ⟨List.prefix_refl _, _, rfl, ?_⟩, ?_⟩
  · rw [filter_append_singleton, if_neg (by simp [hown])]
  · rw [List.filter_append]
    have hold : ∀ x : OrderItem, ({ db with orders := db.orders ++ [o] } : Db).ofOthers user.id
        x.orderId = db.ofOthers user.id x.orderId := fun x => hothers x.orderId
    have hnew : (OrdersRepository.newItems lineItems fresh).filter
        (fun x => db.ofOthers user.id x.orderId) = [] := by
      refine List.filter_eq_nil_iff.mpr fun x hx => ?_
      rw [hitems x hx, hnone]
      exact Bool.false_ne_true
    simp only [Db.ofOthers] at hold hnew ⊢
    simp only [hold, hnew, List.append_nil]
  · have hold : ∀ p : Payment, ({ db with orders := db.orders ++ [o] } : Db).ofOthers user.id
        p.orderId = db.ofOthers user.id p.orderId := fun p => hothers p.orderId
    simp only [Db.ofOthers] at hold ⊢
    simp only [hold]
  · intro r hr _ r' hr' hid
    rcases List.mem_append.mp hr' with hmem | hmem
    · exact Or.inl (hk.orders.eq_of_key hmem hr hid)
    · rw [List.mem_singleton.mp hmem] at hid
      exact absurd hid.symm (hfresh r hr)
  · intro x hx r hr
    rw [hitems x hx]
    exact hfresh r hr
  · intro r' hr' hnew
    rcases List.mem_append.mp hr' with hmem | hmem
    · exact absurd rfl (hnew r' hmem)
    · rw [List.mem_singleton.mp hmem]
      exact hown

/-- A status change of a user cancels one of the user's orders. -/
theorem confined_of_update (hk : db.Keys) {id : UuidText} {dto : UpdateOrderStatusDto}
    {correlationId : Option String} {fresh : FreshIds} {now : ℕ} {o : Order}
    (hstatus : dto.status = .cancelled) (hown : ∀ r ∈ db.orders, r.id = id.value →
      r.userId = user.id)
    (h : Commits (OrdersRepository.updateStatus id dto.version dto.status user.id correlationId
      fresh now) db o db') : Confined user.id (.updateStatus user id dto) db db' := by
  obtain ⟨-, -, -, -, rfl⟩ := OrdersRepository.updateStatus_commits h
  have hmatch : ∀ r, OrdersRepository.atVersion id dto.version r = true → r.id = id.value := by
    intro r hr
    simp only [OrdersRepository.atVersion, Bool.and_eq_true, decide_eq_true_eq] at hr
    exact hr.1
  refine ⟨?_, ?_, ?_, ?_, ⟨List.prefix_refl _, [], by simp, nofun⟩, ?_⟩
  · refine filter_update_of_not fun r hr hp => ?_
    simp [OrdersRepository.bump, hown r hr (hmatch r hp)]
  · exact List.filter_congr fun x _ => ofOthers_update rfl
  · exact List.filter_congr fun p _ => ofOthers_update rfl
  · intro r hr _ r' hr' hid
    rw [hk.orders.eq_of_mem_update hr hr' hid fun _ => rfl]
    split
    · refine Or.inr (Or.inl ⟨rfl, ?_⟩)
      rw [OrdersRepository.bump, hstatus]
    · exact Or.inl rfl
  · intro r' hr' hnew
    obtain ⟨s, hs, hid⟩ := exists_key_of_mem_update Order.id hr' fun _ => rfl
    exact absurd hid.symm (hnew s hs)

/-- A payment of a user pays one of the user's orders. -/
theorem confined_of_pay (hk : db.Keys) {orderId : UuidText} {key : Option String} {k : String}
    {dto : CompletePaymentDto} {correlationId : Option String} {snapshot : Db}
    {fresh : FreshIds} {now : ℕ} {p : Payment} (hsnapshot : snapshot.Keys)
    (hown : ∃ r ∈ db.orders, r.id = orderId.value ∧ r.userId = user.id)
    (h : Commits (PaymentsRepository.complete snapshot
      (paymentInput user orderId k dto correlationId) fresh now) db p db') :
    Confined user.id (.completePayment user orderId key dto) db db' := by
  obtain ⟨order, hmem, horderId, rfl, -, -, -, -, hrow, rfl⟩ :=
    PaymentsRepository.complete_commits h
  obtain ⟨own, hownMem, hownId, huser⟩ := hown
  have horder : ∀ r ∈ db.orders, r.id = order.id → r = own := fun r hr hid =>
    hk.orders.eq_of_key hr hownMem (hid.trans (horderId.trans hownId.symm))
  have hothers : ∀ id : Uuid, ({ db with
      orders := PaymentsRepository.paidOrders order db.orders } : Db).ofOthers user.id id =
        db.ofOthers user.id id := fun id => ofOthers_paidOrders rfl
  refine ⟨?_, ?_, ?_, ?_, ⟨List.prefix_append _ _, [], by simp, nofun⟩, ?_⟩
  · unfold PaymentsRepository.paidOrders
    split
    · refine filter_update_of_not fun r hr hp => ?_
      simp [OrdersRepository.bump, horder r hr (by simpa using hp), huser]
    · rfl
  · exact List.filter_congr fun x _ => hothers x.orderId
  · have hpaid : db.ofOthers user.id orderId.value = false :=
      ofOthers_of_mem hk hownMem hownId huser
    rw [filter_append_singleton, if_neg]
    · exact List.filter_congr fun p _ => hothers p.orderId
    · have hnot : ({ db with orders := PaymentsRepository.paidOrders order db.orders } :
          Db).ofOthers user.id orderId.value ≠ true := by
        rw [hothers, hpaid]
        exact Bool.false_ne_true
      exact hnot
  · intro r hr _ r' hr' hid
    unfold PaymentsRepository.paidOrders at hr'
    split at hr'
    · next hpending =>
      rw [hk.orders.eq_of_mem_update hr hr' hid fun _ => rfl]
      split
      · next hp =>
        -- the row is the one the transaction read, which was pending
        obtain ⟨row, hfound, hread⟩ := hrow hpending
        have hr : r = row :=
          hk.orders.eq_of_key hr (find_mem hfound).1
            ((of_decide_eq_true hp).trans (find_mem hfound).2.symm)
        have horder' : order = row := by
          rw [(find_eq_some_iff hsnapshot.orders).mpr ⟨hmem, rfl⟩, Option.some.injEq] at hread
          exact hread
        refine Or.inr (Or.inr ⟨rfl, ?_, rfl⟩)
        rw [hr, ← horder']
        exact hpending
      · exact Or.inl rfl
    · exact Or.inl (hk.orders.eq_of_key hr' hr hid)
  · intro r' hr' hnew
    unfold PaymentsRepository.paidOrders at hr'
    split at hr'
    · obtain ⟨s, hs, hid⟩ := exists_key_of_mem_update Order.id hr' fun _ => rfl
      exact absurd hid.symm (hnew s hs)
    · exact absurd rfl (hnew r' hr')

end Steps

/-- **A user's request is confined to the user's own orders.**  In every reachable
state, whatever else is under way, every step of a request of a user changes no order,
item or payment of anybody else; of the user's orders it only cancels one, or confirms
a pending one by a payment; and the orders it adds are the user's. -/
theorem user_confined {w w' : World} (hw : system.Reachable w) {i : ℕ} {c : Choice} {call : Call}
    (hcall : w.calls i = some call) (hrole : call.request.user.role = .user)
    (h : system.step w (.advance i c) = some w') :
    Confined call.request.user.id call.request w.db w'.db := by
  have hk := keys_of_reachable hw
  have hok := ok_of_reachable hw i call hcall
  obtain ⟨call', db', pc', hcall', hadv, rfl⟩ := World.step_advance h
  rw [hcall, Option.some.injEq] at hcall'
  subst hcall'
  obtain ⟨request, correlationId, pc⟩ := call
  cases hadv with
  | created hc => exact confined_of_create hk hc
  | updated hc =>
    obtain ⟨hid, -, hown, o, ho, hev⟩ := hok
    obtain ⟨huser, hstatus⟩ := hown hrole
    refine confined_of_update hk hstatus (fun r hr hrid => ?_) hc
    -- the row is the present version of the one the check read
    obtain ⟨hid', huser', -, -⟩ := hev.fixed
    rw [hk.orders.eq_of_key hr ho (hrid.trans (hid'.trans hid).symm)]
    exact huser'.trans huser
  | paid hc =>
    obtain ⟨-, ⟨o, ho, hid, hown⟩, hsnapshot, hev⟩ := hok
    obtain ⟨o', ho', hoo'⟩ := hev.orders o ho
    obtain ⟨hid', huser', -, -⟩ := hoo'.fixed
    exact confined_of_pay hk hsnapshot ⟨o', ho', hid'.trans hid, huser'.trans (hown hrole)⟩ hc
  | _ => exact Confined.refl hk _ _

/-- The customer pays the order of the sample runs: it is about to commit. -/
def payingOwn : List Action :=
  Action.sampleOrder ++ (Action.samplePayment 1 (Uuid.repeated 3).text "first-payment-key" 4).take 4

/-- The commit confirms the customer's order and stays within it. -/
theorem sample_user_confined : ∃ w w', system.exec World.sample payingOwn = some w ∧
    system.step w (.advance 1 (.sample 4)) = some w' ∧
    w'.db.orders.map Order.status = [.confirmed] ∧
    Confined customer.id (.samplePayment (Uuid.repeated 3).text "first-payment-key") w.db
      w'.db := by
  have hbefore : (system.exec World.sample payingOwn).isSome = true := by decide
  have hafter : (system.exec World.sample (payingOwn ++ [.advance 1 (.sample 4)])).map
      (fun w => w.db.orders.map Order.status) = some [.confirmed] := by decide
  obtain ⟨w, hw⟩ := Option.isSome_iff_exists.mp hbefore
  obtain ⟨w', hw', hstatus⟩ := Option.map_eq_some_iff.mp hafter
  rw [Transition.Sys.exec_append, hw, Option.bind_some, Transition.Sys.exec_singleton] at hw'
  -- call `1` is the customer's payment
  obtain ⟨u, u', -, -, hrequest⟩ := Transition.Sys.takes_of_exec Action.sampleOrder
    (List.replicate 3 (.advance 1 (.sample 4))) hw
  obtain ⟨pc, hcall⟩ := exists_call_of_request World.sample_reachable hw hrequest
  exact ⟨w, w', hw, hw', hstatus, user_confined (World.sample_reachable.exec hw) hcall rfl hw'⟩

end ScaleForge
