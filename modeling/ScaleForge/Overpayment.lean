import ScaleForge.Evolution

/-!
# What an order is paid

Nothing on the payment path looks at the payments an order already has, or asks
whether it has been cancelled: idempotency is per key, and every key may record
one payment of the order's total.  So an order is paid its total once for each
key, and a payment of an order that is not pending leaves the orders alone.

## Main definitions

* `completedPayments`, `paidAmount` — the completed payments of an order, and
  what they add up to.

## Main results

* `payment_amounts` — every payment is completed, over the total of its order.
* `paid_once_per_key` — an order is paid its total once for each key, and a
  payment of an order read as not pending keeps the orders.
* `order_overpaid` — two keys pay an order twice, and a cancelled order is paid.
-/

namespace ScaleForge

open Transaction

/-- The completed payments of an order. -/
def completedPayments (db : Db) (o : Order) : List Payment :=
  db.payments.filter fun p => p.orderId = o.id && p.status = .completed

/-- The sum of some payments, in hundredths. -/
def paidAmount (payments : List Payment) : ℤ :=
  (payments.map fun p => p.amount.hundredths).sum

/-- A payment is completed, over the total of its order. -/
def Payment.InFull (orders : List Order) (p : Payment) : Prop :=
  p.status = .completed ∧ ∃ o ∈ orders, o.id = p.orderId ∧ o.totalAmount = p.amount

theorem Payment.InFull.evolves {orders orders' : List Order} {p : Payment} (h : p.InFull orders)
    (hev : ∀ o ∈ orders, ∃ o' ∈ orders', o.Evolves o') : p.InFull orders' := by
  obtain ⟨hstatus, o, ho, hid, htotal⟩ := h
  obtain ⟨o', ho', hoo'⟩ := hev o ho
  obtain ⟨hid', -, -, htotal'⟩ := hoo'.fixed
  exact ⟨hstatus, o', ho', hid'.trans hid, htotal'.trans htotal⟩

/-- **Every change keeps payments over the totals of their orders.** -/
theorem Change.inFull {w : World} {db' : Db} (h : Change w db')
    (hok : ∀ i call, w.calls i = some call → call.pc.Ok w.db call.request)
    (hp : ∀ p ∈ w.db.payments, p.InFull w.db.orders) :
    ∀ p ∈ db'.payments, p.InFull db'.orders := by
  have hevolves := h.evolves.orders
  have hold : ∀ p ∈ w.db.payments, p.InFull db'.orders :=
    fun p hmem => (hp p hmem).evolves hevolves
  cases h with
  | catalog => exact hold
  | created hcall h =>
    obtain ⟨-, -, -, -, rfl⟩ := OrdersRepository.createWrite_commits h
    exact hold
  | updated hcall h =>
    obtain ⟨-, -, -, -, rfl⟩ := OrdersRepository.updateStatus_commits h
    exact hold
  | paid hcall h =>
    obtain ⟨-, -, -, hsnapshot⟩ := hok _ _ hcall
    obtain ⟨order, hmem, hid, rfl, -, -, -, -, -, rfl⟩ := PaymentsRepository.complete_commits h
    intro p hp'
    rcases List.mem_append.mp hp' with hmem' | hmem'
    · exact hold p hmem'
    · rw [List.mem_singleton.mp hmem']
      -- the order the transaction read has evolved into a present one
      obtain ⟨o, ho, hev⟩ := hsnapshot.orders order hmem
      obtain ⟨o', ho', hev'⟩ := hevolves o ho
      obtain ⟨hid', -, -, htotal⟩ := (hev.trans hev').fixed
      exact ⟨rfl, o', ho', hid'.trans hid, htotal⟩
  | polled h => exact hold

/-- **Every payment is completed, over the total of its order.** -/
theorem payment_amounts {w : World} (hw : system.Reachable w) :
    ∀ p ∈ w.db.payments, p.InFull w.db.orders := by
  refine hw.invariant (I := fun w => ∀ p ∈ w.db.payments, p.InFull w.db.orders) ?_ ?_
  · intro w h0 p hp
    rw [h0.2.2.1] at hp
    cases hp
  · intro w a w' hw ih hstep
    exact (change_of_step hstep).inFull (ok_of_reachable hw) ih

/-- The sum of payments that are all over one amount. -/
theorem paidAmount_eq {payments : List Payment} {amount : Decimal}
    (h : ∀ p ∈ payments, p.amount = amount) :
    paidAmount payments = payments.length * amount.hundredths := by
  unfold paidAmount
  rw [List.map_congr_left fun p hp => congrArg Decimal.hundredths (h p hp), List.map_const',
    List.sum_replicate_int]

/-- **An order is paid its total once for each key.**  In every reachable state
the completed payments of an order carry pairwise different keys, each is over
its total, and so they add up to its total times their number; and a step in
which a transaction that read the order as anything but pending records a
payment leaves the orders as they were. -/
theorem paid_once_per_key {w : World} (hw : system.Reachable w) :
    (∀ o ∈ w.db.orders,
      ((completedPayments w.db o).map Payment.idempotencyKey).Nodup ∧
      (∀ p ∈ completedPayments w.db o, p.amount = o.totalAmount) ∧
      paidAmount (completedPayments w.db o) =
        (completedPayments w.db o).length * o.totalAmount.hundredths) ∧
    ∀ i c w' user orderId key dto correlationId k snapshot,
      w.calls i = some ⟨.completePayment user orderId key dto, correlationId,
        .paymentCommit k snapshot⟩ →
      system.step w (.advance i c) = some w' →
      ∀ o ∈ snapshot.orders, o.id = orderId.value → o.status ≠ .pending →
        w'.db.orders = w.db.orders := by
  have hkeys := keys_of_reachable hw
  refine ⟨fun o ho => ?_, ?_⟩
  · have hamounts : ∀ p ∈ completedPayments w.db o, p.amount = o.totalAmount := by
      intro p hp
      simp only [completedPayments, List.mem_filter, Bool.and_eq_true, decide_eq_true_eq] at hp
      obtain ⟨hmem, horder, -⟩ := hp
      obtain ⟨-, o', ho', hid, htotal⟩ := payment_amounts hw p hmem
      rw [← htotal, hkeys.orders.eq_of_key ho' ho (hid.trans horder)]
    exact ⟨hkeys.idempotencyKeys.sublist (List.filter_sublist.map _), hamounts,
      paidAmount_eq hamounts⟩
  · intro i c w' user orderId key dto correlationId k snapshot hcall hstep o ho hid hstatus
    obtain ⟨call, db', pc', hcall', hadv, rfl⟩ := World.step_advance hstep
    rw [hcall, Option.some.injEq] at hcall'
    subst hcall'
    obtain ⟨-, -, hsnapshot, -⟩ := ok_of_reachable hw i _ hcall
    cases hadv with
    | reject => rfl
    | paid hc =>
      obtain ⟨order, hmem, hoid, -, -, -, -, -, -, rfl⟩ := PaymentsRepository.complete_commits hc
      -- the order the transaction read is `o`
      obtain rfl : order = o := hsnapshot.orders.eq_of_key hmem ho (hoid.trans hid.symm)
      exact if_neg hstatus

/-! ### Two keys, and a cancelled order -/

/-- The order has been placed and is paid under two keys. -/
def paidUnderTwoKeys : List Action :=
  Action.sampleOrder ++ Action.samplePayment 1 (Uuid.repeated 3).text "first-payment-key" 4 ++
    Action.samplePayment 2 (Uuid.repeated 3).text "second-payment-key" 5

/-- The order is paid under two keys, its total each time. -/
theorem sample_paid_twice : ∃ w o, system.exec World.sample paidUnderTwoKeys = some w ∧
    w.db.orders = [o] ∧ (completedPayments w.db o).length = 2 ∧
    paidAmount (completedPayments w.db o) = 2 * o.totalAmount.hundredths := by
  have hrun : (system.exec World.sample paidUnderTwoKeys).map
      (fun w => w.db.orders.map fun o => (completedPayments w.db o).length) = some [2] := by decide
  obtain ⟨w, hw, hlen⟩ := Option.map_eq_some_iff.mp hrun
  obtain ⟨o, ho, hlen⟩ := List.map_eq_singleton_iff.mp hlen
  obtain ⟨horders, -⟩ := paid_once_per_key (World.sample_reachable.exec hw)
  have hsum := (horders o (by rw [ho]; exact List.mem_singleton.mpr rfl)).2.2
  rw [hlen] at hsum
  exact ⟨w, o, hw, ho, hlen, hsum⟩

/-- The order has been placed and cancelled, and the customer's payment is about
to commit. -/
def payingCancelled : List Action :=
  Action.sampleOrder ++ Action.sampleStatus 1 .cancelled 0 4 ++
    (Action.samplePayment 2 (Uuid.repeated 3).text "first-payment-key" 5).take 4

/-- What the transaction of a payment has read. -/
def World.readBy (w : World) (i : ℕ) : Option (List (Uuid × OrderStatus)) :=
  (w.calls i).bind fun call =>
    match call.pc with
    | .paymentCommit _ snapshot => some (snapshot.orders.map fun o => (o.id, o.status))
    | _ => none

/-- **An order can be overpaid, and paid when it has been cancelled.** -/
theorem order_overpaid :
    (¬∀ w, system.Reachable w → ∀ o ∈ w.db.orders,
      paidAmount (completedPayments w.db o) ≤ o.totalAmount.hundredths) ∧
    ¬∀ w, system.Reachable w → ∀ i c w' user orderId key dto correlationId k snapshot,
      w.calls i = some ⟨.completePayment user orderId key dto, correlationId,
        .paymentCommit k snapshot⟩ →
      system.step w (.advance i c) = some w' →
      ∀ o ∈ snapshot.orders, o.id = orderId.value → o.status = .cancelled →
        w'.db.payments = w.db.payments := by
  refine ⟨fun hclaim => ?_, fun hclaim => ?_⟩
  · have hrun : (system.exec World.sample paidUnderTwoKeys).map (fun w => w.db.orders.map
        fun o => (paidAmount (completedPayments w.db o), o.totalAmount.hundredths)) =
          some [(5000, 2500)] := by decide
    obtain ⟨w, hw, hpaid⟩ := Option.map_eq_some_iff.mp hrun
    obtain ⟨o, ho, hpaid⟩ := List.map_eq_singleton_iff.mp hpaid
    have hle := hclaim w (World.sample_reachable.exec hw) o
      (by rw [ho]; exact List.mem_singleton.mpr rfl)
    rw [Prod.mk.injEq] at hpaid
    rw [hpaid.1, hpaid.2] at hle
    exact absurd hle (by decide)
  · have hbefore : (system.exec World.sample payingCancelled).map
        (fun w => (w.readBy 2, w.db.payments.length)) =
          some (some [(Uuid.repeated 3, .cancelled)], 0) := by decide
    have hafter : (system.exec World.sample (payingCancelled ++ [.advance 2 (.sample 5)])).map
        (fun w => w.db.payments.length) = some 1 := by decide
    obtain ⟨w, hw, hread⟩ := Option.map_eq_some_iff.mp hbefore
    obtain ⟨w', hw', hlen⟩ := Option.map_eq_some_iff.mp hafter
    rw [Transition.Sys.exec_append, hw, Option.bind_some, Transition.Sys.exec_singleton] at hw'
    rw [Prod.mk.injEq] at hread
    -- call `2` is the customer's payment, and its transaction has read the order
    obtain ⟨u, u', -, -, hrequest⟩ := Transition.Sys.takes_of_exec
      (Action.sampleOrder ++ Action.sampleStatus 1 .cancelled 0 4)
      (List.replicate 3 (.advance 2 (.sample 5))) hw
    obtain ⟨pc, hcall⟩ := exists_call_of_request World.sample_reachable hw hrequest
    have hsnapshot := hread.1
    simp only [World.readBy, hcall, Option.bind_some] at hsnapshot
    split at hsnapshot
    · next k snapshot =>
      rw [Option.some.injEq] at hsnapshot
      obtain ⟨o, ho, hcancelled⟩ := List.map_eq_singleton_iff.mp hsnapshot
      rw [Prod.mk.injEq] at hcancelled
      have hsame := hclaim w (World.sample_reachable.exec hw) 2 (.sample 5) w' _ _ _ _ _ _ _ hcall
        hw' o (by rw [ho]; exact List.mem_singleton.mpr rfl) hcancelled.1 hcancelled.2
      rw [hsame, hread.2] at hlen
      cases hlen
    · cases hsnapshot

end ScaleForge
