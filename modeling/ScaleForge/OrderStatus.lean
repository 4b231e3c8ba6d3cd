import ScaleForge.Evolution

/-!
# Status changes and the transition table

`OrdersService.updateStatus` checks the transition against the status `findById`
read, and `OrdersRepository.updateStatus` writes under the version the client
sent.  Nothing compares the two: a client that sends a version ahead of the row
it is about to be checked against has its write land on a later row, and the
status of that row was never checked.

`writesWhatItRead` says when that does not happen: whenever the conditional
update meets the row, the version sent is the version `findById` read.  Along
runs that keep to it every status change is an edge of the table.

## Main definitions

* `writesWhatItRead` — the condition on a step.
* `Allowed` — a status stays or moves along an edge.

## Main results

* `allowed_of_change` — one change of the rows.
* `status_changes_are_transitions` — **every run that keeps to the condition
  changes statuses along the table only.**
* `ready_order_cancelled` — a run that does not.
-/

namespace ScaleForge

open Transaction

/-- The conditional update of a status change does not meet a row that was
changed after the request read it: where the row is at the version sent, that
is the version read. -/
def writesWhatItRead (w : World) : Action → Bool
  | .advance i _ =>
    match w.calls i with
    | some ⟨.updateStatus _ id dto, _, .statusWrite current⟩ =>
      w.db.orders.all fun o =>
        !OrdersRepository.atVersion id dto.version o || decide (dto.version = current.version)
    | _ => true
  | _ => true

/-- A status stays as it is or moves along an edge of the table. -/
def Allowed (s s' : OrderStatus) : Prop := s' = s ∨ s' ∈ transitions s

/-- The edges lead nowhere from a completed or a cancelled order, and a ready
one cannot be cancelled. -/
theorem Allowed.final {s s' : OrderStatus} (h : Allowed s s') :
    (s = .completed → s' = .completed) ∧ (s = .cancelled → s' = .cancelled) ∧
      (s = .ready ∨ s = .completed → s' = .ready ∨ s' = .completed) := by
  cases s <;> simp_all [Allowed, transitions]

/-- Moving every row that meets a condition to one status. -/
theorem allowed_update {p : Order → Bool} {status : OrderStatus} {orders : List Order}
    (hk : Table.UniqueOn Order.id orders)
    (hp : ∀ o ∈ orders, p o = true → status ∈ transitions o.status) {o o' : Order}
    (ho : o ∈ orders) (ho' : o' ∈ Table.update p (OrdersRepository.bump status) orders)
    (hid : o'.id = o.id) : Allowed o.status o'.status := by
  rw [hk.eq_of_mem_update ho ho' hid fun _ => rfl]
  split
  · next h => exact Or.inr (hp o ho h)
  · exact Or.inl rfl

/-- A payment confirms a pending order only while the row is the one of its
snapshot, hence pending. -/
theorem allowed_paidOrders {order : Order} {orders : List Order}
    (hk : Table.UniqueOn Order.id orders)
    (hrow : order.status = .pending → order ∈ orders) {o o' : Order}
    (ho : o ∈ orders) (ho' : o' ∈ PaymentsRepository.paidOrders order orders)
    (hid : o'.id = o.id) : Allowed o.status o'.status := by
  unfold PaymentsRepository.paidOrders at ho'
  split at ho'
  · next hpending =>
    refine allowed_update hk ?_ ho ho' hid
    intro r hr hrid
    have hro : r = order := hk.eq_of_key hr (hrow hpending) (by simpa using hrid)
    rw [hro, hpending]
    decide
  · exact Or.inl (by rw [hk.eq_of_key ho' ho hid])

/-- The row a payment transaction updates is the one it read. -/
theorem pending_row_of_complete {snapshot db : Db} {order : Order} (hs : snapshot.Keys)
    (hmem : order ∈ snapshot.orders)
    (hrow : ∃ row, Table.find Order.id order.id db.orders = some row ∧
      Table.find Order.id order.id snapshot.orders = some row) : order ∈ db.orders := by
  obtain ⟨row, hdb, hsnap⟩ := hrow
  obtain ⟨hrowmem, hrowid⟩ := Table.find_mem hsnap
  rw [← hs.orders.eq_of_key hrowmem hmem hrowid]
  exact (Table.find_mem hdb).1

/-- **One step that keeps to the condition changes statuses along the table
only.** -/
theorem allowed_of_step {w w' : World} {a : Action} (hw : system.Reachable w)
    (hread : writesWhatItRead w a = true) (h : w.step a = some w') {o o' : Order}
    (ho : o ∈ w.db.orders) (ho' : o' ∈ w'.db.orders) (hid : o'.id = o.id) :
    Allowed o.status o'.status := by
  have hk := keys_of_reachable hw
  -- a step that leaves the orders alone leaves this one alone
  have hsame : o' ∈ w.db.orders → Allowed o.status o'.status :=
    fun hmem => Or.inl (by rw [hk.orders.eq_of_key hmem ho hid])
  cases a with
  | request i r correlationId =>
    obtain ⟨-, rfl⟩ := World.step_request h
    exact hsame ho'
  | poll j a =>
    obtain ⟨p, rows, confirmed, -, rfl⟩ := World.step_poll h
    exact hsame ho'
  | advance i c =>
    obtain ⟨⟨request, correlationId, pc⟩, db', pc', hcall, hadv, rfl⟩ := World.step_advance h
    have hok := ok_of_reachable hw i _ hcall
    cases hadv with
    | created hc =>
      obtain ⟨-, hne, -, -, rfl⟩ := OrdersRepository.createWrite_commits hc
      rcases List.mem_append.mp ho' with hmem | hmem
      · exact hsame hmem
      · rw [List.mem_singleton.mp hmem] at hid
        exact absurd hid.symm (hne o ho)
    | updated hc =>
      obtain ⟨-, -, -, -, rfl⟩ := OrdersRepository.updateStatus_commits hc
      obtain ⟨hcid, ht, -, r, hr, hev⟩ := hok
      refine allowed_update hk.orders ?_ ho ho' hid
      intro row hrow hat
      -- the row met is the one `current` has become, at the version read
      simp only [writesWhatItRead, hcall, List.all_eq_true] at hread
      have hver := hread row hrow
      simp only [hat, Bool.not_true, Bool.false_or, decide_eq_true_eq] at hver
      simp only [OrdersRepository.atVersion, Bool.and_eq_true, decide_eq_true_eq] at hat
      have hreq : r = row :=
        hk.orders.eq_of_key hr hrow (hev.fixed.1.trans (hcid.trans hat.1.symm))
      subst hreq
      rw [hev.eq_of_version (by omega)]
      exact ht
    | paid hc =>
      obtain ⟨order, hmem, -, -, -, -, -, -, hrow, rfl⟩ := PaymentsRepository.complete_commits hc
      exact allowed_paidOrders hk.orders
        (fun hp => pending_row_of_complete hok.2.2.1 hmem (hrow hp)) ho ho' hid
    | _ => exact hsame ho'
  | _ => cases h; exact hsame ho'

/-- **Along a whole run that keeps to the condition** an order stays, a
completed one stays completed, a cancelled one cancelled, and a ready one is
never cancelled. -/
theorem final_of_exec {w w' : World} {as : List Action}
    (hw : (system.restrict writesWhatItRead).Reachable w)
    (h : (system.restrict writesWhatItRead).exec w as = some w') {o : Order}
    (ho : o ∈ w.db.orders) :
    ∃ o' ∈ w'.db.orders, o'.id = o.id ∧
      (o.status = .completed → o'.status = .completed) ∧
      (o.status = .cancelled → o'.status = .cancelled) ∧
      (o.status = .ready ∨ o.status = .completed →
        o'.status = .ready ∨ o'.status = .completed) := by
  refine Transition.Sys.exec_stable (I := fun v => ∃ o' ∈ v.db.orders, o'.id = o.id ∧
    (o.status = .completed → o'.status = .completed) ∧
    (o.status = .cancelled → o'.status = .cancelled) ∧
    (o.status = .ready ∨ o.status = .completed → o'.status = .ready ∨ o'.status = .completed))
    ?_ hw ⟨o, ho, rfl, id, id, id⟩ h
  rintro v a v' hv ⟨o', ho', hid, hcompleted, hcancelled, hready⟩ hstep
  obtain ⟨hread, hstep⟩ := Transition.Sys.restrict_step_iff.mp hstep
  obtain ⟨o'', ho'', hev⟩ := (change_of_step hstep).evolves.orders o' ho'
  have hall := (allowed_of_step hv.of_restrict hread hstep ho' ho'' hev.fixed.1).final
  exact ⟨o'', ho'', hev.fixed.1.trans hid, fun hs => hall.1 (hcompleted hs),
    fun hs => hall.2.1 (hcancelled hs), fun hs => hall.2.2 (hready hs)⟩

/-- **Every run that keeps to the condition changes statuses along the table
only**: each step moves each order along an edge or not at all, and over any
stretch of the run completed and cancelled orders stay what they are and a
ready order is never cancelled. -/
theorem status_changes_are_transitions {w : World}
    (hw : (system.restrict writesWhatItRead).Reachable w) :
    (∀ a w', (system.restrict writesWhatItRead).step w a = some w' →
      ∀ o ∈ w.db.orders, ∀ o' ∈ w'.db.orders, o'.id = o.id → o'.status ≠ o.status →
        o'.status ∈ transitions o.status) ∧
    ∀ as w', (system.restrict writesWhatItRead).exec w as = some w' →
      ∀ o ∈ w.db.orders, ∃ o' ∈ w'.db.orders, o'.id = o.id ∧
        (o.status = .completed → o'.status = .completed) ∧
        (o.status = .cancelled → o'.status = .cancelled) ∧
        (o.status = .ready → o'.status ≠ .cancelled) := by
  refine ⟨?_, ?_⟩
  · intro a w' hstep o ho o' ho' hid hne
    obtain ⟨hread, hstep⟩ := Transition.Sys.restrict_step_iff.mp hstep
    rcases allowed_of_step hw.of_restrict hread hstep ho ho' hid with hs | ht
    · exact absurd hs hne
    · exact ht
  · intro as w' hexec o ho
    obtain ⟨o', ho', hid, hcompleted, hcancelled, hready⟩ := final_of_exec hw hexec ho
    refine ⟨o', ho', hid, hcompleted, hcancelled, fun hs => ?_⟩
    rcases hready (Or.inl hs) with h | h <;> rw [h] <;> decide

/-- The customer asks to cancel while the order is pending, sending the version
the order will have once it is ready; the manager then moves it there. -/
def lateCancel : List Action :=
  Action.sampleOrder ++
    [.request 1 (.updateStatus customer (Uuid.repeated 3).text
        ⟨.cancelled, 4, Nat.le_add_left 1 3⟩) none,
      .advance 1 (.sample 4)] ++
    Action.sampleStatus 2 .confirmed 0 5 ++
    Action.sampleStatus 3 .preparing 1 6 ++
    Action.sampleStatus 4 .ready 2 7

/-- The orders of a state, as far as the run below looks at them. -/
def statuses (w : World) : List (Uuid × OrderStatus) :=
  w.db.orders.map fun o => (o.id, o.status)

/-- **A ready order is cancelled** by a request that was checked while it was
pending. -/
theorem ready_order_cancelled :
    ¬∀ w, system.Reachable w → ∀ a w', system.step w a = some w' →
      ∀ o ∈ w.db.orders, ∀ o' ∈ w'.db.orders, o'.id = o.id → o'.status ≠ o.status →
        o'.status ∈ transitions o.status := by
  intro hclaim
  have hbefore : (system.exec World.sample lateCancel).map statuses =
      some [(Uuid.repeated 3, .ready)] := by decide
  have hafter : (system.exec World.sample (lateCancel ++ [.advance 1 (.sample 8)])).map statuses =
      some [(Uuid.repeated 3, .cancelled)] := by decide
  obtain ⟨w, hw, hst⟩ := Option.map_eq_some_iff.mp hbefore
  obtain ⟨w', hw', hst'⟩ := Option.map_eq_some_iff.mp hafter
  rw [Transition.Sys.exec_append, hw, Option.bind_some, Transition.Sys.exec_singleton] at hw'
  obtain ⟨o, ho, heq⟩ := List.map_eq_singleton_iff.mp hst
  obtain ⟨o', ho', heq'⟩ := List.map_eq_singleton_iff.mp hst'
  simp only [Prod.mk.injEq] at heq heq'
  have hedge := hclaim w (World.sample_reachable.exec hw) _ w' hw' o (by simp [ho]) o'
    (by simp [ho']) (by rw [heq.1, heq'.1]) (by rw [heq.2, heq'.2]; decide)
  rw [heq.2, heq'.2] at hedge
  exact absurd hedge (by decide)

/-- The condition is met along a run: the manager confirms the order at the
version it is at. -/
theorem sample_confirm_allowed :
    ∃ w, (system.restrict writesWhatItRead).exec World.sample
        (Action.sampleOrder ++ Action.sampleStatus 1 .confirmed 0 4) = some w ∧
      statuses w = [(Uuid.repeated 3, .confirmed)] ∧
      ∀ a w', (system.restrict writesWhatItRead).step w a = some w' →
        ∀ o ∈ w.db.orders, ∀ o' ∈ w'.db.orders, o'.id = o.id → o'.status ≠ o.status →
          o'.status ∈ transitions o.status := by
  have hrun : ((system.restrict writesWhatItRead).exec World.sample
      (Action.sampleOrder ++ Action.sampleStatus 1 .confirmed 0 4)).map statuses =
        some [(Uuid.repeated 3, .confirmed)] := by decide
  obtain ⟨w, hw, hst⟩ := Option.map_eq_some_iff.mp hrun
  exact ⟨w, hw, hst, (status_changes_are_transitions
    (Transition.Sys.Reachable.exec (.init World.sample_initial) hw)).1⟩

end ScaleForge
