import ScaleForge.Integrity
import ScaleForge.Lib.Progress
import ScaleForge.OrderStatus

/-!
# One request after the other

A request reads at one moment and writes at a later one, and the others run between.  Still
the requests that are answered could have run alone, each from its arrival to its answer, at
the moment of its answer: what a request has read either cannot change any more, or is
read again by the write, or would be read the same at the moment of the write.

For payments this is so in every run, though the transaction works on a snapshot that may
be old.  For the other two it takes a condition, as their writes do not look again at all
they rest on: a creation is written at the prices it has read, a status change at the
version of the request.

## Main definitions

* `Block`, `serial` — the system in which every request runs alone.
* `World.settled` — the state, without the requests that have not been answered.
* `pricesWhatItRead`, `rereads` — the condition on a step.

## Main results

* `complete_congr` — a payment on an old snapshot writes what it would on the present rows.
* `block_of_advance` — the step in which a request is answered could be its whole run.
* `serializable` — **the answered requests could have run one after the other.**
-/

namespace ScaleForge

open Transaction Transition

/-! ### The serial system -/

/-- The request has returned. -/
def Pc.isReturned : Pc → Bool
  | .returned _ => true
  | _ => false

/-- The step is one of a request. -/
def Action.ofRequest : Action → Bool
  | .request _ _ _ => true
  | .advance _ _ => true
  | _ => false

/-- One step of the serial system. -/
inductive Block
  /-- A request arrives, runs and is answered, and nothing runs between. -/
  | request (i : ℕ) (r : Request) (correlationId : Option String) (choices : List Choice)
  /-- A step that is not one of a request. -/
  | other (a : Action)

/-- What a step of the serial system shows: the request it answers, or itself. -/
def Block.shown : Block → ℕ ⊕ Action
  | .request i _ _ _ => .inl i
  | .other a => .inr a

/-- **The serial system**: the requests run one after the other. -/
def serial : Sys World Block where
  init := World.Initial
  step w
    | .request i r correlationId choices =>
      (system.exec w (.request i r correlationId :: choices.map (.advance i))).filter fun w' =>
        (w'.calls i).any fun call => call.pc.isReturned
    | .other a => if a.ofRequest then none else system.step w a

/-- What a step shows: the request it answers, or itself when it is not one of a request. -/
def shows (_ : World) (a : Action) (w' : World) : Option (ℕ ⊕ Action) :=
  match a with
  | .request _ _ _ => none
  | .advance i _ => if (w'.calls i).any fun call => call.pc.isReturned then some (.inl i) else none
  | a => some (.inr a)

/-- The state, without the requests that have not been answered. -/
def World.settled (w : World) : World :=
  { w with calls := fun i => (w.calls i).filter fun call => call.pc.isReturned }

namespace World

variable {w : World} {i : ℕ} {call : Call} {db' : Db} {pc' : Pc}

theorem settled_calls_eq_none (h : ∀ call, w.calls i = some call → call.pc.isReturned = false) :
    w.settled.calls i = none := by
  show (w.calls i).filter (fun call => call.pc.isReturned) = none
  cases hcall : w.calls i with
  | none => rfl
  | some call => simp [h call hcall]

theorem settled_initial (h : w.Initial) : w.settled = w := by
  obtain ⟨-, -, -, -, -, hcalls, -⟩ := h
  have hsame : w.settled.calls = w.calls := by
    funext i
    rw [hcalls i, settled_calls_eq_none fun call hcall => by simp [hcalls i] at hcall]
  show { w with calls := w.settled.calls } = w
  rw [hsame]

/-- A request that has not been answered shows nothing when it moves. -/
theorem settled_move_of_not (hcall : w.calls i = some call) (hpc : call.pc.isReturned = false)
    (hpc' : pc'.isReturned = false) : (w.move i call w.db pc').settled = w.settled := by
  have hcalls : (w.move i call w.db pc').settled.calls = w.settled.calls := by
    funext j
    by_cases hj : j = i
    · subst hj
      have hbefore : w.settled.calls j = none := settled_calls_eq_none fun c hc => by
        rw [hcall, Option.some.injEq] at hc
        exact hc ▸ hpc
      have hafter : (w.move j call w.db pc').settled.calls j = none :=
        settled_calls_eq_none fun c hc => by
          rw [move_calls_self, Option.some.injEq] at hc
          exact hc ▸ hpc'
      rw [hbefore, hafter]
    · show ((w.move i call w.db pc').calls j).filter _ = (w.calls j).filter _
      rw [move_calls_of_ne w hj]
  show { w with calls := (w.move i call w.db pc').settled.calls } = { w with
    calls := w.settled.calls }
  rw [hcalls]

/-- A request that is answered is added to those that have been. -/
theorem settled_move_returned (hpc' : pc'.isReturned = true) :
    (w.move i call db' pc').settled = w.settled.move i call db' pc' := by
  have hcalls : (w.move i call db' pc').settled.calls = (w.settled.move i call db' pc').calls := by
    funext j
    by_cases hj : j = i
    · subst hj
      show ((w.move j call db' pc').calls j).filter _ = _
      rw [move_calls_self, move_calls_self]
      simp [hpc']
    · show ((w.move i call db' pc').calls j).filter _ = _
      rw [move_calls_of_ne w hj, move_calls_of_ne w.settled hj]
      rfl
  show { w.settled.move i call db' pc' with
    calls := (w.move i call db' pc').settled.calls } = w.settled.move i call db' pc'
  rw [hcalls]

theorem move_move (w : World) (i : ℕ) (call : Call) (db db' : Db) (pc pc' : Pc) :
    (w.move i call db pc).move i { call with pc := pc } db' pc' = w.move i call db' pc' := by
  simp [move]

theorem move_self (hcall : w.calls i = some call) : w.move i call w.db call.pc = w := by
  show { w with calls := Function.update w.calls i (some call) } = w
  rw [← hcall, Function.update_eq_self]

end World

/-! ### A request alone -/

/-- A request goes on through its steps, and nothing runs between. -/
def runCall (now : ℕ) (correlationId : Option String) (r : Request) :
    Db → Pc → List Choice → Option (Db × Pc)
  | db, pc, [] => some (db, pc)
  | db, pc, c :: choices => (advance db now c correlationId r pc).bind fun x =>
    runCall now correlationId r x.1 x.2 choices

theorem exec_runCall {w : World} {i : ℕ} {call : Call} {choices : List Choice} {db' : Db}
    {pc' : Pc} (hcall : w.calls i = some call)
    (h : runCall w.clock call.correlationId call.request w.db call.pc choices =
      some (db', pc')) :
    system.exec w (choices.map (.advance i)) = some (w.move i call db' pc') := by
  induction choices generalizing w call with
  | nil =>
    simp only [runCall, Option.some.injEq, Prod.mk.injEq] at h
    obtain ⟨rfl, rfl⟩ := h
    rw [List.map_nil, Sys.exec_nil, World.move_self hcall]
  | cons c choices ih =>
    simp only [runCall, Option.bind_eq_some_iff] at h
    obtain ⟨⟨db₁, pc₁⟩, hfirst, hrest⟩ := h
    have hstep : system.step w (.advance i c) = some (w.move i call db₁ pc₁) := by
      simp only [system, World.step, hcall, hfirst, Option.map_some]
    rw [List.map_cons, Sys.exec_cons, hstep, Option.bind_some,
      ih (World.move_calls_self w i call db₁ pc₁) hrest, World.move_move]

/-- A request that runs alone to its answer is a step of the serial system. -/
theorem serial_request {w : World} {i : ℕ} {call : Call} {choices : List Choice} {db' : Db}
    {pc' : Pc} (hcall : w.calls i = some call) (hpc : call.pc.isReturned = false)
    (hpc' : pc'.isReturned = true)
    (h : runCall w.clock call.correlationId call.request w.db .start choices =
      some (db', pc')) :
    serial.step w.settled (.request i call.request call.correlationId choices) =
      some (w.move i call db' pc').settled := by
  have hnone : w.settled.calls i = none := World.settled_calls_eq_none fun c hc => by
    rw [hcall, Option.some.injEq] at hc
    exact hc ▸ hpc
  have harrive : system.step w.settled (.request i call.request call.correlationId) =
      some (w.settled.accept i call.request call.correlationId) := by
    simp only [system, World.step, hnone]
  have hrun := exec_runCall (World.accept_calls_self w.settled i call.request call.correlationId) h
  have hends : (w.settled.accept i call.request call.correlationId).move i
      ⟨call.request, call.correlationId, .start⟩ db' pc' = (w.move i call db' pc').settled := by
    rw [World.settled_move_returned hpc']
    simp [World.accept, World.move]
  simp only [serial, Sys.exec_cons, harrive, Option.bind_some, hrun, hends]
  rw [Option.filter_eq_some_iff]
  refine ⟨rfl, ?_⟩
  rw [World.settled_move_returned hpc', World.move_calls_self]
  exact hpc'

/-! ### Payments on an old snapshot -/

section Payments

open PaymentsRepository

variable {snapshot db : Db} {order current : Order} {input : Input} {fresh : FreshIds} {now : ℕ}

/-- A statement that finds its order. -/
theorem findUniqueOrThrow_apply {view : Db → List Order} {id : Uuid} {w : Work Db}
    (h : Table.find Order.id id (view w.db) = some order) :
    Order.findUniqueOrThrow view id w =
      if w.fuse = some 0 then .error .infrastructure
      else .ok (order, ⟨w.db, w.fuse.map Nat.pred⟩) := by
  unfold Order.findUniqueOrThrow sql statement
  split
  · next hfuse => rw [if_pos hfuse]
  · next hfuse =>
    rw [if_neg hfuse]
    simp only [h]

/-- Reading the order in the snapshot or now comes to the same confirmation. -/
theorem confirm_congr (hid : current.id = order.id)
    (hrow : order.status = .pending → Table.find Order.id order.id snapshot.orders =
      Table.find Order.id order.id db.orders)
    (hstatus : order.status = .pending ↔ current.status = .pending) :
    confirm snapshot order = confirm db current := by
  unfold confirm
  by_cases hpending : order.status = .pending
  · rw [if_pos hpending, if_pos (hstatus.mp hpending), hid]
    unfold Order.updateSerializable
    rw [hrow hpending]
  · rw [if_neg hpending, if_neg fun h => hpending (hstatus.mpr h)]

/-- **A payment on an old snapshot writes what it would on the present rows**, if the order is
still pending or was not pending when the snapshot was taken. -/
theorem complete_congr (hev : order.Evolves current)
    (hsnapshot : Table.find Order.id input.orderId.value snapshot.orders = some order)
    (hdb : Table.find Order.id input.orderId.value db.orders = some current)
    (hrow : order.status = .pending → current = order)
    (hstatus : order.status = .pending ↔ current.status = .pending) (fuse : Option ℕ) :
    complete snapshot input fresh now ⟨db, fuse⟩ = complete db input fresh now ⟨db, fuse⟩ := by
  obtain ⟨hid, huser, -, htotal⟩ := hev.fixed
  have horderId := (Table.find_mem hsnapshot).2
  have hconfirm : confirm snapshot order = confirm db current := by
    refine confirm_congr hid (fun hpending => ?_) hstatus
    rw [horderId, hsnapshot, hdb, hrow hpending]
  -- what the rest of the transaction takes from the order is the same in both
  have hpayment : newPayment input current fresh now = newPayment input order fresh now := by
    simp only [newPayment, htotal]
  have haudit : ∀ payment, completedAudit input current payment fresh now =
      completedAudit input order payment fresh now := fun payment => by
    simp only [completedAudit, hid, htotal]
  have hevent : ∀ payment, completedEvent input current payment fresh now =
      completedEvent input order payment fresh now := fun payment => by
    simp only [completedEvent, hid, huser, htotal]
  unfold complete
  rw [bind_apply, bind_apply, findUniqueOrThrow_apply hsnapshot, findUniqueOrThrow_apply hdb]
  split
  · rfl
  · simp only [bind, Except.bind]
    rw [hpayment, hconfirm]
    simp only [haudit, hevent]

end Payments

/-! ### What a request has read -/

/-- A creation is written while the catalog says what it has read. -/
def pricesWhatItRead (w : World) : Action → Bool
  | .advance i _ =>
    match w.calls i with
    | some ⟨.createOrder _ dto, _, .createWrite lineItems⟩ =>
      decide ((OrdersRepository.findRestaurant w.db dto).toOption = some ()) &&
        decide ((OrdersRepository.priceItems dto
          (OrdersRepository.findMenuItems w.db dto)).toOption = some lineItems)
    | _ => true
  | _ => true

/-- **The condition**: creations and status changes write what they would read. -/
def rereads (w : World) (a : Action) : Bool := writesWhatItRead w a && pricesWhatItRead w a

theorem eq_ok_of_toOption {α : Type} {x : Except Failure α} {a : α}
    (h : x.toOption = some a) : x = .ok a := by
  cases x with
  | ok b => exact congrArg Except.ok (Option.some.inj h)
  | error e => cases h

/-- A creation under way names each item once. -/
def Pc.Distinct : Request → Pc → Prop
  | .createOrder _ dto, .createMenu => OrdersService.create dto = .ok ()
  | .createOrder _ dto, .createWrite _ => OrdersService.create dto = .ok ()
  | _, _ => True

theorem Advance.distinct {db db' : Db} {now : ℕ} {c : Choice} {correlationId : Option String}
    {r : Request} {pc pc' : Pc} (h : Advance db now c correlationId r pc db' pc')
    (hpc : pc.Distinct r) : pc'.Distinct r := by
  cases h with
  | reject hpc e => cases r <;> trivial
  | restaurant hdto => exact hdto
  | priced hprice => exact hpc
  | _ => trivial

theorem distinct_of_reachable {w : World} (hw : system.Reachable w) :
    ∀ i call, w.calls i = some call → call.pc.Distinct call.request := by
  refine hw.invariant (I := fun w => ∀ i call, w.calls i = some call →
    call.pc.Distinct call.request) ?_ ?_
  · rintro w ⟨-, -, -, -, -, hcalls, -⟩ i call hcall
    rw [hcalls i] at hcall
    cases hcall
  · intro w a w' _ ih h i call hcall
    rcases World.calls_of_step h i with hsame | ⟨r, correlationId, rfl⟩ | ⟨c, rfl⟩
    · exact ih i call (hsame ▸ hcall)
    · obtain ⟨-, rfl⟩ := World.step_request h
      rw [World.accept_calls_self, Option.some.injEq] at hcall
      subst hcall
      cases r <;> trivial
    · obtain ⟨old, db', pc', hold, hadv, rfl⟩ := World.step_advance h
      rw [World.move_calls_self, Option.some.injEq] at hcall
      subst hcall
      exact hadv.distinct (ih i old hold)

/-! ### The step of an answer -/

/-- The same choice, without a fault. -/
def Choice.calm (c : Choice) : Choice := { c with fuse := none }

section Run

variable {db db' : Db} {now : ℕ} {c : Choice} {correlationId : Option String} {r : Request}
  {pc pc' : Pc}

theorem runCall_cons {db₁ : Db} {pc₁ : Pc} {choices : List Choice}
    (h : advance db now c correlationId r pc = some (db₁, pc₁)) :
    runCall now correlationId r db pc (c :: choices) =
      runCall now correlationId r db₁ pc₁ choices := by
  simp only [runCall, h, Option.bind_some]

theorem runCall_singleton (h : advance db now c correlationId r pc = some (db', pc')) :
    runCall now correlationId r db pc [c] = some (db', pc') := runCall_cons h

/-- A creation would come to its lines again. -/
theorem runCall_creation {user : AuthenticatedUser} {dto : CreateOrderDto}
    {lineItems : List OrdersRepository.LineItem} (hdto : OrdersService.create dto = .ok ())
    (hrestaurant : OrdersRepository.findRestaurant db dto = .ok ())
    (hprice : OrdersRepository.priceItems dto (OrdersRepository.findMenuItems db dto) =
      .ok lineItems) (choices : List Choice) :
    runCall now correlationId (.createOrder user dto) db .start (c.calm :: c.calm :: choices) =
      runCall now correlationId (.createOrder user dto) db (.createWrite lineItems) choices := by
  have hfound : advance db now c.calm correlationId (.createOrder user dto) .start =
      some (db, .createMenu) := by
    simp only [advance, hdto, hrestaurant, orReject]
    rfl
  have hpriced : advance db now c.calm correlationId (.createOrder user dto) .createMenu =
      some (db, .createWrite lineItems) := by
    simp only [advance, hprice, orReject]
    rfl
  rw [runCall_cons hfound, runCall_cons hpriced]

/-- A status change would pass its checks again. -/
theorem runCall_status {user : AuthenticatedUser} {id : UuidText} {dto : UpdateOrderStatusDto}
    {current : Order}
    (h : OrdersService.updateStatus user dto (OrdersRepository.findById db id) = .ok current)
    (choices : List Choice) :
    runCall now correlationId (.updateStatus user id dto) db .start (c.calm :: choices) =
      runCall now correlationId (.updateStatus user id dto) db (.statusWrite current) choices := by
  rw [runCall_cons]
  simp only [advance, h, orReject]
  rfl

/-- A payment would pass its checks again. -/
theorem runCall_payment {user : AuthenticatedUser} {orderId : UuidText} {key : Option String}
    {dto : CompletePaymentDto} {k : String} {order : Order}
    (hkey : PaymentsService.checkKey key = .ok k)
    (h : PaymentsService.authorize user (OrdersRepository.findById db orderId) = .ok order)
    (choices : List Choice) :
    runCall now correlationId (.completePayment user orderId key dto) db .start
        (c.calm :: choices) =
      runCall now correlationId (.completePayment user orderId key dto) db
        (.paymentLookup k order) choices := by
  rw [runCall_cons]
  simp only [advance, hkey, h, orReject]
  rfl

/-- A payment would find its key unused again, and take the present rows as its snapshot. -/
theorem runCall_unused {user : AuthenticatedUser} {orderId : UuidText} {key : Option String}
    {dto : CompletePaymentDto} {k : String} {order : Order}
    (hfind : PaymentsRepository.findByIdempotencyKey db k = none) (choices : List Choice) :
    runCall now correlationId (.completePayment user orderId key dto) db (.paymentLookup k order)
        (c.calm :: c.calm :: choices) =
      runCall now correlationId (.completePayment user orderId key dto) db
        (.paymentCommit k db) choices := by
  have hunused : advance db now c.calm correlationId (.completePayment user orderId key dto)
      (.paymentLookup k order) = some (db, .paymentBegin k) := by
    simp only [advance, hfind]
    rfl
  have hbegun : advance db now c.calm correlationId (.completePayment user orderId key dto)
      (.paymentBegin k) = some (db, .paymentCommit k db) := rfl
  rw [runCall_cons hunused, runCall_cons hbegun]

end Run

/-- The checks on the order pass again. -/
theorem authorize_of_payable {db : Db} (hk : db.Keys) {user : AuthenticatedUser}
    {orderId : UuidText} (h : Payable db user orderId) :
    ∃ o, Table.find Order.id orderId.value db.orders = some o ∧
      PaymentsService.authorize user (OrdersRepository.findById db orderId) = .ok o := by
  obtain ⟨o, ho, hid, hown⟩ := h
  have hfind : Table.find Order.id orderId.value db.orders = some o :=
    (Table.find_eq_some_iff hk.orders).mpr ⟨ho, hid⟩
  refine ⟨o, hfind, ?_⟩
  simp only [OrdersRepository.findById, hfind, PaymentsService.authorize]
  rw [if_neg]
  rintro ⟨hrole, hne⟩
  exact hne (hown hrole)

/-- A status change passes its checks on the row that it has read. -/
theorem updateStatus_of_ok {db : Db} {user : AuthenticatedUser} {id : UuidText}
    {dto : UpdateOrderStatusDto} {current : Order}
    (hfind : OrdersRepository.findById db id = some current)
    (ht : dto.status ∈ transitions current.status)
    (hown : user.role = .user → current.userId = user.id ∧ dto.status = .cancelled) :
    OrdersService.updateStatus user dto (OrdersRepository.findById db id) = .ok current := by
  rw [hfind]
  simp only [OrdersService.updateStatus]
  rw [if_neg, if_neg (not_not.mpr ht)]
  rintro ⟨hrole, hne⟩
  rcases hne with hne | hne
  · exact hne (hown hrole).1
  · exact hne (hown hrole).2

/-- **A payment that commits on its snapshot would commit on the present rows**, and write the
same. -/
theorem advance_paid {w : World} (hw : system.Reachable w) {i : ℕ} {c : Choice}
    {user : AuthenticatedUser} {orderId : UuidText} {key : Option String}
    {dto : CompletePaymentDto} {correlationId : Option String} {k : String} {snapshot db' : Db}
    {p : Payment}
    (hcall : w.calls i =
      some ⟨.completePayment user orderId key dto, correlationId, .paymentCommit k snapshot⟩)
    (h : Commits (PaymentsRepository.complete snapshot
      (paymentInput user orderId k dto correlationId) c.fresh w.clock) w.db p db') :
    advance w.db w.clock c correlationId (.completePayment user orderId key dto)
        (.paymentCommit k snapshot) =
      advance w.db w.clock c correlationId (.completePayment user orderId key dto)
        (.paymentCommit k w.db) := by
  have hk := keys_of_reachable hw
  have hfresh := freshOrders_of_reachable hw
  obtain ⟨-, -, hkeys, hsnapshot⟩ := ok_of_reachable hw i _ hcall
  obtain ⟨order, horder, hid, -, -, -, -, -, hrow, -⟩ := PaymentsRepository.complete_commits h
  obtain ⟨current, hcurrent, hev⟩ := hsnapshot.orders order horder
  have hpending : order.status = .pending → current = order := fun hpending => by
    obtain ⟨row, hnow, hthen⟩ := hrow hpending
    have hsame := (Table.find_eq_some_iff hkeys.orders).mpr ⟨horder, rfl⟩
    rw [hthen, Option.some.injEq] at hsame
    subst hsame
    exact hk.orders.eq_of_key hcurrent (Table.find_mem hnow).1 hev.fixed.1
  have hstatus : order.status = .pending ↔ current.status = .pending := by
    refine ⟨fun h => hpending h ▸ h, fun h => ?_⟩
    by_contra hne
    exact (hfresh.snapshots i _ _ _ _ _ _ _ hcall order horder).left
      (hfresh.orders current hcurrent) hev hne h
  have hcongr : PaymentsRepository.complete snapshot
      (paymentInput user orderId k dto correlationId) c.fresh w.clock ⟨w.db, c.fuse⟩ =
        PaymentsRepository.complete w.db
          (paymentInput user orderId k dto correlationId) c.fresh w.clock ⟨w.db, c.fuse⟩ :=
    complete_congr hev ((Table.find_eq_some_iff hkeys.orders).mpr ⟨horder, hid⟩)
      ((Table.find_eq_some_iff hk.orders).mpr ⟨hcurrent, hev.fixed.1.trans hid⟩) hpending hstatus
      c.fuse
  simp only [advance, commit, transaction, hcongr]

/-- **The step in which a request is answered could be its whole run**: some choices take it
there from its arrival, on the rows as they are now. -/
theorem block_of_advance {w : World} (hw : system.Reachable w) {i : ℕ} {c : Choice} {call : Call}
    {db' : Db} {pc' : Pc} (hre : rereads w (.advance i c) = true) (hcall : w.calls i = some call)
    (h : advance w.db w.clock c call.correlationId call.request call.pc = some (db', pc'))
    (hpc' : pc'.isReturned = true) :
    ∃ choices, runCall w.clock call.correlationId call.request w.db .start choices =
      some (db', pc') := by
  obtain ⟨r, correlationId, pc⟩ := call
  have hk := keys_of_reachable hw
  have hok := ok_of_reachable hw i _ hcall
  have hadv := advance_cases h
  cases hadv with
  | @created user dto lineItems db' o hc =>
    -- the catalog is what it was
    have hreads : pricesWhatItRead w (.advance i c) = true := (Bool.and_eq_true _ _ ▸ hre).2
    simp only [pricesWhatItRead, hcall, Bool.and_eq_true, decide_eq_true_eq] at hreads
    refine ⟨[c.calm, c.calm, c], ?_⟩
    rw [runCall_creation (distinct_of_reachable hw i _ hcall) (eq_ok_of_toOption hreads.1)
      (eq_ok_of_toOption hreads.2), runCall_singleton h]
  | @updated user id dto current db' o hc =>
    -- the row that is written is the one that was read
    obtain ⟨hid, ht, hown, row, hrow, hev⟩ := hok
    obtain ⟨⟨old, hold, hat⟩, -⟩ := OrdersRepository.updateStatus_commits hc
    have hwrites : writesWhatItRead w (.advance i c) = true := (Bool.and_eq_true _ _ ▸ hre).1
    simp only [writesWhatItRead, hcall, List.all_eq_true] at hwrites
    have hversion := hwrites old hold
    simp only [hat, Bool.not_true, Bool.false_or, decide_eq_true_eq] at hversion
    simp only [OrdersRepository.atVersion, Bool.and_eq_true, decide_eq_true_eq] at hat
    have hsame : row = old :=
      hk.orders.eq_of_key hrow hold (hev.fixed.1.trans (hid.trans hat.1.symm))
    subst hsame
    have hcurrent : row = current := hev.eq_of_version (by omega)
    subst hcurrent
    have hfind : OrdersRepository.findById w.db id = some row :=
      (Table.find_eq_some_iff hk.orders).mpr ⟨hrow, hid⟩
    refine ⟨[c.calm, c], ?_⟩
    rw [runCall_status (updateStatus_of_ok hfind ht hown), runCall_singleton h]
  | @replayed user orderId key dto k order existing p hfind hreplay =>
    obtain ⟨hkey, hpayable⟩ := hok
    obtain ⟨o, -, hauthorize⟩ := authorize_of_payable hk hpayable
    refine ⟨[c.calm, c], ?_⟩
    rw [runCall_payment hkey hauthorize, runCall_singleton]
    exact h
  | @paid user orderId key dto k snapshot db' p hc =>
    obtain ⟨hkey, hpayable, -, hsnapshot⟩ := hok
    obtain ⟨o, -, hauthorize⟩ := authorize_of_payable hk (hpayable.mono hsnapshot)
    obtain ⟨order, -, -, rfl, -, hunused, -⟩ := PaymentsRepository.complete_commits hc
    have hnone : PaymentsRepository.findByIdempotencyKey w.db k = none :=
      Table.find_eq_none_iff.mpr hunused
    refine ⟨[c.calm, c.calm, c.calm, c], ?_⟩
    rw [runCall_payment hkey hauthorize, runCall_unused hnone, runCall_singleton]
    rw [← advance_paid hw hcall hc]
    exact h
  | _ => cases hpc'

/-- **One step is a step of the serial system, or shows nothing.** -/
theorem serial_of_step {w w' : World} {a : Action} (hw : system.Reachable w)
    (hre : rereads w a = true) (h : w.step a = some w') :
    w'.settled = w.settled ∧ shows w a w' = none ∨
      ∃ b, serial.step w.settled b = some w'.settled ∧ shows w a w' = some b.shown := by
  cases a with
  | request i r correlationId =>
    obtain ⟨hnone, rfl⟩ := World.step_request h
    refine .inl ⟨?_, rfl⟩
    have hcalls : (w.accept i r correlationId).settled.calls = w.settled.calls := by
      funext j
      by_cases hj : j = i
      · subst hj
        show ((w.accept j r correlationId).calls j).filter _ = (w.calls j).filter _
        rw [World.accept_calls_self, hnone]
        rfl
      · show ((w.accept i r correlationId).calls j).filter _ = (w.calls j).filter _
        rw [World.accept_calls_of_ne w hj]
    show { w with calls := (w.accept i r correlationId).settled.calls } = w.settled
    rw [hcalls]
    rfl
  | advance i c =>
    obtain ⟨call, db', pc', hcall, hadv, rfl⟩ := World.step_advance h
    have hstep : advance w.db w.clock c call.correlationId call.request call.pc =
        some (db', pc') := by
      simp only [World.step, hcall, Option.map_eq_some_iff] at h
      obtain ⟨⟨db₁, pc₁⟩, hstep, hmove⟩ := h
      rw [hstep]
      have hdb : db₁ = db' := congrArg World.db hmove
      have hpc : (w.move i call db₁ pc₁).calls i = (w.move i call db' pc').calls i :=
        congrArg (fun v => World.calls v i) hmove
      rw [World.move_calls_self, World.move_calls_self, Option.some.injEq, Call.mk.injEq] at hpc
      rw [hdb, hpc.2.2]
    have hpc : call.pc.isReturned = false := by
      have hnot := hadv.not_final
      generalize call.pc = pc at hnot
      cases pc <;> first | rfl | cases hnot
    have hshows : shows w (.advance i c) (w.move i call db' pc') =
        if pc'.isReturned then some (.inl i) else none := by
      simp only [shows, World.move_calls_self, Option.any_some]
    cases hpc' : pc'.isReturned with
    | false =>
      have hdb : db' = w.db := by
        by_contra hne
        obtain ⟨response, rfl⟩ := hadv.returned_of_ne hne
        cases hpc'
      subst hdb
      refine .inl ⟨World.settled_move_of_not hcall hpc hpc', ?_⟩
      rw [hshows, hpc', if_neg Bool.false_ne_true]
    | true =>
      obtain ⟨choices, hrun⟩ := block_of_advance hw hre hcall hstep hpc'
      refine .inr ⟨.request i call.request call.correlationId choices,
        serial_request hcall hpc hpc' hrun, ?_⟩
      rw [hshows, hpc', if_pos rfl]
      rfl
  | poll j b =>
    obtain ⟨p, rows, confirmed, hpoll, rfl⟩ := World.step_poll h
    refine .inr ⟨.other (.poll j b), ?_, rfl⟩
    have hsettled : OutboxPublisherService.step j w.settled.clock w.settled.db.outboxEvents
        (w.settled.pollers j) b = some (p, rows, confirmed) := hpoll
    simp only [serial, Action.ofRequest, system, World.step, hsettled]
    rfl
  | tick ms =>
    cases h
    exact .inr ⟨.other (.tick ms), rfl, rfl⟩
  | setRestaurant r =>
    cases h
    exact .inr ⟨.other (.setRestaurant r), rfl, rfl⟩
  | setMenuItem m =>
    cases h
    exact .inr ⟨.other (.setMenuItem m), rfl, rfl⟩

/-- **The answered requests could have run one after the other.**  In every run whose creations
and status changes write what they would read, the clock, the tables, the pollers and the
answers are at the end as if each answered request had run alone from its arrival to its
answer, at the moment of its answer among the others and among the steps that are not of
requests, and the requests that are not answered had never arrived.  So a request that was
answered before another one arrived has also run before it. -/
theorem serializable {w₀ w : World} {as : List Action} (h0 : w₀.Initial)
    (h : (system.restrict rereads).exec w₀ as = some w) :
    ∃ bs, serial.exec w₀ bs = some w.settled ∧
      bs.map Block.shown = (system.restrict rereads).observe shows w₀ as := by
  have hstep : ∀ v a v', (system.restrict rereads).Reachable v →
      (system.restrict rereads).step v a = some v' →
      v'.settled = v.settled ∧ shows v a v' = none ∨
        ∃ b, serial.step v.settled b = some v'.settled ∧ shows v a v' = some b.shown := by
    intro v a v' hv hstep
    obtain ⟨hre, hplain⟩ := Sys.restrict_step_iff.mp hstep
    exact serial_of_step hv.of_restrict hre hplain
  have htrace := Sys.exec_traced hstep (.init h0) h
  rwa [World.settled_initial h0] at htrace

/-- The order is paid, and paid again under another key by a transaction that has taken its
snapshot before the manager moves the order on. -/
def Action.sampleOverlap : List Action :=
  Action.samplePaid ++
    .request 2 (.samplePayment (Uuid.repeated 3).text "second-payment-key") none ::
      List.replicate 3 (.advance 2 (.sample 6)) ++
    Action.sampleStatus 3 .preparing 1 5 ++ [.advance 2 (.sample 6)]

/-- The status change could have run before the second payment arrived. -/
theorem sample_serializable : ∃ w bs,
    (system.restrict rereads).exec World.sample Action.sampleOverlap = some w ∧
    (w.db.orders.map fun o => (o.status, o.version), w.db.payments.length) =
      ([(.preparing, 3)], 2) ∧
    serial.exec World.sample bs = some w.settled ∧
    (bs.map Block.shown).filterMap Sum.getLeft? = [0, 1, 3, 2] := by
  have hrun : ((system.restrict rereads).exec World.sample Action.sampleOverlap).map
      (fun w => (w.db.orders.map fun o => (o.status, o.version), w.db.payments.length)) =
        some ([(.preparing, 3)], 2) := by decide +kernel
  have hanswers : ((system.restrict rereads).observe shows World.sample
      Action.sampleOverlap).filterMap Sum.getLeft? = [0, 1, 3, 2] := by decide +kernel
  obtain ⟨w, hw, hrows⟩ := Option.map_eq_some_iff.mp hrun
  obtain ⟨bs, hserial, hshown⟩ := serializable World.sample_initial hw
  exact ⟨w, bs, hw, hrows, hserial, hshown ▸ hanswers⟩

end ScaleForge
