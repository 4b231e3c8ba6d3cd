import ScaleForge.Completeness

/-!
# Idempotent payments

`PaymentsService.complete` looks its key up and inserts later, so first
attempts, replays and the same key sent for two orders all race.  The unique
index on the key decides: one call commits, and everything calls with that key
ever change is what that commit changes.  A call answers with a payment only if
the row is committed under its key for its order.

Not every retry is answered, though.  A call whose lookup ran before the winner
committed is past the only place that answers with the existing row, and ends
with the unique-constraint error; and the lookup compares the stored order id,
in lower case, with the spelling the client sent.

## Main definitions

* `caused` — what the calls carrying a key change along a run, measured by an
  effect such as `newPayments` or `confirmations`.
* `LooksUpAfter` — the lookup of a call runs with the payment committed.
* `RetriesAnswered` — every retry of a kind is answered with the payment.

## Main results

* `payment_idempotent` — one payment, one event, one audit row and one
  confirmation per key, one row for all answers, and nothing from rejected
  calls.
* `retry_answered_iff` — which retries are answered with the payment.
* `retry_rejected` — a sequential retry in upper case and an overlapping retry
  that are not.
-/

namespace ScaleForge

open Transaction Table

/-! ### Calls and the key they carry -/

/-- The `Idempotency-Key` header of a request. -/
def Request.idempotencyKey : Request → Option String
  | .completePayment _ _ key _ => key
  | _ => none

/-- The action is a step of a call that carries the key. -/
def World.carries (w : World) (k : String) : Action → Bool
  | .advance i _ => (w.calls i).any fun call => call.request.idempotencyKey = some k
  | _ => false

/-- What the calls carrying `k` change along a run, added up step by step. -/
def caused (k : String) (effect : Db → Db → ℕ) : World → List Action → ℕ
  | _, [] => 0
  | w, a :: as =>
    match w.step a with
    | none => 0
    | some w' => (if w.carries k a then effect w.db w'.db else 0) + caused k effect w' as

/-- The payments a step inserts. -/
def newPayments (db db' : Db) : ℕ := db'.payments.length - db.payments.length

/-- The `PaymentCompleted` events a step inserts. -/
def newPaymentEvents (db db' : Db) : ℕ :=
  (eventsOf .paymentCompleted db'.outboxEvents).length -
    (eventsOf .paymentCompleted db.outboxEvents).length

/-- The `PAYMENT_COMPLETED` audit rows a step inserts. -/
def newPaymentAudits (db db' : Db) : ℕ :=
  (auditsOf "PAYMENT_COMPLETED" db'.auditLogs).length -
    (auditsOf "PAYMENT_COMPLETED" db.auditLogs).length

/-- The pending orders a step moves to confirmed, one version up. -/
def confirmations (db db' : Db) : ℕ :=
  db.orders.countP fun o => o.status = .pending && db'.orders.any fun o' =>
    o'.id = o.id && o'.status = .confirmed && o'.version = o.version + 1

/-- The payments under a key. -/
def Db.paidWith (db : Db) (k : String) : ℕ :=
  db.payments.countP fun p => p.idempotencyKey = k

/-! ### The commit of a payment -/

/-- A step that keeps the orders confirms none. -/
theorem confirmations_self {db : Db} (hk : db.Keys) : confirmations db db = 0 := by
  unfold confirmations
  rw [List.countP_eq_zero]
  intro o ho h
  simp only [Bool.and_eq_true, decide_eq_true_eq, List.any_eq_true] at h
  obtain ⟨hpending, o', ho', ⟨hid, hconfirmed⟩, -⟩ := h
  rw [hk.orders.eq_of_key ho' ho hid, hpending] at hconfirmed
  cases hconfirmed

/-- A payment confirms at most the order it pays. -/
theorem confirmations_paidOrders {db : Db} (hk : db.Keys) (order : Order) {db' : Db}
    (hdb' : db'.orders = PaymentsRepository.paidOrders order db.orders) :
    confirmations db db' ≤ 1 := by
  refine hk.orders.countP_le_one (k := order.id) ?_
  intro o ho h
  simp only [Bool.and_eq_true, decide_eq_true_eq, List.any_eq_true] at h
  obtain ⟨hpending, o', ho', ⟨hid, hconfirmed⟩, -⟩ := h
  by_contra hne
  -- an order that is not the paid one is what it was
  have hsame : o' = o := by
    rw [hdb'] at ho'
    unfold PaymentsRepository.paidOrders at ho'
    split at ho'
    · rw [hk.orders.eq_of_mem_update ho ho' hid fun _ => rfl, if_neg]
      simpa using hne
    · exact hk.orders.eq_of_key ho' ho hid
  rw [hsame, hpending] at hconfirmed
  cases hconfirmed

/-- The effects of a step that commits no payment vanish, and the effects of one
that does are at most one each. -/
structure OnePayment (effect : Db → Db → ℕ) : Prop where
  none : ∀ {db : Db}, db.Keys → effect db db = 0
  one : ∀ {snapshot db db' : Db} {input : PaymentsRepository.Input} {fresh : FreshIds} {now : ℕ}
    {p : Payment}, db.Keys →
    Commits (PaymentsRepository.complete snapshot input fresh now) db p db' → effect db db' ≤ 1

theorem onePayment_newPayments : OnePayment newPayments where
  none _ := Nat.sub_self _
  one _ h := by
    obtain ⟨order, -, -, -, -, -, -, -, -, rfl⟩ := PaymentsRepository.complete_commits h
    simp [newPayments]

theorem onePayment_newPaymentEvents : OnePayment newPaymentEvents where
  none _ := Nat.sub_self _
  one _ h := by
    obtain ⟨order, -, -, -, -, -, -, -, -, rfl⟩ := PaymentsRepository.complete_commits h
    simp [newPaymentEvents, eventsOf, PaymentsRepository.completedEvent, OutboxEvent.new]

theorem onePayment_newPaymentAudits : OnePayment newPaymentAudits where
  none _ := Nat.sub_self _
  one _ h := by
    obtain ⟨order, -, -, -, -, -, -, -, -, rfl⟩ := PaymentsRepository.complete_commits h
    simp [newPaymentAudits, auditsOf, PaymentsRepository.completedAudit]

theorem onePayment_confirmations : OnePayment confirmations where
  none hk := confirmations_self hk
  one hk h := by
    obtain ⟨order, -, -, -, -, -, -, -, -, rfl⟩ := PaymentsRepository.complete_commits h
    exact confirmations_paidOrders hk order rfl

/-- The commit of a payment adds one under its key. -/
theorem paidWith_of_complete {snapshot db db' : Db} {input : PaymentsRepository.Input}
    {fresh : FreshIds} {now : ℕ} {p : Payment}
    (h : Commits (PaymentsRepository.complete snapshot input fresh now) db p db') :
    db'.paidWith input.idempotencyKey = db.paidWith input.idempotencyKey + 1 := by
  obtain ⟨order, -, -, rfl, -, -, -, -, -, rfl⟩ := PaymentsRepository.complete_commits h
  simp only [Db.paidWith, List.countP_append]
  rw [List.countP_cons_of_pos (by exact decide_eq_true rfl), List.countP_nil]

/-- A key that passes the check is the header itself. -/
theorem checkKey_eq_ok {key : Option String} {k : String}
    (h : PaymentsService.checkKey key = .ok k) : key = some k := by
  unfold PaymentsService.checkKey at h
  split at h
  · cases h
  · split at h
    · cases h
    · cases h
      rfl

/-- **A step of a call carrying `k` changes no more than it adds payments under
`k`.** -/
theorem caused_step {w w' : World} {a : Action} (hw : system.Reachable w)
    (h : w.step a = some w') {k : String} (hk : w.carries k a = true) {effect : Db → Db → ℕ}
    (heffect : OnePayment effect) :
    w.db.paidWith k + effect w.db w'.db ≤ w'.db.paidWith k := by
  have hkeys := keys_of_reachable hw
  cases a with
  | advance i c =>
    obtain ⟨⟨request, correlationId, pc⟩, db', pc', hcall, hadv, rfl⟩ := World.step_advance h
    have hok := ok_of_reachable hw i _ hcall
    simp only [World.carries, hcall, Option.any_some, decide_eq_true_eq] at hk
    have hsame : w.db.paidWith k + effect w.db w.db ≤ w.db.paidWith k := by
      rw [heffect.none hkeys, Nat.add_zero]
    cases hadv with
    | created => cases hk
    | updated => cases hk
    | paid hc =>
      have hone := heffect.one hkeys hc
      -- the key of the commit is the key the call carries
      simp only [Request.idempotencyKey] at hk
      obtain rfl := Option.some.inj (hk.symm.trans (checkKey_eq_ok hok.1))
      exact (Nat.add_le_add_left hone _).trans (paidWith_of_complete hc).ge
    | _ => exact hsame
  | _ => cases hk

/-- **Whatever calls carrying `k` change along a run** is bounded by the
payments under `k` at its end. -/
theorem caused_le {effect : Db → Db → ℕ} (heffect : OnePayment effect) (k : String)
    {w w' : World} {as : List Action} (hw : system.Reachable w)
    (h : system.exec w as = some w') :
    w.db.paidWith k + caused k effect w as ≤ w'.db.paidWith k := by
  induction as generalizing w with
  | nil =>
    rw [Transition.Sys.exec_nil, Option.some.injEq] at h
    subst h
    exact Nat.le_refl _
  | cons a as ih =>
    rw [Transition.Sys.exec_cons, Option.bind_eq_some_iff] at h
    obtain ⟨v, hstep, hrest⟩ := h
    have hstep' : w.step a = some v := hstep
    have hlater := ih (hw.step hstep) hrest
    simp only [caused, hstep']
    split
    · next hc =>
      have hfirst := caused_step hw hstep' hc heffect
      omega
    · -- somebody else's step, which removes no payment
      have hmono : w.db.paidWith k ≤ v.db.paidWith k :=
        (change_of_step hstep').evolves.payments.sublist.countP_le
      omega

theorem paidWith_le_one {w : World} (hw : system.Reachable w) (k : String) :
    w.db.paidWith k ≤ 1 :=
  (keys_of_reachable hw).idempotencyKeys.countP_le_one (k := k)
    fun _ _ hp => of_decide_eq_true hp

/-- Along every run from an initial state, calls carrying `k` change at most
one. -/
theorem caused_le_one {effect : Db → Db → ℕ} (heffect : OnePayment effect) (k : String)
    {w w' : World} {as : List Action} (hw : system.Reachable w)
    (h : system.exec w as = some w') : caused k effect w as ≤ 1 := by
  have hle := caused_le heffect k hw h
  have hone := paidWith_le_one (hw.exec h) k
  omega

/-- A call with a key that has returned has returned the row under its key,
which is for the order it asked for. -/
theorem returned_payment {w : World} (hw : system.Reachable w) {i : ℕ} {user : AuthenticatedUser}
    {orderId : UuidText} {k : String} {dto : CompletePaymentDto} {correlationId : Option String}
    {response : Response}
    (hcall : w.calls i =
      some ⟨.completePayment user orderId (some k) dto, correlationId, .returned response⟩) :
    ∃ p ∈ w.db.payments, response = .payment p ∧ p.idempotencyKey = k ∧
      p.orderId = orderId.value := by
  have hok := ok_of_reachable hw i _ hcall
  cases response with
  | order o => exact hok.elim
  | payment p =>
    obtain ⟨hkey, hmem, horder⟩ := hok
    exact ⟨p, hmem, rfl, (Option.some.inj (checkKey_eq_ok hkey)).symm, horder⟩

/-- **Payment idempotency of state.**  Along every run, for every key: the calls
carrying it cause at most one payment, one event, one audit row and one
confirmation; those of them that return all return the one row under the key,
whose order is the one they asked for; and those that are rejected change
nothing. -/
theorem payment_idempotent {w₀ w : World} {as : List Action} (h0 : w₀.Initial)
    (h : system.exec w₀ as = some w) (k : String) :
    (caused k newPayments w₀ as ≤ 1 ∧ caused k newPaymentEvents w₀ as ≤ 1 ∧
      caused k newPaymentAudits w₀ as ≤ 1 ∧ caused k confirmations w₀ as ≤ 1) ∧
    (∀ i user orderId dto correlationId response, w.calls i =
        some ⟨.completePayment user orderId (some k) dto, correlationId, .returned response⟩ →
      ∃ p ∈ w.db.payments, response = .payment p ∧ p.idempotencyKey = k ∧
        p.orderId = orderId.value ∧ ∀ q ∈ w.db.payments, q.idempotencyKey = k → q = p) ∧
    ∀ i user orderId dto correlationId e, w.calls i =
        some ⟨.completePayment user orderId (some k) dto, correlationId, .rejected e⟩ →
      ∀ c v v', system.Takes w₀ as v (.advance i c) v' → v'.db = v.db := by
  have hw₀ : system.Reachable w₀ := .init h0
  have hw := hw₀.exec h
  refine ⟨⟨caused_le_one onePayment_newPayments k hw₀ h,
    caused_le_one onePayment_newPaymentEvents k hw₀ h,
    caused_le_one onePayment_newPaymentAudits k hw₀ h,
    caused_le_one onePayment_confirmations k hw₀ h⟩, ?_, ?_⟩
  · intro i user orderId dto correlationId response hcall
    obtain ⟨p, hmem, hresponse, hkey, horder⟩ := returned_payment hw hcall
    exact ⟨p, hmem, hresponse, hkey, horder, fun q hq hqk =>
      (keys_of_reachable hw).idempotencyKeys.eq_of_key hq hmem (hqk.trans hkey.symm)⟩
  · intro i user orderId dto correlationId e hcall c v v' htakes
    obtain ⟨bs, cs, -, hcs⟩ := htakes.split
    exact unchanged_of_rejected (htakes.reachable hw₀) htakes.step (hcs w h) hcall rfl

/-- The order of the sample runs of this module, whose id has letters. -/
def sampleOrderActions : List Action :=
  .request 0 .sampleOrder none :: List.replicate 3 (.advance 0 (.sample 10))

/-- The key of the sample runs. -/
def sampleKey : String := "sample-payment-0001"

/-- The answer of a call: the payment, or `none` in its place when it was
rejected. -/
def World.answer (w : World) (i : ℕ) : Option (Option Payment) :=
  (w.calls i).bind fun call =>
    match call.pc with
    | .returned (.payment p) => some (some p)
    | .rejected _ => some none
    | _ => none

/-- The payment a sample call records when it draws its identifiers from `n`. -/
def samplePaid (n : ℕ) : Payment :=
  ⟨Uuid.repeated n, Uuid.repeated 10, sampleKey, ⟨2500⟩, "EUR", .completed, none, 0⟩

/-- The customer's call `1` is about to commit its payment. -/
def paying : List Action :=
  sampleOrderActions ++ (Action.samplePayment 1 (Uuid.repeated 10).text sampleKey 4).take 4

/-- It commits and, once that is done, call `2` comes with the same key. -/
def paidTwice : List Action :=
  paying ++ .advance 1 (.sample 4) ::
    (Action.samplePayment 2 (Uuid.repeated 10).text sampleKey 5).take 3

/-- The second call is answered with the first payment, and the two change one
of each between them. -/
theorem sample_payment_replayed : ∃ w, system.exec World.sample paidTwice = some w ∧
    w.answer 1 = some (some (samplePaid 4)) ∧ w.answer 2 = some (some (samplePaid 4)) ∧
    caused sampleKey newPayments World.sample paidTwice ≤ 1 ∧
    caused sampleKey confirmations World.sample paidTwice ≤ 1 := by
  have hrun : (system.exec World.sample paidTwice).map (fun w => (w.answer 1, w.answer 2)) =
      some (some (some (samplePaid 4)), some (some (samplePaid 4))) := by decide +kernel
  obtain ⟨w, hw, hanswers⟩ := Option.map_eq_some_iff.mp hrun
  rw [Prod.mk.injEq] at hanswers
  obtain ⟨⟨hpayments, -, -, hconfirmations⟩, -, -⟩ :=
    payment_idempotent World.sample_initial hw sampleKey
  exact ⟨w, hw, hanswers.1, hanswers.2, hpayments, hconfirmations⟩

/-! ### Retries -/

/-- The lookup of call `i` runs, somewhere in the run `as` from `w₀`, while the
payment `p` is committed. -/
def LooksUpAfter (w₀ : World) (as : List Action) (i : ℕ) (p : Payment) : Prop :=
  ∃ v c v' call order, system.Takes w₀ as v (.advance i c) v' ∧ v.calls i = some call ∧
    call.pc = .paymentLookup p.idempotencyKey order ∧ p ∈ v.db.payments

/-- The lookup of a call that finds its payment, spelled as stored, answers with
it. -/
theorem answer_of_lookup {w w' : World} {i : ℕ} {c : Choice} (hw : system.Reachable w)
    (h : w.step (.advance i c) = some w') (hfuse : c.fuse = none) {user : AuthenticatedUser}
    {orderId : UuidText} {key : Option String} {dto : CompletePaymentDto}
    {correlationId : Option String} {p : Payment} {order : Order}
    (hcall : w.calls i = some ⟨.completePayment user orderId key dto, correlationId,
      .paymentLookup p.idempotencyKey order⟩)
    (hp : p ∈ w.db.payments) (horder : p.orderId = orderId.value) (hspell : orderId.Canonical) :
    w'.calls i = some ⟨.completePayment user orderId key dto, correlationId,
      .returned (.payment p)⟩ := by
  have hfind : PaymentsRepository.findByIdempotencyKey w.db p.idempotencyKey = some p :=
    (find_eq_some_iff (keys_of_reachable hw).idempotencyKeys).mpr ⟨hp, rfl⟩
  have hreplay : PaymentsService.replay orderId p = .ok p :=
    replay_eq_ok.mpr ⟨rfl, by rw [horder]; exact hspell⟩
  simp only [World.step, hcall, advance, hfind, hreplay, orReject, read, hfuse, reduceCtorEq,
    if_false, Option.map_some, Option.some.injEq] at h
  rw [← h, World.move_calls_self]

/-- A call that comes to return a payment finds it committed under its key, or
inserts it. -/
theorem step_returns {w w' : World} {a : Action} {i : ℕ} {call : Call} {p : Payment}
    (h : w.step a = some w') (hcall : w'.calls i = some call)
    (hreturned : call.pc = .returned (.payment p)) (hnew : w.calls i ≠ some call) :
    ∃ c, a = .advance i c ∧ ((∃ order, w.calls i = some { call with
        pc := .paymentLookup p.idempotencyKey order } ∧ p ∈ w.db.payments ∧
        ∀ user orderId key dto, call.request = .completePayment user orderId key dto →
          p.orderId.text = orderId) ∨
      (p ∉ w.db.payments ∧ p ∈ w'.db.payments)) := by
  rcases World.calls_of_step h i with hsame | ⟨r, correlationId, rfl⟩ | ⟨c, rfl⟩
  · exact absurd (hsame.symm.trans hcall) hnew
  · obtain ⟨-, rfl⟩ := World.step_request h
    rw [World.accept_calls_self, Option.some.injEq] at hcall
    rw [← hcall] at hreturned
    cases hreturned
  · refine ⟨c, rfl, ?_⟩
    obtain ⟨⟨request, correlationId, pc⟩, db', pc', hold, hadv, rfl⟩ := World.step_advance h
    rw [World.move_calls_self, Option.some.injEq] at hcall
    subst hcall
    simp only at hreturned
    subst hreturned
    cases hadv with
    | replayed hfind hreplay =>
      obtain ⟨hmem, hkey⟩ := find_mem hfind
      obtain ⟨rfl, htext⟩ := replay_eq_ok.mp hreplay
      refine Or.inl ⟨_, by rw [hold, hkey], hmem, ?_⟩
      intro user orderId key dto hrequest
      cases hrequest
      exact htext
    | paid hc =>
      obtain ⟨order, -, -, -, hid, -, -, -, -, rfl⟩ := PaymentsRepository.complete_commits hc
      exact Or.inr ⟨fun hmem => hid p hmem rfl,
        List.mem_append_right _ (List.mem_singleton.mpr rfl)⟩

/-- A committed payment stays committed. -/
theorem payment_stable (p : Payment) {w w' : World} {a : Action} (hp : p ∈ w.db.payments)
    (h : w.step a = some w') : p ∈ w'.db.payments :=
  (change_of_step h).evolves.payments.subset hp

/-- Once committed, a payment is there at the end of the run. -/
theorem payment_kept {w₀ v v' w : World} {as : List Action} {a : Action} {p : Payment}
    (hw₀ : system.Reachable w₀) (htakes : system.Takes w₀ as v a v')
    (h : system.exec w₀ as = some w) (hp : p ∈ v'.db.payments) : p ∈ w.db.payments := by
  obtain ⟨-, cs, -, hcs⟩ := htakes.split
  exact Transition.Sys.exec_stable (I := fun v => p ∈ v.db.payments)
    (fun _ _ _ _ hp hs => payment_stable p hp hs)
    ((htakes.reachable hw₀).step htakes.step) hp (hcs w h)

section Retry

variable {w₀ w : World} {as : List Action} {i : ℕ} {p : Payment} {user : AuthenticatedUser}
  {orderId : UuidText} {dto : CompletePaymentDto} {correlationId : Option String}

/-- A call that returns a payment another call has committed has looked it up. -/
theorem looksUpAfter_of_returned (h0 : w₀.Initial) (h : system.exec w₀ as = some w) {j : ℕ}
    (hij : i ≠ j) {v v' : World} {c : Choice} (hcommit : system.Takes w₀ as v (.advance j c) v')
    (hnew : p ∉ v.db.payments) (hp : p ∈ v'.db.payments) (horder : p.orderId = orderId.value)
    (hcall : w.calls i = some ⟨.completePayment user orderId (some p.idempotencyKey) dto,
      correlationId, .returned (.payment p)⟩) :
    LooksUpAfter w₀ as i p ∧ orderId.Canonical := by
  -- the step in which the call came to return
  obtain ⟨t, a, t', htakes, hbefore, hafter⟩ := Transition.Sys.exists_takes
    (P := fun v => v.calls i = some ⟨.completePayment user orderId (some p.idempotencyKey)
      dto, correlationId, .returned (.payment p)⟩) h
    (by rw [h0.2.2.2.2.2.1 i]; nofun) hcall
  obtain ⟨c', rfl, ⟨order, hlookup, hmem, hspell⟩ | ⟨hout, hin⟩⟩ :=
    step_returns htakes.step hafter rfl hbefore
  · refine ⟨⟨t, c', t', _, order, htakes, hlookup, rfl, hmem⟩, ?_⟩
    have htext := hspell _ _ _ _ rfl
    rw [UuidText.Canonical, ← horder, htext]
  · -- two calls cannot both have inserted the payment
    obtain ⟨-, haction, -⟩ := Transition.Sys.Takes.unique
      (P := fun v => p ∈ v.db.payments) (fun _ _ _ _ hp hs => payment_stable p hp hs)
      (.init h0) htakes hout hin hcommit hnew hp
    cases haction
    exact absurd rfl hij

/-- A call that looks a payment up, spelled as stored, returns it. -/
theorem returned_of_looksUpAfter (hw₀ : system.Reachable w₀) (h : system.exec w₀ as = some w)
    {pc : Pc} (hcall : w.calls i = some ⟨.completePayment user orderId (some p.idempotencyKey) dto,
      correlationId, pc⟩)
    (horder : p.orderId = orderId.value)
    (hinfra : ∀ c', Action.advance i c' ∈ as → c'.fuse = none)
    (hlooks : LooksUpAfter w₀ as i p) (hspell : orderId.Canonical) :
    pc = .returned (.payment p) := by
  obtain ⟨t, c', t', call, order, htakes, hlookup, hpc, hmem⟩ := hlooks
  obtain ⟨bs, cs, -, hcs⟩ := htakes.split
  have hexec := hcs w h
  have ht := htakes.reachable hw₀
  have hstep : t.step (.advance i c') = some t' := htakes.step
  -- the call has been asked for the same thing all along
  obtain ⟨request, correlationId', pc'⟩ := call
  obtain ⟨pc'', hstable⟩ := Transition.Sys.exec_stable
    (I := fun v => ∃ pc, v.calls i = some ⟨request, correlationId', pc⟩)
    (fun _ _ _ _ hI hs => World.step_request_stable hs hI) (ht.step htakes.step)
    (World.step_request_stable hstep ⟨pc', hlookup⟩) hexec
  rw [hcall, Option.some.injEq, Call.mk.injEq] at hstable
  obtain ⟨rfl, rfl, -⟩ := hstable
  simp only at hpc
  subst hpc
  have hanswer := answer_of_lookup ht htakes.step (hinfra _ htakes.mem) hlookup hmem horder hspell
  have hend := Transition.Sys.exec_stable (I := fun v => v.calls i = some _)
    (fun _ _ _ _ hv hs => World.step_final hs hv rfl) (ht.step htakes.step) hanswer hexec
  rw [hcall, Option.some.injEq, Call.mk.injEq] at hend
  exact hend.2.2

end Retry

/-- **Which retries are answered.**  Let one call of a run commit a payment, and
take any other call with the same key for the same order, in any spelling, that
no infrastructure failure hits.  It returns that payment exactly when its lookup
of the key runs after the commit and it spells the order id in lower case; and
when it ends without, it has been rejected. -/
theorem retry_answered_iff {w₀ w : World} {as : List Action} (h0 : w₀.Initial)
    (h : system.exec w₀ as = some w) {i j : ℕ} (hij : i ≠ j) {v v' : World} {c : Choice}
    {p : Payment} (hcommit : system.Takes w₀ as v (.advance j c) v')
    (hnew : p ∉ v.db.payments) (hp : p ∈ v'.db.payments) {user : AuthenticatedUser}
    {orderId : UuidText} {dto : CompletePaymentDto} {correlationId : Option String} {pc : Pc}
    (hcall : w.calls i = some ⟨.completePayment user orderId (some p.idempotencyKey) dto,
      correlationId, pc⟩)
    (horder : p.orderId = orderId.value)
    (hinfra : ∀ c', Action.advance i c' ∈ as → c'.fuse = none) :
    (pc = .returned (.payment p) ↔ LooksUpAfter w₀ as i p ∧ orderId.Canonical) ∧
      (pc.final = true → ¬(LooksUpAfter w₀ as i p ∧ orderId.Canonical) →
        ∃ e, pc = .rejected e) := by
  have hw₀ : system.Reachable w₀ := .init h0
  have hw := hw₀.exec h
  have hiff : pc = .returned (.payment p) ↔ LooksUpAfter w₀ as i p ∧ orderId.Canonical := by
    refine ⟨?_, fun ⟨hlooks, hspell⟩ => ?_⟩
    · rintro rfl
      exact looksUpAfter_of_returned h0 h hij hcommit hnew hp horder hcall
    · exact returned_of_looksUpAfter hw₀ h hcall horder hinfra hlooks hspell
  refine ⟨hiff, fun hfinal hnot => ?_⟩
  cases pc with
  | returned response =>
    obtain ⟨q, hq, rfl, hkey, -⟩ := returned_payment hw hcall
    -- the only payment it could return is `p`
    have hpw : p ∈ w.db.payments := payment_kept hw₀ hcommit h hp
    rw [(keys_of_reachable hw).idempotencyKeys.eq_of_key hq hpw hkey] at hiff
    exact absurd (hiff.mp rfl) hnot
  | rejected e => exact ⟨e, rfl⟩
  | _ => cases hfinal

/-- No fault hits the action. -/
def Action.unharmed : Action → Bool
  | .advance _ c => c.fuse = none
  | _ => true

/-- In the sample run the condition is met, and the retry is answered. -/
theorem sample_retry_answered : ∃ w pc, system.exec World.sample paidTwice = some w ∧
    w.calls 2 = some ⟨.samplePayment (Uuid.repeated 10).text sampleKey, none, pc⟩ ∧
    LooksUpAfter World.sample paidTwice 2 (samplePaid 4) ∧
    pc = .returned (.payment (samplePaid 4)) := by
  have hend : (system.exec World.sample paidTwice).bind (fun w => w.answer 2) =
      some (some (samplePaid 4)) := by decide +kernel
  obtain ⟨w, hw, hanswer⟩ := Option.bind_eq_some_iff.mp hend
  -- call `1` commits in its last step
  have hbefore : (system.exec World.sample paying).map (fun w => w.db.payments) = some [] := by
    decide
  have hafter : (system.exec World.sample (paying ++ [.advance 1 (.sample 4)])).map
      (fun w => w.db.payments) = some [samplePaid 4] := by decide +kernel
  obtain ⟨v, v', hv, hv', hcommit⟩ := Transition.Sys.takes_of_exec paying
    ((Action.samplePayment 2 (Uuid.repeated 10).text sampleKey 5).take 3) hw
  rw [hv, Option.map_some, Option.some.injEq] at hbefore
  rw [hv', Option.map_some, Option.some.injEq] at hafter
  -- call `2` arrives after it
  obtain ⟨u, u', -, -, hrequest⟩ := Transition.Sys.takes_of_exec
    (paying ++ [.advance 1 (.sample 4)]) (List.replicate 2 (.advance 2 (.sample 5))) hw
  obtain ⟨pc, hcall⟩ := exists_call_of_request World.sample_reachable hw hrequest
  have hpc : pc = .returned (.payment (samplePaid 4)) := by
    simp only [World.answer, hcall, Option.bind_some] at hanswer
    split at hanswer
    · next p _ =>
      simp only [Option.some.injEq] at hanswer
      rw [hanswer]
    · cases hanswer
    · cases hanswer
  have hinfra : paidTwice.all Action.unharmed = true := by decide
  have hnew : samplePaid 4 ∉ v.db.payments := by
    rw [hbefore]
    exact List.not_mem_nil
  have hp : samplePaid 4 ∈ v'.db.payments := by
    rw [hafter]
    exact List.mem_singleton.mpr rfl
  have hij : (2 : ℕ) ≠ 1 := by decide
  obtain ⟨hiff, -⟩ := retry_answered_iff World.sample_initial hw hij hcommit hnew hp hcall
    (by decide) (fun c' hc' => of_decide_eq_true (List.all_eq_true.mp hinfra _ hc'))
  exact ⟨w, pc, hw, hcall, (hiff.mp hpc).1, hpc⟩

/-- Every retry of a kind is answered: when one call of a run commits a payment,
then any other call with its key for its order, by a caller who may pay for it,
that has ended and that no infrastructure failure has hit has returned that
payment.  The kind says how the retry may spell the order id and in which state
it may arrive. -/
def RetriesAnswered (spelling : UuidText → Prop) (arrival : World → Payment → Prop) : Prop :=
  ∀ (w₀ w : World) (as : List Action), w₀.Initial → system.exec w₀ as = some w →
    ∀ (i j : ℕ) (v v' : World) (c : Choice) (p : Payment), i ≠ j →
      system.Takes w₀ as v (.advance j c) v' → p ∉ v.db.payments → p ∈ v'.db.payments →
    ∀ (u u' : World) (user : AuthenticatedUser) (orderId : UuidText) (dto : CompletePaymentDto)
      (correlationId : Option String) (pc : Pc),
      system.Takes w₀ as u (.request i (.completePayment user orderId
        (some p.idempotencyKey) dto) correlationId) u' →
      Payable u.db user orderId → orderId.value = p.orderId → spelling orderId → arrival u p →
      w.calls i = some ⟨.completePayment user orderId (some p.idempotencyKey) dto,
        correlationId, pc⟩ → pc.final = true →
      (∀ c', Action.advance i c' ∈ as → c'.fuse = none) → pc = .returned (.payment p)

/-- A run of the sample that shows a retry rejected: call `1` commits `p` after
`bs`, and call `2` arrives after `bs'`. -/
theorem not_retriesAnswered {spelling : UuidText → Prop} {arrival : World → Payment → Prop}
    (orderId : UuidText) (p : Payment) (ps : List Payment) (bs cs bs' cs' : List Action)
    (c : Choice)
    (hsplit : bs ++ .advance 1 c :: cs =
      bs' ++ .request 2 (.samplePayment orderId p.idempotencyKey) none :: cs')
    (hbefore : (system.exec World.sample bs).map (fun w => w.db.payments) = some [])
    (hafter : (system.exec World.sample (bs ++ [.advance 1 c])).map (fun w => w.db.payments) =
      some [p])
    (harrive : (system.exec World.sample bs').map
        (fun w => (w.db.payments, w.db.orders.map fun o => (o.id, o.userId))) =
      some (ps, [(orderId.value, customer.id)]))
    (hanswer : (system.exec World.sample (bs ++ .advance 1 c :: cs)).bind (fun w => w.answer 2) =
      some none)
    (hinfra : (bs ++ .advance 1 c :: cs).all Action.unharmed = true)
    (horder : orderId.value = p.orderId) (hspelling : spelling orderId)
    (harrival : ∀ u, u.db.payments = ps → arrival u p) : ¬RetriesAnswered spelling arrival := by
  intro hclaim
  obtain ⟨w, hw, hrejected⟩ := Option.bind_eq_some_iff.mp hanswer
  -- the commit of call `1`
  obtain ⟨v, v', hv, hv', hcommit⟩ := Transition.Sys.takes_of_exec bs cs hw
  rw [hv, Option.map_some, Option.some.injEq] at hbefore
  rw [hv', Option.map_some, Option.some.injEq] at hafter
  -- the arrival of call `2`
  have hw' := hw
  rw [hsplit] at hw'
  obtain ⟨u, u', hu, -, hrequest⟩ := Transition.Sys.takes_of_exec bs' cs' hw'
  rw [hu, Option.map_some, Option.some.injEq, Prod.mk.injEq] at harrive
  obtain ⟨o, horders, ho⟩ := List.map_eq_singleton_iff.mp harrive.2
  rw [Prod.mk.injEq] at ho
  have hpayable : Payable u.db customer orderId :=
    ⟨o, by rw [horders]; exact List.mem_singleton.mpr rfl, ho.1, fun _ => ho.2⟩
  -- what call `2` has become at the end
  obtain ⟨pc, hcall⟩ := exists_call_of_request World.sample_reachable hw' hrequest
  simp only [World.answer, hcall, Option.bind_some] at hrejected
  have hfinal : pc.final = true := by
    cases pc with
    | returned => rfl
    | rejected => rfl
    | _ => cases hrejected
  rw [← hsplit] at hrequest
  have hreturned := hclaim World.sample w _ World.sample_initial hw 2 1 v v' c p (by decide)
    hcommit (by rw [hbefore]; exact List.not_mem_nil)
    (by rw [hafter]; exact List.mem_singleton.mpr rfl) u u' customer orderId _ none pc hrequest
    hpayable horder hspelling (harrival u harrive.1) hcall hfinal
    (fun c' hc' => of_decide_eq_true (List.all_eq_true.mp hinfra _ hc'))
  rw [hreturned] at hrejected
  cases hrejected

/-- **Some retries are rejected**: retries that arrive after the commit, when
they spell the order id in upper case, and retries in lower case, when they look
the key up before the commit. -/
theorem retry_rejected : ¬RetriesAnswered (fun _ => True) (fun _ _ => True) ∧
    ¬RetriesAnswered (fun _ => True) (fun u p => p ∈ u.db.payments) ∧
    ¬RetriesAnswered UuidText.Canonical (fun _ _ => True) := by
  -- the customer pays in lower case and, once that is done, retries in upper case
  have hupper : ¬RetriesAnswered (fun _ => True) (fun u p => p ∈ u.db.payments) := by
    refine not_retriesAnswered (.repeated (.upper 0)) (samplePaid 4) [samplePaid 4] paying
      ((Action.samplePayment 2 (.repeated (.upper 0)) sampleKey 5).take 3)
      (paying ++ [.advance 1 (.sample 4)]) (List.replicate 2 (.advance 2 (.sample 5))) (.sample 4)
      rfl (by decide) (by decide) (by decide) (by decide) (by decide) (by decide) trivial ?_
    intro u hu
    rw [hu]
    exact List.mem_singleton.mpr rfl
  -- both calls look the key up before either commits
  have hrace : ¬RetriesAnswered UuidText.Canonical (fun _ _ => True) :=
    not_retriesAnswered (Uuid.repeated 10).text (samplePaid 4) []
      (paying ++ (Action.samplePayment 2 (Uuid.repeated 10).text sampleKey 5).take 4)
      [.advance 2 (.sample 5)] paying
      (List.replicate 3 (.advance 2 (.sample 5)) ++
        [.advance 1 (.sample 4), .advance 2 (.sample 5)])
      (.sample 4) rfl (by decide) (by decide) (by decide) (by decide) (by decide) (by decide)
      (Uuid.canonical_text _) fun _ _ => trivial
  refine ⟨fun hall => hrace ?_, hupper, hrace⟩
  intro w₀ w as h0 hw i j v v' c p hij ht hnew hp u u' user orderId dto cid pc hr hpay ho _ _
  exact hall w₀ w as h0 hw i j v v' c p hij ht hnew hp u u' user orderId dto cid pc hr hpay ho
    trivial trivial

end ScaleForge
