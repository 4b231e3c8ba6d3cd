import ScaleForge.OutboxProgress
import ScaleForge.ProcessableEvents

/-!
# From the commit to the effects

An event is written together with its order or payment, and its effects are made by
handlers that may run much later, in other processes.  Nothing of what lies between can
be relied on at a given moment: pollers and workers die with records and deliveries in
their hands, confirms are lost, and messages fail.  But nothing is given up either.  A
row that is published has been sent, and what has been sent is on its way or accounted
for by every consumer that is bound to its key; and a row that is not published will be.

So from every reachable state some steps in which nothing goes wrong settle everything.
Then an event has its effects once at each of its consumers, unless the consumer had
given a copy of it up before.

## Main definitions

* `Poller.begun`, `Poller.confirmed` — the record an instance has begun to publish, and the one
  it is about to mark.
* `World.Covered` — a condition on the records that have been sent, or are being sent.
* `Platform.Sent` — the event is on its way, or accounted for by its consumers.
* `untroubled`, `Platform.Settled` — the steps in which nothing goes wrong, and what they
  lead to.
* `Platform.Publishing` — an instance publishes what is left.
* `Platform.Handled` — the effect of an event is there, exactly once.

## Main results

* `World.Covered.step` — no step publishes what has not been sent.
* `sent_of_published` — **every published row has been sent.**
* `events_delivered` — **every event is handled exactly once, or was given up before.**
-/

namespace ScaleForge

open OutboxPublisherService RabbitConsumersService Table Transition

/-! ### What a poller has begun -/

/-- The record an instance has begun to publish and not dealt with. -/
def Poller.begun : Poller → Option LeasedOutboxEvent
  | .publishing record _ => some record
  | .marking record _ _ => some record
  | _ => none

/-- The record an instance is about to mark published. -/
def Poller.confirmed : Poller → Option LeasedOutboxEvent
  | .marking record _ _ => some record
  | _ => none

theorem Poller.begun_of_confirmed {p : Poller} {record : LeasedOutboxEvent}
    (h : p.confirmed = some record) : p.begun = some record := by
  cases p with
  | marking r rest publishedAt => exact h
  | _ => cases h

/-- What an instance has begun to publish it had begun before, or begins now. -/
theorem begun_of_polls {j now : ℕ} {rows rows' : List OutboxEvent} {p p' : Poller}
    {a : PollAction} {new : Option Uuid} (h : Polls j now rows p a p' rows' new)
    {record : LeasedOutboxEvent} (hbegun : p'.begun = some record) :
    p.begun = some record ∨ p'.sending = some record := by
  have hnext : ∀ rest, (next rest).begun = some record → (next rest).sending = some record := by
    intro rest hrest
    cases rest with
    | nil => cases hrest
    | cons r rest => exact hrest
  cases h with
  | leased skipped => exact Or.inr (hnext _ hbegun)
  | confirmed r rest => exact Or.inl hbegun
  | marked r rest publishedAt thrown => exact Or.inr (hnext _ hbegun)
  | deferred r rest nextAttemptAt lastError => exact Or.inr (hnext _ hbegun)
  | _ => cases hbegun

/-- A published row was published, or the instance marks it. -/
theorem published_of_writes {j now : ℕ} {p : Poller} {rows rows' : List OutboxEvent}
    (h : Writes j now p rows rows') {e : OutboxEvent} (he : e ∈ rows')
    (hpub : e.publishedAt.isSome = true) :
    ∃ e₀ ∈ rows, e.leased = { e₀.leased with attempts := e.attempts } ∧
      (e₀.publishedAt.isSome = true ∨
        ∃ record, p.confirmed = some record ∧ e₀.id = record.id) := by
  cases h with
  | same => exact ⟨e, he, rfl, Or.inl hpub⟩
  | lease skipped =>
    obtain ⟨e₀, he₀, rfl⟩ := mem_update.mp he
    refine ⟨e₀, he₀, by split <;> rfl, Or.inl ?_⟩
    split at hpub
    · exact hpub
    · exact hpub
  | mark record rest publishedAt =>
    obtain ⟨e₀, he₀, rfl⟩ := mem_update.mp he
    refine ⟨e₀, he₀, by split <;> rfl, ?_⟩
    split at hpub
    · next hown =>
      simp only [owned, Bool.and_eq_true, decide_eq_true_eq] at hown
      exact Or.inr ⟨record, rfl, hown.1⟩
    · exact Or.inl hpub
  | defer record rest nextAttemptAt lastError =>
    obtain ⟨e₀, he₀, rfl⟩ := mem_update.mp he
    refine ⟨e₀, he₀, by split <;> rfl, Or.inl ?_⟩
    split at hpub
    · exact hpub
    · exact hpub

/-- A request publishes nothing. -/
theorem Advance.outbox_published {db db' : Db} {now : ℕ} {c : Choice}
    {correlationId : Option String} {r : Request} {pc pc' : Pc}
    (h : Advance db now c correlationId r pc db' pc') {e : OutboxEvent}
    (he : e ∈ db'.outboxEvents) (hpub : e.publishedAt.isSome = true) : e ∈ db.outboxEvents := by
  have hnew : ∀ {id type aggregateType aggregateId payload now},
      e ∈ db.outboxEvents ++ [OutboxEvent.new id type aggregateType aggregateId payload
        correlationId now] → e ∈ db.outboxEvents := by
    intro id type aggregateType aggregateId payload now hmem
    rcases List.mem_append.mp hmem with hold | hnew
    · exact hold
    · rw [List.mem_singleton.mp hnew] at hpub
      cases hpub
  cases h with
  | created h =>
    obtain ⟨-, -, -, -, rfl⟩ := OrdersRepository.createWrite_commits h
    exact hnew he
  | updated h =>
    obtain ⟨-, -, -, -, rfl⟩ := OrdersRepository.updateStatus_commits h
    exact he
  | paid h =>
    obtain ⟨order, -, -, -, -, -, -, -, -, rfl⟩ := PaymentsRepository.complete_commits h
    exact hnew he
  | _ => exact he

/-! ### What has been published -/

/-- The condition holds of the published rows, and of what these instances have begun to
publish. -/
structure World.Covered (w : World) (J : Set ℕ) (P : LeasedOutboxEvent → Prop) : Prop where
  rows : ∀ e ∈ w.db.outboxEvents, e.publishedAt.isSome = true → P e.leased
  begun : ∀ j ∈ J, ∀ record, (w.pollers j).begun = some record → P record

section Covered

variable {w w' : World} {a : Action} {J : Set ℕ} {P Q : LeasedOutboxEvent → Prop}

theorem World.Covered.mono (h : w.Covered J P) (hPQ : ∀ record, P record → Q record) :
    w.Covered J Q where
  rows e he hpub := hPQ _ (h.rows e he hpub)
  begun j hj record hbegun := hPQ _ (h.begun j hj record hbegun)

/-- The row of a record an instance has begun to publish. -/
theorem row_of_begun (hw : system.Reachable w) {j : ℕ} {record : LeasedOutboxEvent}
    (hbegun : (w.pollers j).begun = some record) {e : OutboxEvent}
    (he : e ∈ w.db.outboxEvents) (hid : e.id = record.id) :
    e.leased = { record with attempts := e.attempts } := by
  have hbatch : record ∈ (w.pollers j).batch := by
    cases hp : w.pollers j with
    | publishing r rest =>
      rw [hp] at hbegun
      cases hbegun
      exact List.mem_cons_self
    | marking r rest publishedAt =>
      rw [hp] at hbegun
      cases hbegun
      exact List.mem_cons_self
    | _ =>
      rw [hp] at hbegun
      cases hbegun
  obtain ⟨e₀, he₀, hrecord⟩ := records_of_reachable hw j record hbatch
  have hid₀ : e₀.id = record.id := congrArg LeasedOutboxEvent.id hrecord
  obtain rfl := (keys_of_reachable hw).outboxEvents.eq_of_key he₀ he (hid₀.trans hid.symm)
  exact hrecord

/-- A published row was published, or its record is being marked. -/
theorem published_or_confirmed (hw : system.Reachable w) (hstep : w.step a = some w')
    {e : OutboxEvent} (he : e ∈ w'.db.outboxEvents) (hpub : e.publishedAt.isSome = true) :
    ∃ record, e.leased = { record with attempts := e.attempts } ∧
      ((∃ e₀ ∈ w.db.outboxEvents, e₀.publishedAt.isSome = true ∧ e₀.leased = record) ∨
        ∃ j b, a = .poll j b ∧ (w.pollers j).confirmed = some record) := by
  -- only a marking write publishes
  have hold : e ∈ w.db.outboxEvents → ∃ record, e.leased = { record with attempts := e.attempts } ∧
      ((∃ e₀ ∈ w.db.outboxEvents, e₀.publishedAt.isSome = true ∧ e₀.leased = record) ∨
        ∃ j b, a = .poll j b ∧ (w.pollers j).confirmed = some record) :=
    fun he => ⟨e.leased, rfl, Or.inl ⟨e, he, hpub, rfl⟩⟩
  cases a with
  | poll j b =>
    obtain ⟨p, rows, new, hpoll, rfl⟩ := World.step_poll hstep
    obtain ⟨e₀, he₀, hsame, hpub₀ | ⟨record, hconfirmed, hid⟩⟩ :=
      published_of_writes (writes_of_step hpoll) he hpub
    · exact ⟨e₀.leased, hsame, Or.inl ⟨e₀, he₀, hpub₀, rfl⟩⟩
    · refine ⟨record, ?_, Or.inr ⟨j, b, rfl, hconfirmed⟩⟩
      rw [hsame, row_of_begun hw (Poller.begun_of_confirmed hconfirmed) he₀ hid]
  | advance i c =>
    obtain ⟨call, db', pc', -, hadv, rfl⟩ := World.step_advance hstep
    exact hold (hadv.outbox_published he hpub)
  | request i r correlationId =>
    obtain ⟨-, rfl⟩ := World.step_request hstep
    exact hold he
  | _ =>
    cases hstep
    exact hold he

/-- **No step publishes what has not been sent.**  Where the condition does not look at the
attempts, and holds of what the step sends, it stays true, as long as only these instances
move. -/
theorem World.Covered.step (h : w.Covered J P) (hw : system.Reachable w)
    (hstep : w.step a = some w') (hJ : ∀ j b, a = .poll j b → j ∈ J)
    (hP : ∀ record n, P record → P { record with attempts := n })
    (hsent : ∀ record ∈ w'.sent a, P record) : w'.Covered J P := by
  refine ⟨fun e he hpub => ?_, fun j hj record hbegun => ?_⟩
  · obtain ⟨record, hsame, ⟨e₀, he₀, hpub₀, rfl⟩ | ⟨i, b, ha, hconfirmed⟩⟩ :=
      published_or_confirmed hw hstep he hpub
    · exact hsame ▸ hP _ _ (h.rows e₀ he₀ hpub₀)
    · exact hsame ▸ hP record _
        (h.begun i (hJ i b ha) record (Poller.begun_of_confirmed hconfirmed))
  · rcases polls_of_step hstep with ⟨i, b, p, rows, new, rfl, hpolls, rfl⟩ | ⟨-, -, hsame⟩
    · by_cases hij : j = i
      · subst hij
        rw [World.polled_pollers_self] at hbegun
        rcases begun_of_polls hpolls hbegun with hold | hnew
        · exact h.begun j hj record hold
        · refine hsent record (Option.mem_toList.mpr ?_)
          rw [World.polled_pollers_self]
          exact hnew
      · rw [World.polled_pollers_of_ne w hij] at hbegun
        exact h.begun j hj record hbegun
    · rw [hsame] at hbegun
      exact h.begun j hj record hbegun

end Covered

/-! ### What has been sent -/

/-- The records are of one event. -/
def SameEvent (r record : LeasedOutboxEvent) : Prop :=
  domainEvent r = domainEvent record ∧ r.type = record.type

theorem SameEvent.refl (record : LeasedOutboxEvent) : SameEvent record record := ⟨rfl, rfl⟩

/-- Every consumer that is bound to the key of the event accounts for a message of it. -/
def ConsumersWorld.Arrived (w : ConsumersWorld) (record : LeasedOutboxEvent) : Prop :=
  ∀ c, c.bound (routingKeyFor record.type) = true →
    ∃ m, m.content = some (domainEvent record) ∧ Accounted w c m

/-- The event of the record is on its way, or has arrived. -/
def Platform.Sent (p : Platform) (record : LeasedOutboxEvent) : Prop :=
  (∃ r ∈ p.inFlight, SameEvent r record) ∨ p.consumers.Arrived record

section Sent

variable {u : UuidSyntax} {p p' : Platform}

theorem ConsumersWorld.Arrived.step {w w' : ConsumersWorld} {a : ConsumersAction}
    {record : LeasedOutboxEvent} (h : w.Arrived record) (hw : (consumersSystem u).Reachable w)
    (hstep : (consumersSystem u).step w a = some w') : w'.Arrived record := by
  intro c hc
  obtain ⟨m, hm, hacc⟩ := h c hc
  exact ⟨m, hm, accounted_step hw hstep hacc⟩

/-- A published event is in the main queue of every consumer bound to its key, and nothing
else changes. -/
theorem step_publication {w w' : ConsumersWorld} {record : LeasedOutboxEvent}
    (h : (consumersSystem u).step w (publication record) = some w') :
    (∀ q m, m ∈ w.shared.broker.queues q → m ∈ w'.shared.broker.queues q) ∧
    ∀ c, c.bound (routingKeyFor record.type) = true →
      ∃ m ∈ w'.shared.broker.queues (.main c), m.content = some (domainEvent record) := by
  have hw' : w' = { w with shared := { w.shared with
      broker := w.shared.broker.enqueue (route .events (routingKeyFor record.type))
        (w.shared.publication (some (domainEvent record)) (routingKeyFor record.type) none)
      published := w.shared.published + 1 } } := (Option.some.inj h).symm
  subst hw'
  refine ⟨fun q m hm => Broker.mem_enqueue_of_mem hm, fun c hc => ?_⟩
  exact ⟨_, Broker.mem_enqueue_iff.mpr (Or.inr ⟨mem_route_events_iff.mpr ⟨c, rfl, hc⟩, rfl⟩), rfl⟩

theorem arrived_of_publication {w w' : ConsumersWorld} {record : LeasedOutboxEvent}
    (h : (consumersSystem u).step w (publication record) = some w') : w'.Arrived record := by
  intro c hc
  obtain ⟨m, hm, hcontent⟩ := (step_publication h).2 c hc
  exact ⟨m, hcontent, Or.inl ⟨.main c, rfl, m, hm, .refl m⟩⟩

theorem ConsumersWorld.Arrived.congr {w : ConsumersWorld} {r record : LeasedOutboxEvent}
    (h : w.Arrived r) (hsame : SameEvent r record) : w.Arrived record := by
  intro c hc
  rw [← hsame.2] at hc
  obtain ⟨m, hm, hacc⟩ := h c hc
  exact ⟨m, hm.trans (congrArg some hsame.1), hacc⟩

/-- **What has been sent stays so.** -/
theorem Platform.Sent.step {a : PlatformAction} {record : LeasedOutboxEvent} (h : p.Sent record)
    (hp : (platform u).Reachable p) (hstep : p.step u a = some p') : p'.Sent record := by
  have hconsumers := consumers_of_reachable hp
  rcases Platform.step_cases hstep with ⟨b, w, -, rfl⟩ | ⟨n, r', c, hr', hc, rfl⟩ |
    ⟨b, c, -, hc, rfl⟩
  · rcases h with ⟨r, hr, hsame⟩ | harrived
    · exact Or.inl ⟨r, List.mem_append_left _ hr, hsame⟩
    · exact Or.inr harrived
  · rcases h with ⟨r, hr, hsame⟩ | harrived
    · by_cases hleft : r ∈ p.inFlight.eraseIdx n
      · exact Or.inl ⟨r, hleft, hsame⟩
      · -- it is the one that arrives
        obtain rfl : r = r' := by
          rw [List.mem_eraseIdx_iff_getElem?] at hleft
          obtain ⟨k, hk⟩ := List.mem_iff_getElem?.mp hr
          by_cases hkn : k = n
          · rw [hkn, hr', Option.some.injEq] at hk
            exact hk.symm
          · exact absurd ⟨k, hkn, hk⟩ hleft
        exact Or.inr ((arrived_of_publication hc).congr hsame)
    · exact Or.inr (harrived.step hconsumers hc)
  · rcases h with hflight | harrived
    · exact Or.inl hflight
    · exact Or.inr (harrived.step hconsumers hc)

theorem covered_of_reachable (hp : (platform u).Reachable p) :
    p.world.Covered Set.univ p.Sent := by
  refine hp.invariant (I := fun p => p.world.Covered Set.univ p.Sent) ?_ ?_
  · rintro p ⟨⟨-, -, -, -, hrows, -, hpollers, -⟩, -, -⟩
    refine ⟨fun e he => ?_, fun j _ record hbegun => ?_⟩
    · rw [hrows] at he
      cases he
    · rw [hpollers j] at hbegun
      cases hbegun
  intro p a p' hp ih hstep
  have hsent : p.world.Covered Set.univ p'.Sent :=
    ih.mono fun record h => h.step hp hstep
  rcases Platform.step_cases hstep with ⟨b, w, hw, rfl⟩ | ⟨n, r', c, hr', hc, rfl⟩ |
    ⟨b, c, -, hc, rfl⟩
  · refine hsent.step (world_of_reachable hp).of_restrict (Sys.restrict_step_iff.mp hw).2
      (fun j _ _ => Set.mem_univ j) (fun _ _ h => h) fun record hrecord => ?_
    exact Or.inl ⟨record, List.mem_append_right _ hrecord, .refl record⟩
  · exact hsent
  · exact hsent

/-- **Every published row has been sent**: its event is on its way, or every consumer bound
to its key accounts for it. -/
theorem sent_of_published (hp : (platform u).Reachable p) {e : OutboxEvent}
    (he : e ∈ p.world.db.outboxEvents) (hpub : e.publishedAt.isSome = true) : p.Sent e.leased :=
  (covered_of_reachable hp).rows e he hpub

end Sent

/-! ### The steps -/

/-- The step of a poller succeeds, and the lease query passes over no row. -/
def PollAction.succeeds : PollAction → Bool
  | .interval => true
  | .lease skipped fault => skipped.isEmpty && decide (fault = .none)
  | .confirm => true
  | .publishFails _ => false
  | .mark fault _ => decide (fault = .none)
  | .defer fault => decide (fault = .none)
  | .crash => false

/-- No request moves, nobody dies, and nothing fails on its own account. -/
def untroubled (p : Platform) : PlatformAction → Bool
  | .request _ _ _ _ => false
  | .api (.tick _) => true
  | .api (.poll _ b) => b.succeeds
  | .api _ => false
  | .arrive _ => true
  | .consume a => steady p.consumers a

/-- The runs in which nothing goes wrong. -/
abbrev untroubledPlatform (u : UuidSyntax) : Sys Platform PlatformAction :=
  (platform u).restrict untroubled

/-- Nothing waits on either side or between them, and nothing is under way. -/
structure Platform.Settled (p : Platform) : Prop where
  outbox : pending p.world.db.outboxEvents = 0
  inFlight : p.inFlight = []
  quiet : p.consumers.Quiet
  drained : p.consumers.Drained

/-- The record is one of a row that was published at first, or its event is on its way now. -/
def Platform.Carries (p q : Platform) (record : LeasedOutboxEvent) : Prop :=
  (∃ e ∈ p.world.db.outboxEvents, e.publishedAt.isSome = true ∧ e.id = record.id) ∨
    ∃ r ∈ q.inFlight, SameEvent r record

/-- One instance publishes: the other side is as it was, and what has been published since, or
has been begun, is on its way. -/
structure Platform.Publishing (u : UuidSyntax) (p : Platform) (j : ℕ) (w : World)
    (q : Platform) : Prop where
  reachable : (platform u).Reachable q
  world : q.world = w
  consumers : q.consumers = p.consumers
  inFlight : p.inFlight ⊆ q.inFlight
  covered : w.Covered {j} (p.Carries q)

/-- The effect of the event is there, exactly once. -/
def Platform.Handled (p : Platform) (c : ConsumerName) (e : OutboxEvent) : Prop :=
  match c with
  | .audit =>
    p.consumers.shared.effects.shared.db.auditLogs.countP (fun a => a.event = some e.id) = 1 ∧
      ∃ a ∈ p.consumers.shared.effects.shared.db.auditLogs, a.Of e
  | .notification =>
    p.consumers.shared.effects.shared.db.notificationDeliveries.countP
        (fun d => d.eventId = e.id) = 1 ∧
      ∃ d ∈ p.consumers.shared.effects.shared.db.notificationDeliveries,
        d.Of p.world.db e ∧ d.id ∈ p.consumers.shared.jobs

section Runs

variable {u : UuidSyntax} {p : Platform}

theorem mem_batchRun {j n : ℕ} {a : Action} (h : a ∈ batchRun j n) :
    ∃ b, a = .poll j b ∧ b.succeeds = true := by
  induction n with
  | zero => cases h
  | succ n ih =>
    rcases List.mem_append.mp h with hfirst | hrest
    · simp only [List.mem_cons, List.not_mem_nil, or_false] at hfirst
      rcases hfirst with rfl | rfl
      · exact ⟨_, rfl, rfl⟩
      · exact ⟨_, rfl, rfl⟩
    · exact ih hrest

theorem mem_rounds {j k n : ℕ} {a : Action} (h : a ∈ rounds j k n) :
    ∃ b, a = .poll j b ∧ b.succeeds = true := by
  induction k generalizing n with
  | zero => cases h
  | succ k ih =>
    rcases List.mem_append.mp h with hfirst | hrest
    · rcases List.mem_cons.mp hfirst with rfl | hfirst
      · exact ⟨_, rfl, rfl⟩
      · rcases List.mem_cons.mp hfirst with rfl | hfirst
        · exact ⟨_, rfl, rfl⟩
        · exact mem_batchRun hfirst
    · exact ih hrest

/-- A step of the pollers or of the clock is one of the two sides. -/
theorem step_api {a : Action} {w : World} (ha : untroubled p (.api a) = true)
    (h : p.world.step a = some w) : (untroubledPlatform u).step p (.api a) =
      some { p with world := w, inFlight := p.inFlight ++ w.sent a } := by
  refine Sys.restrict_step_iff.mpr ⟨ha, Platform.step_api (fun i r correlationId heq => ?_) h⟩
  subst heq
  cases ha

theorem step_consume {a : ConsumersAction} {c : ConsumersWorld}
    (h : (steadySystem u).step p.consumers a = some c) :
    (untroubledPlatform u).step p (.consume a) = some { p with consumers := c } := by
  obtain ⟨ha, hstep⟩ := Sys.restrict_step_iff.mp h
  refine Sys.restrict_step_iff.mpr ⟨ha, Platform.step_consume (fun _ _ _ heq => ?_) hstep⟩
  subst heq
  cases ha

/-- Steady steps of the consumers are steps of the two sides. -/
theorem exec_consume {as : List ConsumersAction} {c : ConsumersWorld}
    (h : (steadySystem u).exec p.consumers as = some c) :
    (untroubledPlatform u).exec p (as.map .consume) = some { p with consumers := c } := by
  have hsim := Sys.exec_sim (T := untroubledPlatform u)
    (R := fun c q => q = { p with consumers := c }) (f := .consume) ?_ rfl h
  · obtain ⟨q, hrun, rfl⟩ := hsim
    exact hrun
  · rintro c a c' q - rfl hstep
    exact ⟨_, step_consume (p := { p with consumers := c }) hstep, rfl⟩

/-- **What is on its way arrives**, in the main queues of all its consumers. -/
theorem exists_arrived (p : Platform) : ∃ c, (untroubledPlatform u).exec p
      (List.replicate p.inFlight.length (.arrive 0)) =
        some { p with consumers := c, inFlight := [] } ∧
    (∀ q m, m ∈ p.consumers.shared.broker.queues q → m ∈ c.shared.broker.queues q) ∧
    ∀ r ∈ p.inFlight, ∀ name, ConsumerName.bound name (routingKeyFor r.type) = true →
      ∃ m ∈ c.shared.broker.queues (.main name), m.content = some (domainEvent r) := by
  obtain ⟨w, c, inFlight⟩ := p
  induction inFlight generalizing c with
  | nil => exact ⟨c, rfl, fun q m hm => hm, fun r hr => by cases hr⟩
  | cons record rest ih =>
    obtain ⟨c₁, hc₁⟩ : ∃ c₁, (consumersSystem u).step c (publication record) = some c₁ :=
      ⟨_, rfl⟩
    obtain ⟨hkept, hnew⟩ := step_publication hc₁
    have hstep : (untroubledPlatform u).step ⟨w, c, record :: rest⟩ (.arrive 0) =
        some ⟨w, c₁, rest⟩ := by
      refine Sys.restrict_step_iff.mpr ⟨rfl, ?_⟩
      simp only [platform, Platform.step, List.getElem?_cons_zero, hc₁, Option.map_some,
        List.eraseIdx_cons_zero]
    obtain ⟨c₂, hrun, hkept', hnew'⟩ := ih c₁
    refine ⟨c₂, ?_, fun q m hm => hkept' q m (hkept q m hm), fun r hr name hname => ?_⟩
    · show (untroubledPlatform u).exec _ (.arrive 0 :: List.replicate rest.length _) = _
      rw [Sys.exec_cons, hstep, Option.bind_some, hrun]
    · rcases List.mem_cons.mp hr with rfl | hr
      · obtain ⟨m, hm, hcontent⟩ := hnew name hname
        exact ⟨m, hkept' _ _ hm, hcontent⟩
      · exact hnew' r hr name hname

/-- A step of the instance, taken on the two sides. -/
theorem publishing_of_step {j : ℕ} {w w' : World} {q : Platform} {a : Action}
    (h : p.Publishing u j w q) (ha : untroubled q (.api a) = true)
    (hpoll : ∀ i b, a = .poll i b → i = j) (hstep : w.step a = some w') :
    ∃ q', (untroubledPlatform u).step q (.api a) = some q' ∧ p.Publishing u j w' q' := by
  obtain ⟨hq, rfl, hconsumers, hflight, hcovered⟩ := h
  have hapi := step_api (u := u) ha hstep
  refine ⟨_, hapi, hq.step (Sys.restrict_step_iff.mp hapi).2, rfl, hconsumers,
    fun r hr => List.mem_append_left _ (hflight hr), ?_⟩
  refine World.Covered.step (hcovered.mono fun record h => ?_)
    (world_of_reachable hq).of_restrict hstep hpoll (fun _ _ h => h) fun record hrecord => ?_
  · exact h.imp_right fun ⟨r, hr, hsame⟩ => ⟨r, List.mem_append_left _ hr, hsame⟩
  · exact .inr ⟨record, List.mem_append_right _ hrecord, .refl record⟩

/-- The rounds of an idle instance, taken on the two sides. -/
theorem exists_publishing (hp : (platform u).Reachable p) {j k n ms : ℕ} {w' : World}
    (hidle : p.world.pollers j = .idle)
    (hrun : system.exec p.world (.tick ms :: rounds j k n) = some w') :
    ∃ as q, (untroubledPlatform u).exec p as = some q ∧ p.Publishing u j w' q := by
  have hstart : p.Publishing u j p.world p := by
    refine ⟨hp, rfl, rfl, List.Subset.refl _, fun e he hpub => .inl ⟨e, he, hpub, rfl⟩, ?_⟩
    rintro i rfl record hbegun
    rw [hidle] at hbegun
    cases hbegun
  have hstep : ∀ w a w' q, a ∈ Action.tick ms :: rounds j k n → p.Publishing u j w q →
      w.step a = some w' → ∃ q', (untroubledPlatform u).step q (.api a) = some q' ∧
        p.Publishing u j w' q' := by
    intro w a w' q ha h hstep
    rcases List.mem_cons.mp ha with rfl | ha
    · exact publishing_of_step h rfl (fun i b hb => (by cases hb)) hstep
    · obtain ⟨b, rfl, hb⟩ := mem_rounds ha
      exact publishing_of_step h hb (fun i b' hb' => (by cases hb'; rfl)) hstep
  obtain ⟨q, hrun', hq⟩ := Sys.exec_sim hstep hstart hrun
  exact ⟨_, q, hrun', hq⟩

theorem published_of_pending {rows : List OutboxEvent} (h : pending rows = 0) {e : OutboxEvent}
    (he : e ∈ rows) : e.publishedAt.isSome = true := by
  have hnot := List.countP_eq_zero.mp h e he
  rw [OutboxEvent.unpublished, Option.isNone_iff_eq_none] at hnot
  exact Option.isSome_iff_ne_none.mpr hnot

/-- **The outbox is published**: what was not published before is on its way then. -/
theorem exists_published (hp : (platform u).Reachable p) :
    ∃ as q ids now, (untroubledPlatform u).exec p as = some q ∧
      q.consumers = p.consumers ∧ p.inFlight ⊆ q.inFlight ∧
      q.world.db = { p.world.db with
        outboxEvents := publishAll now ids p.world.db.outboxEvents } ∧
      pending q.world.db.outboxEvents = 0 ∧
      ∀ e ∈ p.world.db.outboxEvents, e.unpublished = true →
        ∃ r ∈ q.inFlight, SameEvent r e.leased := by
  have hw := (world_of_reachable hp).of_restrict
  obtain ⟨j, hidle⟩ := exists_idle hw
  have hready := ready_of_tick hw (Nat.lt_succ_self 60000) hidle
  obtain ⟨w', ids, hrounds, hpublished, hids⟩ :=
    exists_rounds hready (pending p.world.db.outboxEvents)
  have hrun : system.exec p.world (.tick 60001 :: rounds j (pending p.world.db.outboxEvents)
      (pending p.world.db.outboxEvents)) = some w' := hrounds
  obtain ⟨as, q, hrun', -, rfl, hconsumers, hflight, hcovered⟩ := exists_publishing hp hidle hrun
  have hrows : pending (publishAll (p.world.clock + 60001) ids p.world.db.outboxEvents) +
      ids.length = pending p.world.db.outboxEvents :=
    pending_publishAll hready.keys hids.nodup hids.unpublished
  have hlength : ids.length = min (25 * pending p.world.db.outboxEvents)
      (pending p.world.db.outboxEvents) := hids.length
  have hzero : pending q.world.db.outboxEvents = 0 := by
    rw [hpublished.db]
    show pending (publishAll (p.world.clock + 60001) ids p.world.db.outboxEvents) = 0
    omega
  refine ⟨as, q, ids, _, hrun', hconsumers, hflight, hpublished.db, hzero, ?_⟩
  intro e he hun
  obtain ⟨e', he', hsame⟩ := (evolves_of_exec hw hrun).outboxEvents e he
  rcases hcovered.rows e' he' (published_of_pending hzero he') with
    ⟨e₀, he₀, hpub₀, hid⟩ | ⟨r, hr, hevent⟩
  · -- the row was not published at first
    have hid' : e₀.id = e.id := hid.trans (congrArg LeasedOutboxEvent.id hsame)
    obtain rfl := (keys_of_reachable hw).outboxEvents.eq_of_key he₀ he hid'
    rw [OutboxEvent.unpublished, Option.isNone_iff_eq_none] at hun
    rw [hun] at hpub₀
    cases hpub₀
  · rw [hsame] at hevent
    exact ⟨r, hr, hevent⟩

/-- **Everything that is left is queued**: the outbox is published and has arrived, and what was
unpublished, on its way or waiting for a consumer waits for it now. -/
theorem exists_queued (hp : (platform u).Reachable p) :
    ∃ as q ids now, (untroubledPlatform u).exec p as = some q ∧ q.inFlight = [] ∧
      q.world.db = { p.world.db with
        outboxEvents := publishAll now ids p.world.db.outboxEvents } ∧
      pending q.world.db.outboxEvents = 0 ∧
      ∀ e ∈ p.world.db.outboxEvents, ∀ c, c.bound (routingKeyFor e.type) = true →
        (e.unpublished = true ∨ (∃ r ∈ p.inFlight, r.id = e.id) ∨
          ∃ m, (m ∈ p.consumers.shared.broker.queues (.main c) ∨
            m ∈ p.consumers.shared.broker.queues (.retry c)) ∧
            m.content = some (domainEvent e.leased)) →
        ∃ m, (m ∈ q.consumers.shared.broker.queues (.main c) ∨
          m ∈ q.consumers.shared.broker.queues (.retry c)) ∧
          m.content = some (domainEvent e.leased) := by
  have hw := (world_of_reachable hp).of_restrict
  obtain ⟨as, q, ids, now, hfirst, hconsumers, hflight, hdb, hzero, hnew⟩ := exists_published hp
  obtain ⟨c₁, hsecond, hkept, harrived⟩ := exists_arrived (u := u) q
  refine ⟨_, { q with consumers := c₁, inFlight := [] }, ids, now,
    (by rw [Sys.exec_append, hfirst, Option.bind_some, hsecond]), rfl, hdb, hzero, ?_⟩
  intro e he c hc h
  have hsent : ∀ r ∈ q.inFlight, SameEvent r e.leased → ∃ m,
      (m ∈ c₁.shared.broker.queues (.main c) ∨ m ∈ c₁.shared.broker.queues (.retry c)) ∧
      m.content = some (domainEvent e.leased) := by
    intro r hr hsame
    obtain ⟨m, hmem, hm⟩ := harrived r hr c (by rw [hsame.2]; exact hc)
    exact ⟨m, .inl hmem, hm.trans (congrArg some hsame.1)⟩
  rcases h with hun | ⟨r, hr, hid⟩ | ⟨m, hmem, hm⟩
  · obtain ⟨r, hr, hsame⟩ := hnew e he hun
    exact hsent r hr hsame
  · obtain ⟨e₀, he₀, hrecord⟩ := (sourced_of_reachable hp).inFlight r hr
    have hid₀ : e₀.id = r.id := congrArg LeasedOutboxEvent.id hrecord
    obtain rfl := (keys_of_reachable hw).outboxEvents.eq_of_key he₀ he (hid₀.trans hid)
    refine hsent r (hflight hr) ?_
    rw [hrecord]
    exact .refl _
  · rw [← hconsumers] at hmem
    exact ⟨m, hmem.imp (hkept _ m) (hkept _ m), hm⟩

/-- **The consumers drain on the two sides.** -/
theorem exists_settled (hp : (platform u).Reachable p)
    (houtbox : pending p.world.db.outboxEvents = 0) (hflight : p.inFlight = []) :
    ∃ as p', (untroubledPlatform u).exec p as = some p' ∧ p'.Settled ∧ p'.world = p.world ∧
      ∀ c m, m ∈ p.consumers.shared.broker.queues (.main c) ∨
          m ∈ p.consumers.shared.broker.queues (.retry c) →
        Processable u c m → HandledBy u p'.consumers c m := by
  obtain ⟨as, c, hrun, hquiet, hdrained, hhandled⟩ :=
    exists_drained_run (consumers_of_reachable hp)
  exact ⟨_, { p with consumers := c }, exec_consume hrun, ⟨houtbox, hflight, hquiet, hdrained⟩, rfl,
    hhandled⟩

end Runs

/-! ### The effects -/

section Effects

variable {u : UuidSyntax} (hu : u.ReadsRendered) {p : Platform} (hp : (platform u).Reachable p)
include hu hp

/-- **An effect that is there is there once**, and it is of the row of its event. -/
theorem handled_of_effected {e : OutboxEvent} (he : e ∈ p.world.db.outboxEvents)
    {c : ConsumerName} (hbound : c.bound (routingKeyFor e.type) = true) {m : Message}
    (hm : m.content = some (domainEvent e.leased)) (h : Effected u p.consumers.shared c m) :
    p.Handled c e := by
  have hk := (keys_of_reachable (world_of_reachable hp).of_restrict).outboxEvents
  have honce := once_of_reachable (effects_reachable (consumers_of_reachable hp))
  obtain ⟨event, hevent, h⟩ := h
  obtain rfl : event = domainEvent e.leased := Option.some.inj (hevent.symm.trans hm)
  have hparse : ∀ id, u.ofJson ((domainEvent e.leased).get "id") = some id → id = e.id := by
    intro id hid
    rw [domainEvent_id] at hid
    exact Option.some.inj (hid.symm.trans (hu e.id))
  cases c with
  | audit =>
    obtain ⟨id, hid, hmarker, a, ha, haevent⟩ := h
    obtain rfl := hparse id hid
    obtain ⟨e', he', hof⟩ := audit_of_reachable hu hp ha haevent
    have hsame : e'.id = e.id := Option.some.inj (hof.event.symm.trans haevent)
    obtain rfl := hk.eq_of_key he' he hsame
    exact ⟨(honce.audits _).trans (List.count_eq_one_of_mem honce.markers hmarker), a, ha, hof⟩
  | notification =>
    have htype : isOrderCreated (domainEvent e.leased) = true := by
      cases htype : e.type with
      | orderCreated =>
        have hname : e.leased.type = .orderCreated := htype
        simp [isOrderCreated, Json.string?, hname, EventType.name]
      | paymentCompleted =>
        rw [htype] at hbound
        exact absurd hbound (by decide)
    obtain ⟨id, d, hid, hmarker, hd, hdevent, hjob⟩ := h htype
    obtain rfl := hparse id hid
    obtain ⟨e', he', hof⟩ := delivery_of_reachable hu hp hd
    obtain rfl := hk.eq_of_key he' he (hof.eventId.symm.trans hdevent)
    exact ⟨(honce.deliveries _).trans (List.count_eq_one_of_mem honce.markers hmarker),
      d, hd, hof, hjob⟩

omit hu hp in
/-- What has been handled does not depend on when the row was published. -/
theorem Platform.Handled.of_publish {c : ConsumerName} {e : OutboxEvent} {now : ℕ}
    (h : p.Handled c (publish now e)) : p.Handled c e := by
  cases c with
  | audit =>
    obtain ⟨hcount, a, ha, hof⟩ := h
    exact ⟨hcount, a, ha, hof.event, hof.action, hof.aggregateType, hof.aggregateId,
      hof.correlationId, hof.metadata⟩
  | notification =>
    obtain ⟨hcount, d, hd, hof, hjob⟩ := h
    exact ⟨hcount, d, hd, ⟨hof.eventId, hof.type, hof.payload, hof.owner⟩, hjob⟩

omit hu hp in
/-- A row some of whose fellows have been published is there still. -/
theorem exists_mem_publishAll {rows : List OutboxEvent} {e : OutboxEvent} (he : e ∈ rows)
    (now : ℕ) (ids : List Uuid) : ∃ e' ∈ publishAll now ids rows, e' = e ∨ e' = publish now e := by
  refine ⟨_, mem_update.mpr ⟨e, he, rfl⟩, ?_⟩
  split
  · exact .inr rfl
  · exact .inl rfl

section Row

variable {e e' : OutboxEvent} {now : ℕ} (he' : e' ∈ p.world.db.outboxEvents)
  (hrow : e' = e ∨ e' = publish now e) {c : ConsumerName}
  (hc : c.bound (routingKeyFor e.type) = true)
include he' hrow hc

/-- A message that has been handled was one of its row, whenever it has been published. -/
theorem handled_of_handledBy {m : Message} (hm : m.content = some (domainEvent e.leased))
    (h : HandledBy u p.consumers c m) : p.Handled c e := by
  obtain ⟨i, m', hcopy, -, heffect⟩ := h
  have hm' : m'.content = some (domainEvent e.leased) := hcopy.2.trans hm
  rcases hrow with rfl | rfl
  · exact handled_of_effected hu hp he' hc hm' heffect
  · exact (handled_of_effected hu hp he' hc hm' heffect).of_publish

/-- **Where everything is settled, a consumer has handled an event or given it up.** -/
theorem handled_of_settled (hsettled : p.Settled) : p.Handled c e ∨
    ∃ m ∈ p.consumers.shared.broker.queues (.dead c), m.content = some (domainEvent e.leased) := by
  have hsame : e'.leased = e.leased := by rcases hrow with rfl | rfl <;> rfl
  have htype : e'.type = e.type := congrArg LeasedOutboxEvent.type hsame
  -- it has been published, so it has been sent
  rcases sent_of_published hp he' (published_of_pending hsettled.outbox he') with ⟨r, hr, -⟩ | hall
  · rw [hsettled.inFlight] at hr
    cases hr
  · obtain ⟨m, hm, hacc⟩ := hall c ((congrArg (c.bound <| routingKeyFor ·) htype).trans hc)
    rw [hsame] at hm
    rcases handled_or_dead (consumers_of_reachable hp) hsettled.quiet hsettled.drained hacc with
      hdone | ⟨m', hm', hcopy⟩
    · exact .inl (handled_of_handledBy hu hp he' hrow hc hm hdone)
    · exact .inr ⟨m', hm', hcopy.2.trans hm⟩

end Row

/-- **Every event is delivered.**  From every reachable state of the two sides, whatever
pollers, workers and handlers have left behind, some steps in which nothing goes wrong lead
to a state where nothing waits and nothing is under way, and in which no row has changed
but those that have been published.  Then every consumer has handled every event of its
keys exactly once, unless it had given a copy of it up; and it has handled those whose rows
were unpublished, which were on their way, or which waited for it in a queue. -/
theorem events_delivered : ∃ as p' ids now, (untroubledPlatform u).exec p as = some p' ∧
    p'.Settled ∧
    p'.world.db = { p.world.db with
      outboxEvents := publishAll now ids p.world.db.outboxEvents } ∧
    (∀ e ∈ p.world.db.outboxEvents, ∀ c, c.bound (routingKeyFor e.type) = true →
      p'.Handled c e ∨ ∃ m ∈ p'.consumers.shared.broker.queues (.dead c),
        m.content = some (domainEvent e.leased)) ∧
    ∀ e ∈ p.world.db.outboxEvents, ∀ c, c.bound (routingKeyFor e.type) = true →
      (e.unpublished = true ∨ (∃ r ∈ p.inFlight, r.id = e.id) ∨
        ∃ m, (m ∈ p.consumers.shared.broker.queues (.main c) ∨
          m ∈ p.consumers.shared.broker.queues (.retry c)) ∧
          m.content = some (domainEvent e.leased)) → p'.Handled c e := by
  -- the outbox is published and arrives, and the consumers drain
  obtain ⟨as, q, ids, now, hfirst, hflight, hdb, hzero, hqueued⟩ := exists_queued hp
  have hq := hp.exec (Sys.exec_of_restrict hfirst)
  obtain ⟨bs, p', hsecond, hsettled, hworld, hhandled⟩ := exists_settled hq hzero hflight
  have hp' := hq.exec (Sys.exec_of_restrict hsecond)
  have hrows : ∀ e ∈ p.world.db.outboxEvents, ∃ e' ∈ q.world.db.outboxEvents,
      e' = e ∨ e' = publish now e := by
    intro e he
    rw [hdb]
    exact exists_mem_publishAll he now ids
  refine ⟨as ++ bs, p', ids, now, ?_, hsettled, hworld ▸ hdb, fun e he c hc => ?_,
    fun e he c hc h => ?_⟩
  · rw [Sys.exec_append, hfirst, Option.bind_some, hsecond]
  · obtain ⟨e', he', hrow⟩ := hrows e he
    exact handled_of_settled hu hp' (hworld ▸ he') hrow hc hsettled
  · -- a message of it waits for the consumer, which can process it
    obtain ⟨m, hmem, hm⟩ := hqueued e he c hc h
    obtain ⟨e', he', hrow⟩ := hrows e he
    have hsame : e'.leased = e.leased := by rcases hrow with rfl | rfl <;> rfl
    have hprocessable : Processable u c m :=
      processable_of_fits hu (fits_of_reachable hq he') (by rw [hm, hsame]) c
    exact handled_of_handledBy hu hp' (hworld ▸ he') hrow hc hm (hhandled c m hmem hprocessable)

end Effects

/-- An order has been placed, and nothing else has happened. -/
theorem sample_events_delivered : ∃ p, (platform .spellings).exec Platform.sample
      (.request 0 .sampleOrder none (Uuid.repeated 9) ::
        List.replicate 3 (.api (.advance 0 (.sample 3)))) = some p ∧
    pending p.world.db.outboxEvents = 1 ∧
    ∃ as p', (untroubledPlatform .spellings).exec p as = some p' ∧ p'.Settled ∧
      ∀ e ∈ p.world.db.outboxEvents, e.unpublished = true →
        ∀ c, c.bound (routingKeyFor e.type) = true → p'.Handled c e := by
  have hrun : ((platform .spellings).exec Platform.sample
      (.request 0 .sampleOrder none (Uuid.repeated 9) ::
        List.replicate 3 (.api (.advance 0 (.sample 3))))).map
      (fun p => pending p.world.db.outboxEvents) = some 1 := by
    decide +kernel
  obtain ⟨p, hp, hpending⟩ := Option.map_eq_some_iff.mp hrun
  obtain ⟨as, p', ids, now, hsettle, hsettled, -, -, hall⟩ :=
    events_delivered UuidSyntax.spellings_readsRendered (Platform.sample_reachable.exec hp)
  exact ⟨p, hp, hpending, as, p', hsettle, hsettled,
    fun e he hun c hc => hall e he c hc (Or.inl hun)⟩

end ScaleForge
