import ScaleForge.Deployment

/-!
# Published means delivered

A row is marked published by its poller, which has waited for its call of `publish`, which has
waited for the confirm of its message, which the broker gives when the message is in its queues;
and it is in all of them, because nothing is sent before everything is declared.  A queue loses
nothing.  So once a row says that it is published, every consumer that is bound to its key has
handled the event or still has it.

Processes die between any two of these steps, connections close, confirms come late, and a
record is sent again by another instance; none of this breaks the chain, since every link of it
is only ever added.

## Main definitions

* `Deployment.Delivered` — the links of the chain.

## Main results

* `confirmed_of_step` — a poller marks a record after the end of its publish alone.
* `delivered_of_deployed` — the links hold in every reachable state.
* `published_accounted` — **a row that is published has reached all its consumers.**
-/

namespace ScaleForge

open OutboxPublisherService RabbitConsumersService Transition

/-- What a poller marks it has marked, or its publish ends in this step. -/
theorem confirmed_of_step {w w' : World} {a : Action} (h : w.step a = some w') {j : ℕ}
    {record : LeasedOutboxEvent} (hconfirmed : (w'.pollers j).confirmed = some record) :
    (w.pollers j).confirmed = some record ∨
      a = .poll j .confirm ∧ (w.pollers j).sending = some record := by
  have hnext : ∀ rest, (next rest).confirmed ≠ some record := by
    intro rest hrest
    cases rest <;> cases hrest
  rcases polls_of_step h with ⟨i, b, p, rows, new, rfl, hpolls, rfl⟩ | ⟨-, -, hsame⟩
  · by_cases hij : j = i
    · subst hij
      rw [World.polled_pollers_self] at hconfirmed
      generalize w.pollers j = q at hpolls
      cases hpolls with
      | confirmed r rest => exact .inr ⟨rfl, hconfirmed⟩
      | leased skipped => exact absurd hconfirmed (hnext _)
      | marked r rest publishedAt thrown => exact absurd hconfirmed (hnext _)
      | deferred r rest nextAttemptAt lastError => exact absurd hconfirmed (hnext _)
      | _ => cases hconfirmed
    · rw [World.polled_pollers_of_ne w hij] at hconfirmed
      exact .inl hconfirmed
  · rw [hsame] at hconfirmed
    exact .inl hconfirmed

/-- What the broker has put into its queues, what a poller is about to mark, and what is marked:
all of it has arrived. -/
structure Deployment.Delivered (d : Deployment) : Prop where
  routed : ∀ j, ∀ m ∈ (d.publishers j).shared.sent, m.routed.isSome = true →
    d.consumers.Arrived m.record
  confirmed : ∀ j record, (d.world.pollers j).confirmed = some record →
    d.consumers.Arrived record
  published : ∀ e ∈ d.world.db.outboxEvents, e.publishedAt.isSome = true →
    d.consumers.Arrived e.leased

section Delivered

variable {u : UuidSyntax} {d d' : Deployment}

/-- A step of the requests and pollers; a publish that ends has been put into its queues. -/
theorem Deployment.Delivered.moved (h : d.Delivered) (hworld : system.Reachable d.world)
    {a : Action} {w : World} (hw : d.world.step a = some w)
    (hconfirm : ∀ j record, a = .poll j .confirm → (d.world.pollers j).sending = some record →
      d.consumers.Arrived record) : { d with world := w }.Delivered where
  routed := h.routed
  confirmed j record hrecord := by
    rcases confirmed_of_step hw hrecord with hold | ⟨ha, hsending⟩
    · exact h.confirmed j record hold
    · exact hconfirm j record ha hsending
  published e he hpub := by
    obtain ⟨record, hsame, ⟨e₀, he₀, hpub₀, rfl⟩ | ⟨j, b, -, hrecord⟩⟩ :=
      published_or_confirmed hworld hw he hpub
    · exact hsame ▸ h.published e₀ he₀ hpub₀
    · exact hsame ▸ h.confirmed j record hrecord

/-- A step of one publisher in which nothing is put into queues. -/
theorem Deployment.Delivered.put (h : d.Delivered) {j : ℕ} {a : PublisherAction}
    {s : PublisherWorld} (hs : RabbitPublisherService.system.step (d.publishers j) a = some s)
    (ha : ∀ n, a ≠ .environment (.route n)) : (d.put j s).Delivered where
  routed := by
    refine Deployment.forall_put (P := fun _ s => ∀ m ∈ s.shared.sent, m.routed.isSome = true →
      d.consumers.Arrived m.record) h.routed fun m hm hrouted => ?_
    obtain ⟨n, hn⟩ := List.mem_iff_getElem?.mp hm
    rcases RabbitPublisherService.sent_of_step hs hn with ⟨m₀, hm₀, hrecord, hsame | hroute⟩ |
      ⟨-, hnone, -⟩
    · rw [hrecord]
      exact h.routed j m₀ (List.mem_of_getElem? hm₀) (hsame ▸ hrouted)
    · exact absurd hroute (ha n)
    · rw [hnone] at hrouted
      cases hrouted
  confirmed := h.confirmed
  published := h.published

/-- **The end of a publish**: its message is in the queues of all its consumers. -/
theorem Deployment.Delivered.answered (h : d.Delivered) (hparts : d.Consistent u) {j : ℕ}
    {r : RabbitPublisherService.Request} {record : LeasedOutboxEvent}
    (hsending : (d.world.pollers j).sending = some record)
    (hcall : (d.publishers j).calls (d.awaited j) = some ⟨r, .resolved⟩) :
    d.consumers.Arrived record := by
  -- the call is one of the record
  obtain ⟨pc, hpc⟩ := hparts.awaited j record hsending
  rw [hcall, Option.some.injEq, Calls.Call.mk.injEq] at hpc
  obtain ⟨rfl, -⟩ := hpc
  have hs := hparts.publishers j
  obtain ⟨own, m, hm, rfl, hconfirmed⟩ := RabbitPublisherService.knows_of_reachable hs hcall
  have hmem := List.mem_of_getElem? hm
  exact h.routed j m hmem
    ((RabbitPublisherService.delivered_of_reachable hs).confirmed m hmem hconfirmed)

/-- **A step keeps every link.** -/
theorem Deploys.delivered (hparts : d.Consistent u) (h : d.Delivered) (hd : Deploys u d d') :
    d'.Delivered := by
  have hworld := hparts.world.of_restrict
  cases hd with
  | requested hw => exact h.moved hworld hw fun _ _ ha => (nomatch ha)
  | moved hw hrequest hsent hconfirm =>
    exact h.moved hworld hw fun j _ ha => absurd ha (hconfirm j)
  | @called j n b record w s hw hconfirm hsending hs =>
    have hput := h.put hs fun n ha => (nomatch ha)
    have hmoved := h.moved hworld hw fun i _ ha => by
      cases ha
      exact absurd rfl hconfirm
    exact ⟨hput.routed, hmoved.confirmed, hmoved.published⟩
  | @answered j r w hw hcall =>
    refine h.moved hworld hw fun i record ha hsending => ?_
    cases ha
    exact h.answered hparts hsending hcall
  | published ha hs =>
    refine h.put hs fun n hn => ?_
    subst hn
    cases ha
  | @routed j n m s c hm hs hc =>
    have hkeep : ∀ {record : LeasedOutboxEvent}, d.consumers.Arrived record → c.Arrived record :=
      fun harrived => harrived.step hparts.consumers hc
    refine ⟨Deployment.forall_put (P := fun _ s => ∀ m ∈ s.shared.sent, m.routed.isSome = true →
        c.Arrived m.record) (fun i m hm hrouted => hkeep (h.routed i m hm hrouted))
        fun m' hm' hrouted => ?_,
      fun i record hrecord => hkeep (h.confirmed i record hrecord),
      fun e he hpub => hkeep (h.published e he hpub)⟩
    obtain ⟨l, hl⟩ := List.mem_iff_getElem?.mp hm'
    rcases RabbitPublisherService.sent_of_step hs hl with ⟨m₀, hm₀, hrecord, hsame | hroute⟩ |
      ⟨-, hnone, -⟩
    · rw [hrecord]
      exact hkeep (h.routed j m₀ (List.mem_of_getElem? hm₀) (hsame ▸ hrouted))
    · -- the message that is put into its queues now
      cases hroute
      rw [hm, Option.some.injEq] at hm₀
      rw [hrecord, ← hm₀]
      exact arrived_of_publication hc
    · rw [hnone] at hrouted
      cases hrouted
  | consumed ha hc =>
    exact ⟨fun j m hm hrouted => (h.routed j m hm hrouted).step hparts.consumers hc,
      fun j record hrecord => (h.confirmed j record hrecord).step hparts.consumers hc,
      fun e he hpub => (h.published e he hpub).step hparts.consumers hc⟩

/-- **Every link holds in every reachable state.** -/
theorem delivered_of_deployed (hd : (deployment u).Reachable d) : d.Delivered := by
  refine hd.invariant (I := Deployment.Delivered) ?_ fun d a d' hd h hstep =>
    (deploys_of_step hstep).delivered (consistent_of_deployed hd) h
  rintro d ⟨⟨-, -, -, -, hrows, -, hpollers, -⟩, -, hpublishers⟩
  refine ⟨fun j m hm => ?_, fun j record hrecord => ?_, fun e he => ?_⟩
  · obtain ⟨⟨⟨-, -, -, -, -, hsent⟩, -⟩, -⟩ := hpublishers j
    rw [hsent] at hm
    cases hm
  · rw [hpollers j] at hrecord
    cases hrecord
  · rw [hrows] at he
    cases he

/-- Where a message is that a consumer accounts for. -/
theorem place_of_accounted {w : ConsumersWorld} (hw : (consumersSystem u).Reachable w)
    {c : ConsumerName} {m : Message} (h : Accounted w c m) :
    HandledBy u w c m ∨ ∃ m', m'.CopyOf m ∧ (m' ∈ w.shared.broker.queues (.main c) ∨
      (∃ tag, w.shared.broker.Unacked tag (.main c) m') ∨
      m' ∈ w.shared.broker.queues (.retry c) ∨ m' ∈ w.shared.broker.queues (.dead c)) := by
  rcases h with ⟨q, rfl, m', hm', hcopy⟩ | ⟨i, pc, m', hi, hcopy, hholds | rfl⟩
  · refine .inr ⟨m', hcopy, ?_⟩
    cases q with
    | main c => exact .inl hm'
    | retry c => exact .inr (.inr (.inl hm'))
    | dead c => exact .inr (.inr (.inr hm'))
  · obtain ⟨tag, hopen⟩ := ConsumePc.opened_of_holds hholds
    exact .inr ⟨m', hcopy, .inr (.inl ⟨tag, unacked_of_opened hw hi hopen⟩)⟩
  · exact .inl (handledBy_of_done hw hcopy hi)

/-- **A row that is published has reached all its consumers.**  In every reachable state of the
deployment, however processes have died, connections closed and publishes failed before: if a row
of the outbox is marked published, every consumer bound to its key has handled its event, with
the effects in place, or has a copy of it in its main queue, in an unacknowledged delivery, in
its retry queue or among its dead letters. -/
theorem published_accounted (hd : (deployment u).Reachable d) {e : OutboxEvent}
    (he : e ∈ d.world.db.outboxEvents) (hpub : e.publishedAt.isSome = true) {c : ConsumerName}
    (hc : c.bound (routingKeyFor e.type) = true) :
    ∃ m, m.content = some (domainEvent e.leased) ∧
      ((∃ i, d.consumers.calls i = some ⟨c, .done m .handled⟩ ∧
          Effected u d.consumers.shared c m) ∨
        m ∈ d.consumers.shared.broker.queues (.main c) ∨
        (∃ tag, d.consumers.shared.broker.Unacked tag (.main c) m) ∨
        m ∈ d.consumers.shared.broker.queues (.retry c) ∨
        m ∈ d.consumers.shared.broker.queues (.dead c)) := by
  obtain ⟨m, hm, hacc⟩ := (delivered_of_deployed hd).published e he hpub c hc
  rcases place_of_accounted (consistent_of_deployed hd).consumers hacc with
    ⟨i, m', hcopy, hdone, heffected⟩ | ⟨m', hcopy, hplace⟩
  · exact ⟨m', hcopy.2.trans hm, .inl ⟨i, hdone, heffected⟩⟩
  · exact ⟨m', hcopy.2.trans hm, .inr hplace⟩

/-- The row of the order is published, and its event waits for the notifications. -/
theorem sample_published_accounted : ∃ d,
    (deployment .spellings).exec Deployment.sample orderPublished = some d ∧
    ∃ e ∈ d.world.db.outboxEvents, e.publishedAt.isSome = true ∧
      ∃ m, m.content = some (domainEvent e.leased) ∧
        ((∃ i, d.consumers.calls i = some ⟨.notification, .done m .handled⟩ ∧
            Effected .spellings d.consumers.shared .notification m) ∨
          m ∈ d.consumers.shared.broker.queues (.main .notification) ∨
          (∃ tag, d.consumers.shared.broker.Unacked tag (.main .notification) m) ∨
          m ∈ d.consumers.shared.broker.queues (.retry .notification) ∨
          m ∈ d.consumers.shared.broker.queues (.dead .notification)) := by
  have hrun : ((deployment .spellings).exec Deployment.sample orderPublished).map (fun d =>
      d.world.db.outboxEvents.map fun e => (e.publishedAt.isSome, routingKeyFor e.type)) =
        some [(true, "order.created")] := by decide +kernel
  obtain ⟨d, hd, hrows⟩ := Option.map_eq_some_iff.mp hrun
  obtain ⟨e, he, hpub⟩ := List.mem_map.mp (hrows ▸ List.mem_singleton_self (true, "order.created"))
  rw [Prod.mk.injEq] at hpub
  obtain ⟨hpub, hkey⟩ := hpub
  exact ⟨d, hd, e, he, hpub,
    published_accounted (Deployment.sample_reachable.exec hd) he hpub (hkey ▸ by decide)⟩

end Delivered

end ScaleForge
