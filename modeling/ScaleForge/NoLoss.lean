import ScaleForge.Consumers
import ScaleForge.EffectivelyOnce

/-!
# No message is lost

A copy of a message leaves the consumer's queues in one of three ways: into the
hands of a call, which holds it until its delivery is closed; by expiring from
the retry queue, to be routed back to the main queue; and never from the
dead-letter queue.  A call gives up what it holds when its effect is committed,
when a replacement has been confirmed, or when the delivery is requeued.  The
replacement is routed to a queue of the same consumer because the bindings of the
retry exchange are those of the event exchange, and every message of the main
queue came under one of them.

## Main definitions

* `Routed` — every message is in a queue that its routing key is bound to.
* `Effected` — the effect of handling a message is there.
* `Accounted` — a copy of the message is in the consumer's queues, held by a
  call, or was handled.

## Main results

* `unacked_of_opened`, `closed_nodup` — deliveries are closed once.
* `all_of_step` — a condition on all messages, kept by a step.
* `accounted_step` — no step loses a message.
* `no_message_lost` — a message in a main queue is there, or handled, ever after.
-/

namespace ScaleForge

open RabbitConsumersService

variable {u : UuidSyntax}

/-! ### Deliveries and tags -/

/-- What a step of a call does to the deliveries: it opens one, leaves them alone,
or closes its own. -/
theorem ConsumeStep.tag_cases {s s' : ConsumersState} {choice : ConsumeChoice}
    {r : ConsumerName} {pc pc' : ConsumePc} (h : ConsumeStep u s choice r pc s' pc') :
    (∃ m, pc.opened = none ∧ pc'.opened = some (s.broker.deliveries.length, m) ∧
      s'.broker.deliveries = s.broker.deliveries ++ [(.main r, m)] ∧
      s'.broker.closed = s.broker.closed) ∨
    (pc'.opened = pc.opened ∧ s'.broker.deliveries = s.broker.deliveries ∧
      s'.broker.closed = s.broker.closed) ∨
    ∃ tag m how, pc.opened = some (tag, m) ∧ pc'.opened = none ∧
      s'.broker.deliveries = s.broker.deliveries ∧
      s'.broker.closed = (tag, how) :: s.broker.closed := by
  cases h with
  | lost hcrash hopen =>
    exact Or.inr (Or.inr ⟨_, _, .lost, hopen, rfl, Broker.requeue_deliveries,
      Broker.requeue_closed⟩)
  | delivered hm => exact Or.inl ⟨_, rfl, rfl, rfl, rfl⟩
  | acked tag m => exact Or.inr (Or.inr ⟨tag, m, .ack, rfl, rfl, rfl, rfl⟩)
  | released tag m => exact Or.inr (Or.inr ⟨tag, m, .ack, rfl, rfl, rfl, rfl⟩)
  | nacked tag m =>
    exact Or.inr (Or.inr ⟨tag, m, .nack, rfl, rfl, Broker.requeue_deliveries,
      Broker.requeue_closed⟩)
  | _ => exact Or.inr (Or.inl ⟨rfl, rfl, rfl⟩)

/-- The surroundings open and close no deliveries. -/
theorem environment_deliveries {s s' : ConsumersState} {e : ConsumersEnvironment}
    (h : consumersEnvironment u s e = some s') :
    s'.broker.deliveries = s.broker.deliveries ∧ s'.broker.closed = s.broker.closed := by
  rcases environment_cases h with ⟨content, key, retryCount, -, rfl⟩ | ⟨c, n, m, -, -, rfl⟩ |
    ⟨a, effects, -, -, rfl⟩
  · exact ⟨rfl, rfl⟩
  · exact ⟨rfl, rfl⟩
  · exact ⟨rfl, rfl⟩

/-- **No two calls have the same open delivery.** -/
theorem tags_exclusive {w : ConsumersWorld} (hw : (consumersSystem u).Reachable w) :
    (∀ i r pc tag, w.calls i = some ⟨r, pc⟩ → (∃ m, pc.opened = some (tag, m)) →
      tag < w.shared.broker.deliveries.length) ∧
    ∀ i j r pc r' pc' tag, w.calls i = some ⟨r, pc⟩ → w.calls j = some ⟨r', pc'⟩ →
      (∃ m, pc.opened = some (tag, m)) → (∃ m, pc'.opened = some (tag, m)) → i = j := by
  refine Calls.exclusive (fun s tag => tag < s.broker.deliveries.length)
    (fun _ pc tag => ∃ m, pc.opened = some (tag, m)) ?_ ?_ ?_ ?_ ?_ hw
  · rintro r tag ⟨m, h⟩
    cases h
  · intro s e s' tag h htag
    rw [(environment_deliveries h).1]
    exact htag
  · rintro s c r pc s' pc' tag h ⟨m, hm⟩ hnot
    rcases (consumeStep_of_machine h).tag_cases with ⟨m', -, hopen, -, -⟩ | ⟨hsame, -, -⟩ |
      ⟨tag', m', how, -, hnone, -, -⟩
    · rw [hopen] at hm
      cases hm
      exact Nat.lt_irrefl _
    · exact absurd ⟨m, hsame ▸ hm⟩ hnot
    · rw [hnone] at hm
      cases hm
  · rintro s c r pc s' pc' tag h ⟨m, hm⟩ hold
    rcases (consumeStep_of_machine h).tag_cases with ⟨m', -, hopen, hdel, -⟩ | ⟨hsame, hdel, -⟩ |
      ⟨tag', m', how, -, hnone, -, -⟩
    · rw [hopen] at hm
      cases hm
      rw [hdel, List.length_append]
      exact Nat.lt_succ_self _
    · rw [hdel]
      exact hold ⟨m, hsame ▸ hm⟩
    · rw [hnone] at hm
      cases hm
  · intro s c r pc s' pc' tag h htag _
    rcases (consumeStep_of_machine h).tag_cases with ⟨m', -, -, hdel, -⟩ | ⟨-, hdel, -⟩ |
      ⟨tag', m', how, -, -, hdel, -⟩
    · rw [hdel, List.length_append]
      exact Nat.lt_add_right 1 htag
    · rw [hdel]
      exact htag
    · rw [hdel]
      exact htag

/-- What a step does to the list of closings: nothing, or it adds an open delivery
of the call that moves. -/
theorem closed_step {w w' : ConsumersWorld} {a : ConsumersAction}
    (h : Calls.step (consumeMachine u) (consumersEnvironment u) w a = some w') :
    w.shared.broker.deliveries <+: w'.shared.broker.deliveries ∧
      (w'.shared.broker.closed = w.shared.broker.closed ∨
        ∃ i r pc pc' tag m how, w.calls i = some ⟨r, pc⟩ ∧ pc.opened = some (tag, m) ∧
          w'.calls i = some ⟨r, pc'⟩ ∧ pc'.opened = none ∧
          w'.shared.broker.closed = (tag, how) :: w.shared.broker.closed) := by
  rcases Calls.step_cases h with ⟨e, d, -, henv, rfl⟩ | ⟨j, r', -, -, rfl⟩ |
    ⟨j, c, r', pc₀, d, pc₁, -, hold, hadv, rfl⟩
  · obtain ⟨hdel, hclosed⟩ := environment_deliveries henv
    exact ⟨by rw [hdel], Or.inl hclosed⟩
  · exact ⟨List.prefix_rfl, Or.inl rfl⟩
  · rcases (consumeStep_of_machine hadv).tag_cases with ⟨m, -, -, hdel, hclosed⟩ |
      ⟨-, hdel, hclosed⟩ | ⟨tag, m, how, hopen, hnone, hdel, hclosed⟩
    · refine ⟨?_, Or.inl hclosed⟩
      rw [Calls.State.move, hdel]
      exact List.prefix_append _ _
    · exact ⟨by rw [Calls.State.move, hdel], Or.inl hclosed⟩
    · exact ⟨by rw [Calls.State.move, hdel], Or.inr ⟨j, r', pc₀, pc₁, tag, m, how, hold, hopen,
        Calls.move_calls_self _ _ _ _ _, hnone, hclosed⟩⟩

/-- Only deliveries are closed. -/
theorem closed_lt {w : ConsumersWorld} (hw : (consumersSystem u).Reachable w) :
    ∀ tag ∈ w.shared.broker.closed.map Prod.fst, tag < w.shared.broker.deliveries.length := by
  refine hw.invariant (I := fun w => ∀ tag ∈ w.shared.broker.closed.map Prod.fst,
    tag < w.shared.broker.deliveries.length) ?_ ?_
  · rintro w ⟨⟨hbroker, -⟩, -⟩ tag htag
    rw [hbroker] at htag
    cases htag
  intro w a w' hw ih hstep tag htag
  obtain ⟨hdel, hclosed | ⟨i, r, pc, pc', tag', m, how, hcall, hopen, -, -, hclosed⟩⟩ :=
    closed_step hstep
  · rw [hclosed] at htag
    exact (ih tag htag).trans_le hdel.length_le
  · rw [hclosed, List.map_cons, List.mem_cons] at htag
    rcases htag with rfl | htag
    · exact ((tags_exclusive hw).1 i r pc _ hcall ⟨m, hopen⟩).trans_le hdel.length_le
    · exact (ih tag htag).trans_le hdel.length_le

/-- **What a call has open, the broker has unacknowledged.** -/
theorem unacked_of_opened {w : ConsumersWorld} (hw : (consumersSystem u).Reachable w) {i : ℕ}
    {r : ConsumerName} {pc : ConsumePc} (hcall : w.calls i = some ⟨r, pc⟩) {tag : ℕ} {m : Message}
    (hopen : pc.opened = some (tag, m)) : w.shared.broker.Unacked tag (.main r) m := by
  refine hw.invariant (I := fun w => ∀ i r pc tag m, w.calls i = some ⟨r, pc⟩ →
    pc.opened = some (tag, m) → w.shared.broker.Unacked tag (.main r) m) ?_ ?_ i r pc tag m
    hcall hopen
  · intro w h0 i r pc tag m hcall
    rw [h0.2 i] at hcall
    cases hcall
  intro w a w' hw ih hstep i r pc tag m hcall hopen
  -- a delivery that was open before the step has not been closed by it
  have hkeep : ∀ pc₀, w.calls i = some ⟨r, pc₀⟩ → pc₀.opened = some (tag, m) →
      w'.shared.broker.Unacked tag (.main r) m := by
    intro pc₀ hold hopen₀
    obtain ⟨hdelivered, hnot⟩ := ih i r pc₀ tag m hold hopen₀
    have hgrown : w'.shared.broker.deliveries[tag]? = some (.main r, m) := by
      obtain ⟨hlt, heq⟩ := List.getElem?_eq_some_iff.mp hdelivered
      rw [List.prefix_iff_getElem?.mp (closed_step hstep).1 tag hlt, heq]
    obtain ⟨-, hclosed | ⟨j, r', pc₁, pc₂, tag', m', how, hj, hopen₁, hj', hnone, hclosed⟩⟩ :=
      closed_step hstep
    · exact ⟨hgrown, by rw [hclosed]; exact hnot⟩
    · refine ⟨hgrown, ?_⟩
      rw [hclosed, List.map_cons, List.mem_cons]
      rintro (htag | hmem)
      · -- then the call that closed it is this one, and has nothing open now
        have hij : i = j :=
          (tags_exclusive hw).2 i j _ _ _ _ tag hold hj ⟨m, hopen₀⟩ ⟨m', htag ▸ hopen₁⟩
        rw [← hij, hcall] at hj'
        cases hj'
        rw [hnone] at hopen
        cases hopen
      · exact hnot hmem
  rcases Calls.calls_of_step hstep hcall with hsame | ⟨-, rfl⟩ | ⟨c, pc₀, -, hold, hadv⟩
  · exact hkeep pc hsame hopen
  · cases hopen
  · rcases (consumeStep_of_machine hadv).tag_cases with ⟨m', -, hnew, hdel, hclosed⟩ |
      ⟨hsame, -, -⟩ | ⟨tag', m', how, -, hnone, -, -⟩
    · -- the new delivery has a tag that nothing closed has
      rw [hnew] at hopen
      cases hopen
      refine ⟨?_, ?_⟩
      · rw [hdel]
        simp
      · rw [hclosed]
        intro hmem
        exact Nat.lt_irrefl _ (closed_lt hw _ hmem)
    · exact hkeep pc₀ hold (hsame ▸ hopen)
    · rw [hnone] at hopen
      cases hopen

/-- **Every delivery is closed at most once.** -/
theorem closed_nodup {w : ConsumersWorld} (hw : (consumersSystem u).Reachable w) :
    (w.shared.broker.closed.map Prod.fst).Nodup := by
  refine hw.invariant (I := fun w => (w.shared.broker.closed.map Prod.fst).Nodup) ?_ ?_
  · rintro w ⟨⟨hbroker, -⟩, -⟩
    rw [hbroker]
    exact List.nodup_nil
  intro w a w' hw ih hstep
  obtain ⟨-, hclosed | ⟨i, r, pc, pc', tag, m, how, hcall, hopen, -, -, hclosed⟩⟩ :=
    closed_step hstep
  · rw [hclosed]
    exact ih
  · rw [hclosed, List.map_cons, List.nodup_cons]
    exact ⟨(unacked_of_opened hw hcall hopen).2, ih⟩

/-! ### Routing keys -/

/-- The routing keys under which a message comes to a queue. -/
def Queue.Accepts : Queue → String → Prop
  | main c, key => c.bound key = true
  | retry c, key => c.bound key = true
  | dead _, _ => True

theorem accepts_of_mem_route {q : Queue} {key : String} (h : q ∈ route .events key) :
    q.Accepts key := by
  obtain ⟨c, rfl, hbound⟩ := mem_route_events_iff.mp h
  exact hbound

theorem accepts_of_mem_replacementQueues {q : Queue} {c : ConsumerName} {m : Message}
    {error : Thrown} (h : q ∈ replacementQueues c m error) :
    q.Accepts (replacement c m error).2.routingKey := by
  unfold replacementQueues replacement at h
  unfold replacement
  split at h
  · next hretry =>
    obtain ⟨c', rfl, hbound⟩ := mem_route_retry_iff.mp h
    rw [if_pos hretry]
    exact hbound
  · rw [mem_route_deadLetter_iff.mp h]
    trivial

/-- **A condition on the messages survives a step if the messages the step makes
meet it**: a new publication, an expired retry, the replacement of a message that
failed. -/
theorem all_of_step {P : Queue → Message → Prop} {w w' : ConsumersWorld} {a : ConsumersAction}
    (h : Calls.step (consumeMachine u) (consumersEnvironment u) w a = some w')
    (hall : w.shared.broker.All P)
    (hpublish : ∀ content key retryCount, a = .environment (.publish content key retryCount) →
      ∀ q ∈ route .events key, P q (w.shared.publication content key retryCount))
    (hexpire : ∀ c m, P (.retry c) m → ∀ q ∈ route .events m.routingKey,
      P q { m with expiration := none })
    (hreplace : ∀ i c r tag m error, a = .advance i c →
      w.calls i = some ⟨r, .failed tag m error⟩ →
        ∀ q ∈ c.stores (replacementQueues r m error), P q (replacement r m error).2) :
    w'.shared.broker.All P := by
  rcases Calls.step_cases h with ⟨e, d, rfl, henv, rfl⟩ | ⟨j, r, -, -, rfl⟩ |
    ⟨j, c, r, pc, d, pc', rfl, hcall, hadv, rfl⟩
  · rcases environment_cases henv with ⟨content, key, retryCount, rfl, rfl⟩ |
      ⟨c, n, m, -, hm, rfl⟩ | ⟨a, effects, -, -, rfl⟩
    · exact hall.enqueue (hpublish content key retryCount rfl)
    · have hold := hall.queues (.retry c) m (List.mem_of_getElem? hm)
      exact (hall.remove _ n).enqueue (hexpire c m hold)
    · exact hall
  · exact hall
  · have hmoved := consumeStep_of_machine hadv
    cases hmoved with
    | lost hcrash hopen => exact hall.requeue _ _
    | delivered hm => exact hall.deliver hm
    | acked tag m => exact hall.close _ _
    | unpublished tag m error hfails hqs =>
      exact hall.enqueue (hqs ▸ hreplace j c r tag m error rfl hcall)
    | published tag m error hfails hqs =>
      exact hall.enqueue (hqs ▸ hreplace j c r tag m error rfl hcall)
    | released tag m => exact hall.close _ _
    | nacked tag m => exact hall.requeue _ _
    | _ => exact hall

/-- Every message came under a key of its queue. -/
abbrev Routed (b : Broker Queue Message) : Prop := b.All fun q m => q.Accepts m.routingKey

/-- **Every message is in a queue that its routing key is bound to.** -/
theorem routed_of_reachable {w : ConsumersWorld} (hw : (consumersSystem u).Reachable w) :
    Routed w.shared.broker := by
  refine hw.invariant (I := fun w => Routed w.shared.broker) ?_ ?_
  · rintro w ⟨⟨hbroker, -⟩, -⟩
    rw [hbroker]
    exact .empty
  · intro w a w' _ h hstep
    refine all_of_step hstep h ?_ ?_ ?_
    · exact fun content key retryCount _ q hq => accepts_of_mem_route hq
    · exact fun c m _ q hq => accepts_of_mem_route hq
    · exact fun i c r tag m error _ _ q hq =>
        accepts_of_mem_replacementQueues (c.stores_subset _ hq)

/-! ### Effects -/

/-- The handlers of a reachable state have come there on their own. -/
theorem effects_reachable {w : ConsumersWorld} (hw : (consumersSystem u).Reachable w) :
    (effectSystem u).Reachable w.shared.effects := by
  refine Calls.shared_invariant (I := fun s => (effectSystem u).Reachable s.effects) ?_ ?_ ?_ hw
  · rintro s ⟨-, -, hinit, -⟩
    exact .init hinit
  · intro s e s' h henv
    rcases environment_cases henv with ⟨content, key, retryCount, -, rfl⟩ | ⟨c, n, m, -, -, rfl⟩ |
      ⟨a, effects, -, hstep, rfl⟩
    · exact h
    · exact h
    · exact h.step hstep
  · intro s c r pc s' pc' h hadv
    have hstep := consumeStep_of_machine hadv
    cases hstep with
    | called tag hcontent hhandle hstart => exact h.step hstart
    | _ => exact h

/-- Effects are only added: rows, jobs, and handler calls with what they were asked
for. -/
structure ConsumersState.Grows (s s' : ConsumersState) : Prop where
  tables : s.effects.shared.db.Extends s'.effects.shared.db
  jobs : s.jobs ⊆ s'.jobs
  calls : ∀ i call, (∃ pc, s.effects.calls i = some ⟨call, pc⟩) →
    ∃ pc, s'.effects.calls i = some ⟨call, pc⟩

theorem ConsumersState.Grows.of_eq {s s' : ConsumersState} (heffects : s'.effects = s.effects)
    (hjobs : s.jobs ⊆ s'.jobs) : s.Grows s' := by
  refine ⟨?_, hjobs, fun i call h => ?_⟩
  · rw [heffects]
    exact .refl _
  · rw [heffects]
    exact h

theorem ConsumersState.Grows.of_step {s s' : ConsumersState} {a : EffectAction}
    (h : (effectSystem u).step s.effects a = some s'.effects) (hjobs : s'.jobs = s.jobs) :
    s.Grows s' := by
  have hstep : Calls.step (effectMachine u) effectEnvironment s.effects a = some s'.effects := h
  exact ⟨extends_of_step hstep, fun _ hid => hjobs ▸ hid,
    fun _ _ hcall => Calls.request_stable hstep hcall⟩

theorem grows_step {w w' : ConsumersWorld} {a : ConsumersAction}
    (h : Calls.step (consumeMachine u) (consumersEnvironment u) w a = some w') :
    w.shared.Grows w'.shared := by
  rcases Calls.shared_of_step h with ⟨e, henv⟩ | hsame | ⟨c, r, pc, pc', hadv⟩
  · rcases environment_cases henv with ⟨content, key, retryCount, -, heq⟩ |
      ⟨c, n, m, -, -, heq⟩ | ⟨a, effects, -, hstep, heq⟩
    · rw [heq]
      exact .of_eq rfl (List.Subset.refl _)
    · rw [heq]
      exact .of_eq rfl (List.Subset.refl _)
    · rw [heq]
      exact .of_step hstep rfl
  · rw [hsame]
    exact .of_eq rfl (List.Subset.refl _)
  · have hstep := consumeStep_of_machine hadv
    generalize w'.shared = s' at hstep
    cases hstep with
    | called tag hcontent hhandle hstart => exact .of_step hstart rfl
    | unqueued tag m id thrown hjobs => exact .of_eq rfl hjobs
    | queued tag m id => exact .of_eq rfl (List.subset_cons_self _ _)
    | _ => exact .of_eq rfl (List.Subset.refl _)

/-- The handler of a message has done its work: it had none, or its result is
backed by the tables and the job is added. -/
def Completed (u : UuidSyntax) (s : ConsumersState) (r : ConsumerName) (m : Message) : Prop :=
  ∃ event, m.content = some event ∧
    (handle r event = none ∨ ∃ call, handle r event = some call ∧
      ((∃ fresh, (EffectResult.audited fresh).Ok u s.effects.shared.db call) ∨
        ∃ id ∈ s.jobs, (EffectResult.delivery (some id)).Ok u s.effects.shared.db call))

theorem Completed.mono {s s' : ConsumersState} (h : s.Grows s') {r : ConsumerName} {m : Message}
    (hdone : Completed u s r m) : Completed u s' r m := by
  obtain ⟨event, hcontent, hnone | ⟨call, hhandle, ⟨fresh, hok⟩ | ⟨id, hid, hok⟩⟩⟩ := hdone
  · exact ⟨event, hcontent, Or.inl hnone⟩
  · exact ⟨event, hcontent, Or.inr ⟨call, hhandle, Or.inl ⟨fresh, hok.mono h.tables⟩⟩⟩
  · exact ⟨event, hcontent, Or.inr ⟨call, hhandle, Or.inr ⟨id, h.jobs hid, hok.mono h.tables⟩⟩⟩

/-- What a call knows about the handler it has started. -/
def ConsumePc.Ok (u : UuidSyntax) (s : ConsumersState) (r : ConsumerName) : ConsumePc → Prop
  | handling _ m i => ∃ event call, m.content = some event ∧ handle r event = some call ∧
      ∃ pc, s.effects.calls i = some ⟨call, pc⟩
  | enqueueing _ m id => ∃ event call, m.content = some event ∧ handle r event = some call ∧
      (EffectResult.delivery (some id)).Ok u s.effects.shared.db call
  | succeeded _ m => Completed u s r m
  | done m .handled => Completed u s r m
  | _ => True

theorem ConsumePc.Ok.mono {s s' : ConsumersState} (h : s.Grows s') {r : ConsumerName}
    {pc : ConsumePc} (hok : pc.Ok u s r) : pc.Ok u s' r := by
  cases pc with
  | handling tag m i =>
    obtain ⟨event, call, hcontent, hhandle, hcall⟩ := hok
    exact ⟨event, call, hcontent, hhandle, h.calls i call hcall⟩
  | enqueueing tag m id =>
    obtain ⟨event, call, hcontent, hhandle, hresult⟩ := hok
    exact ⟨event, call, hcontent, hhandle, hresult.mono h.tables⟩
  | succeeded tag m => exact Completed.mono h hok
  | done m outcome =>
    cases outcome with
    | handled => exact Completed.mono h hok
    | _ => trivial
  | _ => trivial

/-- A handler that returned without a delivery to enqueue was `processEvent`. -/
theorem completed_of_returned {s : ConsumersState} {r : ConsumerName} {m : Message} {event : Json}
    {call : EffectCall} {result : EffectResult} (hcontent : m.content = some event)
    (hhandle : handle r event = some call) (hok : result.Ok u s.effects.shared.db call)
    (hresult : ∀ id, result ≠ .delivery (some id)) : Completed u s r m := by
  cases result with
  | audited fresh => exact ⟨event, hcontent, Or.inr ⟨call, hhandle, Or.inl ⟨fresh, hok⟩⟩⟩
  | delivery id =>
    obtain ⟨-, e, id', -, -, rfl, -⟩ := hok
    exact absurd rfl (hresult id')

/-- **A call that has succeeded has its effects.** -/
theorem consume_ok {w : ConsumersWorld} (hw : (consumersSystem u).Reachable w) {i : ℕ}
    {r : ConsumerName} {pc : ConsumePc} (hcall : w.calls i = some ⟨r, pc⟩) :
    pc.Ok u w.shared r := by
  refine Calls.call_invariant (J := fun s r pc => ConsumePc.Ok u s r pc) ?_ ?_ ?_ hw hcall
  · intro w r _
    trivial
  · intro w c r pc d pc' hw hok hadv
    have hstep := consumeStep_of_machine hadv
    cases hstep with
    | ignored tag hcontent hhandle => exact ⟨_, hcontent, Or.inl hhandle⟩
    | called tag hcontent hhandle hstart =>
      refine ⟨_, _, hcontent, hhandle, ?_⟩
      have hrequest : Calls.step (effectMachine u) effectEnvironment w.shared.effects
          (.request _ _) = some _ := hstart
      rcases Calls.step_cases hrequest with ⟨e, d, ha, -, -⟩ | ⟨j, r', ha, -, rfl⟩ |
        ⟨j, c', r', pc₀, d, pc₁, ha, -, -, -⟩
      · cases ha
      · cases ha
        exact ⟨_, Calls.move_calls_self _ _ _ _ _⟩
      · cases ha
    | returned tag m hcall hresult =>
      obtain ⟨event, call, hcontent, hhandle, pc, hcalls⟩ := hok
      rw [hcalls] at hcall
      cases hcall
      exact completed_of_returned hcontent hhandle
        (result_ok_of_reachable (effects_reachable hw) hcalls) hresult
    | found tag m hcall =>
      obtain ⟨event, call, hcontent, hhandle, pc, hcalls⟩ := hok
      rw [hcalls] at hcall
      cases hcall
      exact ⟨event, _, hcontent, hhandle, result_ok_of_reachable (effects_reachable hw) hcalls⟩
    | queued tag m id =>
      obtain ⟨event, call, hcontent, hhandle, hresult⟩ := hok
      exact ⟨event, hcontent, Or.inr ⟨call, hhandle, Or.inr ⟨id, List.mem_cons_self, hresult⟩⟩⟩
    | acked tag m => exact hok
    | _ => trivial
  · intro w a w' r pc _ hstep hok
    exact hok.mono (grows_step hstep)

/-! ### Accounting for a message -/

/-- The message a call answers for.  A call whose replacement is confirmed has
passed the message on. -/
def ConsumePc.holds : ConsumePc → Option Message
  | delivered _ m | handling _ m _ | enqueueing _ m _ | succeeded _ m | failed _ m _
  | unpublished _ m => some m
  | waiting | replaced _ _ | done _ _ => none

theorem ConsumePc.opened_of_holds {pc : ConsumePc} {m : Message} (h : pc.holds = some m) :
    ∃ tag, pc.opened = some (tag, m) := by
  cases pc <;> cases h <;> exact ⟨_, rfl⟩

/-- The consumer a queue belongs to. -/
def Queue.owner : Queue → ConsumerName
  | main c => c
  | retry c => c
  | dead c => c

/-- A copy of the message is in a queue of the consumer. -/
def Stored (b : Broker Queue Message) (c : ConsumerName) (m : Message) : Prop :=
  ∃ q, q.owner = c ∧ ∃ m' ∈ b.queues q, m'.CopyOf m

/-- A copy of the message is in a queue of the consumer, held by one of its calls,
or handled by one. -/
def Accounted (w : ConsumersWorld) (c : ConsumerName) (m : Message) : Prop :=
  Stored w.shared.broker c m ∨
    ∃ i pc m', w.calls i = some ⟨c, pc⟩ ∧ m'.CopyOf m ∧
      (pc.holds = some m' ∨ pc = .done m' .handled)

theorem Stored.enqueue {b : Broker Queue Message} {c : ConsumerName} {m : Message}
    (h : Stored b c m) (qs : List Queue) (x : Message) : Stored (b.enqueue qs x) c m := by
  obtain ⟨q, hq, m', hm', hcopy⟩ := h
  exact ⟨q, hq, m', Broker.mem_enqueue_of_mem hm', hcopy⟩

theorem stored_enqueue {b : Broker Queue Message} {c : ConsumerName} {m x : Message}
    {qs : List Queue} {q : Queue} (hq : q.owner = c) (hqs : q ∈ qs) (hcopy : x.CopyOf m) :
    Stored (b.enqueue qs x) c m :=
  ⟨q, hq, x, Broker.mem_enqueue_iff.mpr (Or.inr ⟨hqs, rfl⟩), hcopy⟩

theorem Stored.requeue {b : Broker Queue Message} {c : ConsumerName} {m : Message}
    (h : Stored b c m) (tag : ℕ) (how : Closing) : Stored (b.requeue tag how) c m := by
  unfold Broker.requeue
  split
  · exact h
  · exact Stored.enqueue (b := b.close tag how) h _ _

/-- **What the surroundings leave of a stored message**: an expired copy is back in
the main queue. -/
theorem stored_environment {s s' : ConsumersState} {e : ConsumersEnvironment}
    (hrouted : Routed s.broker) (h : consumersEnvironment u s e = some s') {c : ConsumerName}
    {m : Message} (hstored : Stored s.broker c m) : Stored s'.broker c m := by
  rcases environment_cases h with ⟨content, key, retryCount, -, rfl⟩ | ⟨c', n, m₀, -, hm₀, rfl⟩ |
    ⟨a, effects, -, -, rfl⟩
  · exact hstored.enqueue _ _
  · obtain ⟨q, hq, m', hm', hcopy⟩ := hstored
    rcases Broker.mem_or_removed hm' hm₀ with hstays | ⟨rfl, rfl⟩
    · exact ⟨q, hq, m', Broker.mem_enqueue_of_mem hstays, hcopy⟩
    · -- the copy expires, and comes back under a key the consumer is bound to
      have hbound := hrouted.queues _ _ hm'
      have hc : c' = c := hq
      subst hc
      exact stored_enqueue (q := .main c') rfl
        (mem_route_events_iff.mpr ⟨c', rfl, hbound⟩) hcopy
  · exact hstored

/-- **What a step of a call leaves of a stored message**: it is stored, or it is now
in the hands of the call. -/
theorem ConsumeStep.stored {s s' : ConsumersState} {choice : ConsumeChoice}
    {r : ConsumerName} {pc pc' : ConsumePc} (h : ConsumeStep u s choice r pc s' pc')
    {c : ConsumerName} {m : Message}
    (hstored : Stored s.broker c m) :
    Stored s'.broker c m ∨ r = c ∧ ∃ m', pc'.holds = some m' ∧ m'.CopyOf m := by
  cases h with
  | lost hcrash hopen => exact Or.inl (hstored.requeue _ _)
  | delivered hm =>
    obtain ⟨q, hq, m', hm', hcopy⟩ := hstored
    rcases Broker.mem_or_removed hm' hm with hstays | ⟨rfl, rfl⟩
    · exact Or.inl ⟨q, hq, m', hstays, hcopy⟩
    · exact Or.inr ⟨hq, m', rfl, hcopy⟩
  | unpublished tag m error hfails hqs => exact Or.inl (hstored.enqueue _ _)
  | published tag m error => exact Or.inl (hstored.enqueue _ _)
  | nacked tag m => exact Or.inl (hstored.requeue _ _)
  | _ => exact Or.inl hstored

/-- **What a call does with the message it holds**: it keeps it, handles it, or
leaves a copy in a queue of its consumer. -/
theorem ConsumeStep.holds_cases {s s' : ConsumersState} {choice : ConsumeChoice}
    {r : ConsumerName} {pc pc' : ConsumePc} (h : ConsumeStep u s choice r pc s' pc') {m : Message}
    (hholds : pc.holds = some m)
    (hunacked : ∀ tag, pc.opened = some (tag, m) → s.broker.Unacked tag (.main r) m)
    (hbound : r.bound m.routingKey = true) :
    pc'.holds = some m ∨ pc' = .done m .handled ∨ Stored s'.broker r m := by
  -- a requeued delivery is back in the main queue
  have hrequeue : ∀ tag how, pc.opened = some (tag, m) →
      Stored (s.broker.requeue tag how) r m := by
    intro tag how hopen
    rw [Broker.requeue_eq (hunacked tag hopen).1]
    exact stored_enqueue (q := .main r) rfl List.mem_cons_self (.refl m)
  cases h with
  | lost hcrash hopen =>
    obtain ⟨tag, hopen'⟩ := ConsumePc.opened_of_holds hholds
    rw [hopen'] at hopen
    cases hopen
    exact Or.inr (Or.inr (hrequeue _ _ hopen'))
  | delivered hm => cases hholds
  | acked tag m =>
    cases hholds
    exact Or.inr (Or.inl rfl)
  | published tag m error =>
    cases hholds
    have hcopy := replacement_copyOf r m error
    have hqueues : Queue.retry r ∈ replacementQueues r m error ∨
        Queue.dead r ∈ replacementQueues r m error := mem_replacementQueues hbound
    rcases hqueues with hretry | hdead
    · exact Or.inr (Or.inr (stored_enqueue (q := .retry r) rfl hretry hcopy))
    · exact Or.inr (Or.inr (stored_enqueue (q := .dead r) rfl hdead hcopy))
  | released tag m => cases hholds
  | nacked tag m =>
    cases hholds
    exact Or.inr (Or.inr (hrequeue _ _ rfl))
  | _ => exact Or.inl hholds

/-- **No step loses a message.** -/
theorem accounted_step {w w' : ConsumersWorld} {a : ConsumersAction}
    (hw : (consumersSystem u).Reachable w) (h : (consumersSystem u).step w a = some w')
    {c : ConsumerName} {m : Message} (hacc : Accounted w c m) : Accounted w' c m := by
  have hstep : Calls.step (consumeMachine u) (consumersEnvironment u) w a = some w' := h
  rcases Calls.step_cases hstep with ⟨e, d, -, henv, rfl⟩ | ⟨j, r, -, hnone, rfl⟩ |
    ⟨j, choice, r, pc, d, pc', -, hcall, hadv, rfl⟩
  · rcases hacc with hstored | hheld
    · exact Or.inl (stored_environment (routed_of_reachable hw) henv hstored)
    · exact Or.inr hheld
  · rcases hacc with hstored | ⟨i, pc, m', hi, hcopy, hholds⟩
    · exact Or.inl hstored
    · have hij : i ≠ j := by
        rintro rfl
        rw [hnone] at hi
        cases hi
      exact Or.inr ⟨i, pc, m', (Calls.move_calls_of_ne w hij _ _ _).trans hi, hcopy, hholds⟩
  · have hmoved := consumeStep_of_machine hadv
    rcases hacc with hstored | ⟨i, pc₀, m', hi, hcopy, hholds⟩
    · rcases hmoved.stored hstored with hstored' | ⟨rfl, m', hholds, hcopy⟩
      · exact Or.inl hstored'
      · exact Or.inr ⟨j, pc', m', Calls.move_calls_self _ _ _ _ _, hcopy, Or.inl hholds⟩
    · by_cases hij : i = j
      · subst hij
        rw [hcall] at hi
        cases hi
        rcases hholds with hholds | rfl
        · have hunacked : ∀ tag, pc.opened = some (tag, m') →
              w.shared.broker.Unacked tag (.main c) m' :=
            fun tag hopen => unacked_of_opened hw hcall hopen
          obtain ⟨tag, hopen⟩ := ConsumePc.opened_of_holds hholds
          have hbound : c.bound m'.routingKey = true :=
            (routed_of_reachable hw).deliveries _ _ (List.mem_of_getElem? (hunacked tag hopen).1)
          rcases hmoved.holds_cases hholds hunacked hbound with hkeeps | hhandled | hstored
          · exact Or.inr ⟨i, pc', m', Calls.move_calls_self _ _ _ _ _, hcopy, Or.inl hkeeps⟩
          · exact Or.inr ⟨i, pc', m', Calls.move_calls_self _ _ _ _ _, hcopy, Or.inr hhandled⟩
          · obtain ⟨q, hq, m₁, hm₁, hcopy₁⟩ := hstored
            exact Or.inl ⟨q, hq, m₁, hm₁, hcopy₁.trans hcopy⟩
        · -- a call that is done takes no step
          cases hmoved with
          | lost hcrash hopen => cases hopen
      · exact Or.inr ⟨i, pc₀, m', (Calls.move_calls_of_ne w hij _ _ _).trans hi, hcopy, hholds⟩

/-! ### The theorem -/

/-- The effect of handling a message is there.  For the audit consumer: the marker
and an audit row of the event; for the notification consumer and an `OrderCreated`
event: the marker and the delivery of the event, and the delivery's job. -/
def Effected (u : UuidSyntax) (s : ConsumersState) (c : ConsumerName) (m : Message) : Prop :=
  ∃ event, m.content = some event ∧
    match c with
    | .audit => ∃ e, u.ofJson (event.get "id") = some e ∧
        ⟨.audit, e⟩ ∈ s.effects.shared.db.processedMessages ∧
        ∃ a ∈ s.effects.shared.db.auditLogs, a.event = some e
    | .notification => isOrderCreated event = true → ∃ e d, u.ofJson (event.get "id") = some e ∧
        ⟨.notification, e⟩ ∈ s.effects.shared.db.processedMessages ∧
        d ∈ s.effects.shared.db.notificationDeliveries ∧ d.eventId = e ∧ d.id ∈ s.jobs

theorem Completed.effected {s : ConsumersState} {c : ConsumerName} {m : Message}
    (h : Completed u s c m) (honce : s.effects.shared.db.Once) : Effected u s c m := by
  obtain ⟨event, hcontent, hdone⟩ := h
  refine ⟨event, hcontent, ?_⟩
  rcases hdone with hnone | ⟨call, hhandle, ⟨fresh, hok⟩ | ⟨id, hid, hok⟩⟩
  · obtain ⟨rfl, hnot⟩ := handle_eq_none hnone
    intro horder
    rw [hnot] at horder
    cases horder
  · obtain ⟨hconsumer, hevent⟩ := handle_eq_some hhandle
    obtain ⟨haudit, e, hid, hmarker⟩ := hok
    obtain rfl : c = .audit := hconsumer.symm.trans haudit
    refine ⟨e, hevent ▸ hid, hmarker, ?_⟩
    -- there are as many audit rows as markers
    have hcount : 0 < s.effects.shared.db.auditLogs.countP fun a => a.event = some e := by
      rw [honce.audits e]
      exact List.count_pos_iff.mpr hmarker
    obtain ⟨a, ha, heq⟩ := List.countP_pos_iff.mp hcount
    exact ⟨a, ha, of_decide_eq_true heq⟩
  · obtain ⟨hconsumer, hevent⟩ := handle_eq_some hhandle
    obtain ⟨hnotification, e, id', hparsed, hmarker, heq, hmem⟩ := hok
    obtain rfl : c = .notification := hconsumer.symm.trans hnotification
    intro _
    obtain ⟨d, hd, hidentity⟩ := List.mem_map.mp hmem
    simp only [NotificationDelivery.identity, Prod.mk.injEq] at hidentity
    cases heq
    exact ⟨e, d, hevent ▸ hparsed, hmarker, hd, hidentity.2.1, hidentity.1 ▸ hid⟩

/-- **No message is lost.**  A message that is in the main queue of a consumer in some
state has, in every state any run leads to from there, been handled by the consumer
with its effects in place, or has a copy in the consumer's main queue, in an
unacknowledged delivery of it, in its retry queue or in its dead-letter queue; and
every delivery has been closed at most once. -/
theorem no_message_lost {w w' : ConsumersWorld} {as : List ConsumersAction}
    (hw : (consumersSystem u).Reachable w) (has : (consumersSystem u).exec w as = some w') :
    (∀ c, ∀ m ∈ w.shared.broker.queues (.main c), ∃ m', m'.CopyOf m ∧
      ((∃ i, w'.calls i = some ⟨c, .done m' .handled⟩ ∧ Effected u w'.shared c m') ∨
        m' ∈ w'.shared.broker.queues (.main c) ∨
        (∃ tag, w'.shared.broker.Unacked tag (.main c) m') ∨
        m' ∈ w'.shared.broker.queues (.retry c) ∨ m' ∈ w'.shared.broker.queues (.dead c))) ∧
    (w'.shared.broker.closed.map Prod.fst).Nodup := by
  have hw' := hw.exec has
  refine ⟨fun c m hm => ?_, closed_nodup hw'⟩
  have hacc : Accounted w' c m := by
    refine Transition.Sys.exec_stable (I := fun w => Accounted w c m) ?_ hw ?_ has
    · intro w a w' hw h hstep
      exact accounted_step hw hstep h
    · exact Or.inl ⟨.main c, rfl, m, hm, .refl m⟩
  rcases hacc with ⟨q, hq, m', hm', hcopy⟩ | ⟨i, pc, m', hi, hcopy, hholds | rfl⟩
  · refine ⟨m', hcopy, ?_⟩
    subst hq
    cases q with
    | main c => exact Or.inr (Or.inl hm')
    | retry c => exact Or.inr (Or.inr (Or.inr (Or.inl hm')))
    | dead c => exact Or.inr (Or.inr (Or.inr (Or.inr hm')))
  · obtain ⟨tag, hopen⟩ := ConsumePc.opened_of_holds hholds
    exact ⟨m', hcopy, Or.inr (Or.inr (Or.inl ⟨tag, unacked_of_opened hw' hi hopen⟩))⟩
  · have hdone : Completed u w'.shared c m' := consume_ok hw' hi
    exact ⟨m', hcopy, Or.inl ⟨i, hi, hdone.effected (once_of_reachable (effects_reachable hw'))⟩⟩

/-- Nothing published, no rows and no calls. -/
def ConsumersWorld.sample : ConsumersWorld :=
  ⟨⟨Broker.empty, 0, EffectWorld.sample, []⟩, fun _ => none⟩

/-- A step that succeeds, at the position or under the number `n`. -/
def ConsumeChoice.sample (n : ℕ) : ConsumeChoice := ⟨false, n, false, [], false, .other⟩

/-- The publication of the sample event. -/
def samplePublication : ConsumersAction :=
  .environment (.publish (some sampleEvent) "order.created" none)

/-- The first worker dies with the message in its hands; the second handles it. -/
def redeliveredAudit : List ConsumersAction :=
  [.request 0 .audit, .advance 0 (.sample 0),
    .advance 0 { ConsumeChoice.sample 0 with crashes := true },
    .request 1 .audit, .advance 1 (.sample 0), .advance 1 (.sample 0)] ++
  List.replicate 4 (.environment (.effects (.advance 0 (.sample 1)))) ++
  [.advance 1 (.sample 0), .advance 1 (.sample 0)]

theorem ConsumersWorld.sample_init : (consumersSystem .sample).init ConsumersWorld.sample := by
  refine ⟨⟨rfl, rfl, ⟨⟨rfl, ?_, rfl, rfl⟩, fun _ => rfl⟩, rfl⟩, fun _ => rfl⟩
  intro a ha
  cases ha

/-- The sample event is in the audit queue when it is published, and accounted for
after the crash and the redelivery. -/
theorem sample_message_kept : ∃ w w' m,
    (consumersSystem .sample).exec ConsumersWorld.sample [samplePublication] = some w ∧
    m ∈ w.shared.broker.queues (.main .audit) ∧
    (consumersSystem .sample).exec w redeliveredAudit = some w' ∧ ∃ m', m'.CopyOf m ∧
      ((∃ i, w'.calls i = some ⟨.audit, .done m' .handled⟩ ∧ Effected .sample w'.shared .audit m') ∨
        m' ∈ w'.shared.broker.queues (.main .audit) ∨
        (∃ tag, w'.shared.broker.Unacked tag (.main .audit) m') ∨
        m' ∈ w'.shared.broker.queues (.retry .audit) ∨
        m' ∈ w'.shared.broker.queues (.dead .audit)) := by
  have hpublished : ((consumersSystem .sample).exec ConsumersWorld.sample [samplePublication]).map
      (fun w => (w.shared.broker.queues (.main .audit)).length) = some 1 := by decide +kernel
  have hrun : ((consumersSystem .sample).exec ConsumersWorld.sample
      (samplePublication :: redeliveredAudit)).isSome = true := by decide +kernel
  obtain ⟨w, hw, hlength⟩ := Option.map_eq_some_iff.mp hpublished
  obtain ⟨w', hw'⟩ := Option.isSome_iff_exists.mp hrun
  obtain ⟨m, hm⟩ := List.length_eq_one_iff.mp hlength
  have hrest : (consumersSystem .sample).exec w redeliveredAudit = some w' := by
    have happend := Transition.Sys.exec_append (consumersSystem .sample) ConsumersWorld.sample
      [samplePublication] redeliveredAudit
    rw [hw, Option.bind_some] at happend
    exact happend.symm.trans hw'
  obtain ⟨hkept, -⟩ := no_message_lost (.exec (.init ConsumersWorld.sample_init) hw) hrest
  have hmem : m ∈ w.shared.broker.queues (.main .audit) := by
    rw [hm]
    exact List.mem_cons_self
  exact ⟨w, w', m, hw, hmem, hrest, hkept .audit m hmem⟩

end ScaleForge
