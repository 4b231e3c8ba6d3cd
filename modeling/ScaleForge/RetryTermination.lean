import ScaleForge.RetryIsolation

/-!
# Retries terminate

A failure puts a copy of the message into the retry queue of every consumer bound
to its key, and each of those, when it expires, puts one into the main queue of every
such consumer, so the copies can multiply.  But each carries one attempt more than
the message it is a copy of, and after `MAX_RETRIES` attempts there are no copies
but a dead letter.  The work a message can still cause is therefore bounded by its
retry count, and the work of all messages together is a measure that every delivery,
every step of a handler and every expiry lowers.

## Main definitions

* `drainSystem` — the runs without publications, crashes and failed publishes.
* `Loaded` — the states they start from.
* `backlog`, `ConsumePc.work` — the work left.
* `Placed` — what the headers of a message say about the queue it is in.

## Main results

* `loaded_of_publish` — a publication only loads the queues.
* `potential_of_step` — every step lowers the work left.
* `retries_terminate` — **retries terminate**, with the headers in place throughout.
-/

namespace ScaleForge

open RabbitConsumersService Transition

variable {u : UuidSyntax}

/-! ### The runs -/

/-- The step is no publication, no crash and no publish of a retry or a dead letter
that fails. -/
def drains (w : ConsumersWorld) (a : ConsumersAction) : Bool :=
  confirmed w a &&
    match a with
    | .environment (.publish _ _ _) => false
    | _ => true

/-- The runs without publications, with confirmed publishes and without crashes. -/
abbrev drainSystem (u : UuidSyntax) : Sys ConsumersWorld ConsumersAction :=
  (consumersSystem u).restrict drains

/-- The step delivers a message, goes on with its handling, or lets a retry expire.
What is left are the statements of the handlers and the workers that get ready. -/
def works (_ : ConsumersWorld) (a : ConsumersAction) (_ : ConsumersWorld) : Bool :=
  match a with
  | .advance _ _ => true
  | .environment (.expire _ _) => true
  | _ => false

/-- The messages came from publishers and are in main queues, and no delivery is being
handled. -/
structure Loaded (w : ConsumersWorld) : Prop where
  messages : w.shared.broker.All fun q m => (∃ c, q = .main c) ∧ m.retryCount = none
  idle : ∀ i r pc, w.calls i = some ⟨r, pc⟩ → pc.opened = none

theorem loaded_of_init {w : ConsumersWorld} (h : (consumersSystem u).init w) : Loaded w := by
  obtain ⟨⟨hbroker, -⟩, hcalls⟩ := h
  refine ⟨?_, fun i r pc hcall => ?_⟩
  · rw [hbroker]
    exact .empty
  · rw [hcalls i] at hcall
    cases hcall

/-- **A publication only loads the queues.** -/
theorem loaded_of_publish {w w' : ConsumersWorld} {content : Option Json} {key : String}
    (hw : Loaded w)
    (h : (consumersSystem u).step w (.environment (.publish content key none)) = some w') :
    Loaded w' := by
  cases h
  refine ⟨hw.messages.enqueue fun q hq => ?_, hw.idle⟩
  obtain ⟨c, rfl, -⟩ := mem_route_events_iff.mp hq
  exact ⟨⟨c, rfl⟩, rfl⟩

/-! ### The work left -/

/-- The most copies that bindings can make of a message: one for each consumer. -/
abbrev fanout : ℕ := consumerDefinitions.length

/-- The steps a message can cause that can be retried `n` times more: six to handle it,
and if that fails the expiry of every copy and the steps of what it expires into. -/
def work : ℕ → ℕ
  | 0 => 6
  | n + 1 => 6 + fanout * (1 + fanout * work n)

/-- The work of a message in a main queue. -/
def mainWork (m : Message) : ℕ := work (maxRetries - previousAttempts m)

/-- The work of a message in a retry queue. -/
def retryWork (m : Message) : ℕ := 1 + fanout * mainWork m

/-- The work that a failure brings back. -/
def failureWork (m : Message) : ℕ :=
  if nextAttempt m ≤ maxRetries then fanout * retryWork (retryMessage m) else 0

theorem mainWork_eq (m : Message) : mainWork m = 6 + failureWork m := by
  unfold mainWork failureWork
  split
  · next hretry =>
    have hsucc : maxRetries - previousAttempts m = (maxRetries - nextAttempt m) + 1 := by
      unfold nextAttempt at *
      omega
    rw [hsucc, work]
    rfl
  · next hdead =>
    have hzero : maxRetries - previousAttempts m = 0 := by
      unfold nextAttempt at *
      omega
    rw [hzero, work]

/-- The work left of a call. -/
def ConsumePc.work : ConsumePc → ℕ
  | waiting => 0
  | delivered _ m => 5 + failureWork m
  | handling _ m _ => 4 + failureWork m
  | enqueueing _ m _ => 3 + failureWork m
  | failed _ m _ => 2 + failureWork m
  | succeeded _ _ => 1
  | replaced _ _ => 1
  | unpublished _ _ => 1
  | done _ _ => 0

theorem ConsumePc.work_of_opened {pc : ConsumePc} (h : pc.opened = none) : pc.work = 0 := by
  cases pc <;> first | rfl | cases h

def mainQueues : List Queue := consumerDefinitions.map fun d => .main d.1

def retryQueues : List Queue := consumerDefinitions.map fun d => .retry d.1

theorem mem_mainQueues (c : ConsumerName) : Queue.main c ∈ mainQueues :=
  List.mem_map.mpr ⟨_, mem_consumerDefinitions_iff.mpr rfl, rfl⟩

theorem mem_retryQueues (c : ConsumerName) : Queue.retry c ∈ retryQueues :=
  List.mem_map.mpr ⟨_, mem_consumerDefinitions_iff.mpr rfl, rfl⟩

/-- The work of the messages in the queues. -/
def backlog (b : Broker Queue Message) : ℕ :=
  b.load mainWork mainQueues + b.load retryWork retryQueues

/-- The work of the messages and of the calls with numbers in `I`. -/
def potential (I : Finset ℕ) (w : ConsumersWorld) : ℕ :=
  backlog w.shared.broker + w.total ConsumePc.work I

/-! ### What an operation does to the backlog -/

section Backlog

variable {b : Broker Queue Message} {c : ConsumerName} {m : Message} {n : ℕ}

theorem not_main_of_retry {q : Queue} (hq : q ∈ retryQueues) (c : ConsumerName) : q ≠ .main c := by
  obtain ⟨d, -, rfl⟩ := List.mem_map.mp hq
  exact nofun

theorem not_retry_of_main {q : Queue} (hq : q ∈ mainQueues) (c : ConsumerName) : q ≠ .retry c := by
  obtain ⟨d, -, rfl⟩ := List.mem_map.mp hq
  exact nofun

theorem backlog_deliver (hm : (b.queues (.main c))[n]? = some m) :
    backlog (b.deliver (.main c) n m) + mainWork m ≤ backlog b := by
  have hmain := Broker.load_remove (f := mainWork) (mem_mainQueues c) hm
  have hretry : (b.remove (.main c) n).load retryWork retryQueues ≤
      b.load retryWork retryQueues := Broker.load_remove_le hm
  unfold backlog
  change (b.remove _ n).load _ _ + (b.remove _ n).load _ _ + _ ≤ _
  omega

/-- **An expired retry weighs more than the copies it expires into.** -/
theorem backlog_expire (hm : (b.queues (.retry c))[n]? = some m) :
    backlog ((b.remove (.retry c) n).enqueue (route .events m.routingKey)
      { m with expiration := none }) + 1 ≤ backlog b := by
  have hmain : ((b.remove (.retry c) n).enqueue (route .events m.routingKey)
      { m with expiration := none }).load mainWork mainQueues ≤
        (b.remove (.retry c) n).load mainWork mainQueues + fanout * mainWork m :=
    Broker.load_enqueue_le
  have hmain' : (b.remove (.retry c) n).load mainWork mainQueues ≤ b.load mainWork mainQueues :=
    Broker.load_remove_le hm
  have hretry : ((b.remove (.retry c) n).enqueue (route .events m.routingKey)
      { m with expiration := none }).load retryWork retryQueues =
        (b.remove (.retry c) n).load retryWork retryQueues := by
    refine Broker.load_enqueue_of_not fun q hq hmem => ?_
    obtain ⟨c', hc', -⟩ := mem_route_events_iff.mp hmem
    exact not_main_of_retry hq c' hc'
  have hretry' := Broker.load_remove (f := retryWork) (mem_retryQueues c) hm
  unfold retryWork at hretry'
  unfold backlog retryWork at *
  omega

/-- **A replacement weighs no more than the failure.** -/
theorem backlog_replacement (r : ConsumerName) (error : Thrown) :
    backlog (b.enqueue (replacementQueues r m error) (replacement r m error).2) ≤
      backlog b + failureWork m := by
  unfold replacementQueues replacement failureWork
  split
  · -- a copy for each retry queue, and no main queue changes
    have hmain : (b.enqueue (route .retry (retryMessage m).routingKey) (retryMessage m)).load
        mainWork mainQueues = b.load mainWork mainQueues := by
      refine Broker.load_enqueue_of_not fun q hq hmem => ?_
      obtain ⟨c', hc', -⟩ := mem_route_retry_iff.mp hmem
      exact not_retry_of_main hq c' hc'
    have hretry : (b.enqueue (route .retry (retryMessage m).routingKey) (retryMessage m)).load
        retryWork retryQueues ≤
          b.load retryWork retryQueues + fanout * retryWork (retryMessage m) :=
      Broker.load_enqueue_le
    unfold backlog
    dsimp only
    omega
  · -- a dead letter waits for nobody
    have hdead : ∀ q ∈ route .deadLetter (deadMessage r m error).routingKey, q = .dead r :=
      fun q hq => mem_route_deadLetter_iff.mp hq
    have hmain : ∀ q ∈ mainQueues, q ∉ route .deadLetter (deadMessage r m error).routingKey := by
      intro q hq hmem
      obtain ⟨d, -, rfl⟩ := List.mem_map.mp hq
      cases hdead _ hmem
    have hretry : ∀ q ∈ retryQueues, q ∉ route .deadLetter (deadMessage r m error).routingKey := by
      intro q hq hmem
      obtain ⟨d, -, rfl⟩ := List.mem_map.mp hq
      cases hdead _ hmem
    unfold backlog
    dsimp only
    rw [Broker.load_enqueue_of_not hmain, Broker.load_enqueue_of_not hretry]
    exact Nat.le_refl _

end Backlog

/-! ### Every step lowers the work left -/

/-- In a draining run no worker dies, and no publish fails. -/
theorem drains_advance {w : ConsumersWorld} {i : ℕ} {c : ConsumeChoice}
    (h : drains w (.advance i c) = true) :
    c.crashes = false ∧ ∀ r tag m error, w.calls i = some ⟨r, .failed tag m error⟩ →
      c.fails = false := by
  simp only [drains, confirmed, Bool.and_true, Bool.and_eq_true, Bool.not_eq_true'] at h
  refine ⟨h.1, fun r tag m error hcall => ?_⟩
  simpa [hcall] using h.2

theorem not_unpublished_of_drains {w₀ w : ConsumersWorld} {as : List ConsumersAction}
    (h0 : Loaded w₀) (h : (drainSystem u).exec w₀ as = some w) {i : ℕ} {r : ConsumerName}
    {tag : ℕ} {m : Message} : w.calls i ≠ some ⟨r, .unpublished tag m⟩ := by
  refine Sys.run_invariant (I := fun _ w => ∀ i r tag m, w.calls i ≠ some ⟨r, .unpublished tag m⟩)
    (fun i r tag m hcall => ?_) ?_ h i r tag m
  · cases h0.idle i r _ hcall
  intro bs v a v' _ ih hstep i r tag m hcall
  obtain ⟨hdrains, hplain⟩ := Sys.restrict_step_iff.mp hstep
  rcases Calls.calls_of_step hplain hcall with hsame | ⟨-, hstart⟩ | ⟨c, pc₀, rfl, hold, hadv⟩
  · exact ih i r tag m hsame
  · cases hstart
  · have hmoved := consumeStep_of_machine hadv
    generalize v'.shared = s' at hmoved
    cases hmoved with
    | unpublished tag m error hfails hqs =>
      have hconfirmed := (drains_advance hdrains).2 r tag m error hold
      rw [hfails] at hconfirmed
      cases hconfirmed

/-- A call that moves on its own has less work left, together with the messages. -/
theorem work_of_advance {s s' : ConsumersState} {c : ConsumeChoice} {r : ConsumerName}
    {pc pc' : ConsumePc} (h : ConsumeStep u s c r pc s' pc') (hcrash : c.crashes = false)
    (hfails : ∀ tag m error, pc = .failed tag m error → c.fails = false)
    (hpublished : ∀ tag m, pc ≠ .unpublished tag m) :
    backlog s'.broker + pc'.work + 1 ≤ backlog s.broker + pc.work := by
  cases h with
  | lost hlost _ =>
    rw [hcrash] at hlost
    cases hlost
  | delivered hm =>
    have hbacklog := backlog_deliver hm
    rw [mainWork_eq] at hbacklog
    simp only [ConsumePc.work]
    omega
  | unpublished tag m error hfailed _ =>
    rw [hfails tag m error rfl] at hfailed
    cases hfailed
  | nacked tag m => exact absurd rfl (hpublished tag m)
  | published tag m error =>
    have hbacklog := backlog_replacement (b := s.broker) (m := m) r error
    simp only [ConsumePc.work]
    omega
  | acked tag m =>
    simp only [ConsumePc.work]
    exact Nat.le_refl _
  | released tag m =>
    simp only [ConsumePc.work]
    exact Nat.le_refl _
  | _ =>
    simp only [ConsumePc.work]
    omega

/-- **Every step of a draining run lowers the work left, or leaves it.** -/
theorem potential_of_step {v v' : ConsumersWorld} {a : ConsumersAction} {I : Finset ℕ}
    (hI : ∀ i c, a = .advance i c → i ∈ I) (h : (drainSystem u).step v a = some v')
    (hpublished : ∀ i r tag m, v.calls i ≠ some ⟨r, .unpublished tag m⟩) :
    potential I v' + (if works v a v' then 1 else 0) ≤ potential I v := by
  obtain ⟨hdrains, hplain⟩ := Sys.restrict_step_iff.mp h
  rcases Calls.step_cases hplain with ⟨e, d, rfl, henv, rfl⟩ | ⟨j, r, rfl, hnone, rfl⟩ |
    ⟨j, c, r, pc, d, pc', rfl, hcall, hadv, rfl⟩
  · rcases environment_cases henv with ⟨content, key, retryCount, rfl, -⟩ |
      ⟨c, n, m, rfl, hm, rfl⟩ | ⟨a, effects, rfl, -, rfl⟩
    · simp [drains] at hdrains
    · have hbacklog := backlog_expire hm
      unfold potential
      rw [Nat.add_right_comm]
      exact Nat.add_le_add_right hbacklog _
    · exact Nat.le_refl _
  · -- a worker that waits has no work
    have htotal : (v.move j r v.shared (consumeMachine u).start).total ConsumePc.work I =
        v.total ConsumePc.work I := by
      by_cases hj : j ∈ I
      · have hmove := Calls.total_move hj ConsumePc.work r v.shared (consumeMachine u).start
          (s := v)
        rw [hnone] at hmove
        exact hmove
      · exact Finset.sum_congr rfl fun i hi => by
          rw [Calls.move_calls_of_ne v (ne_of_mem_of_not_mem hi hj)]
    unfold potential
    rw [htotal]
    exact Nat.le_refl _
  · obtain ⟨hcrash, hfails⟩ := drains_advance hdrains
    have hwork := work_of_advance (consumeStep_of_machine hadv) hcrash
      (fun tag m error hpc => hfails r tag m error (hpc ▸ hcall))
      (fun tag m hpc => hpublished j r tag m (hpc ▸ hcall))
    have hmove := Calls.total_move (hI j c rfl) ConsumePc.work r d pc' (s := v)
    rw [hcall, Option.elim_some] at hmove
    dsimp only at hmove
    have hworks : (if works v (.advance j c) (v.move j r d pc') then 1 else 0) = 1 := rfl
    rw [hworks]
    unfold potential
    simp only [Calls.State.move] at hmove ⊢
    omega

/-- The numbers of the calls that move in a run. -/
def movers (as : List ConsumersAction) : Finset ℕ :=
  (as.filterMap fun a =>
    match a with
    | .advance i _ => some i
    | _ => none).toFinset

theorem mem_movers {as : List ConsumersAction} {i : ℕ} {c : ConsumeChoice}
    (h : .advance i c ∈ as) : i ∈ movers as :=
  List.mem_toFinset.mpr (List.mem_filterMap.mpr ⟨_, h, rfl⟩)

theorem potential_of_loaded {w : ConsumersWorld} (h : Loaded w) (I : Finset ℕ) :
    potential I w = backlog w.shared.broker := by
  have hidle : w.total ConsumePc.work I = 0 := by
    refine Finset.sum_eq_zero fun i _ => ?_
    cases hcall : w.calls i with
    | none => rfl
    | some call => exact ConsumePc.work_of_opened (h.idle i call.request call.pc hcall)
  unfold potential
  rw [hidle, Nat.add_zero]

/-- **The steps of a draining run are no more than the backlog of its start.** -/
theorem count_works_le {w₀ w : ConsumersWorld} {as : List ConsumersAction} (h0 : Loaded w₀)
    (h : (drainSystem u).exec w₀ as = some w) :
    (drainSystem u).count works w₀ as ≤ backlog w₀.shared.broker := by
  have hbound : potential (movers as) w + (drainSystem u).count works w₀ as ≤
      potential (movers as) w₀ := by
    refine Sys.add_count_le (fun v a v' htakes => ?_) h
    obtain ⟨bs, -, hbs, -⟩ := htakes.split
    refine potential_of_step (fun i c ha => ?_) htakes.step fun i r tag m =>
      not_unpublished_of_drains h0 hbs
    subst ha
    exact mem_movers htakes.mem
  rw [potential_of_loaded h0] at hbound
  omega

/-! ### The headers -/

/-- What the headers of a message say about its queue, in a run from `w₀`: a retry has
been tried and may be tried again, and waits for as long as its count says; a dead
letter has used up its retries and is in the queue of the consumer whose call failed
on it. -/
def Placed (u : UuidSyntax) (w₀ : ConsumersWorld) (as : List ConsumersAction) :
    Queue → Message → Prop
  | .main _, m => previousAttempts m ≤ maxRetries
  | .retry _, m => ∃ k, 1 ≤ k ∧ k ≤ maxRetries ∧ m.retryCount = some k ∧
      m.expiration = some (min 30000 (1000 * 2 ^ (k - 1)))
  | .dead c, m => m.retryCount = some (maxRetries + 1) ∧
      ∃ v i choice v' tag m₀ error, (drainSystem u).Takes w₀ as v (.advance i choice) v' ∧
        v.calls i = some ⟨c, .failed tag m₀ error⟩ ∧ m = deadMessage c m₀ error

theorem Placed.append {w₀ : ConsumersWorld} {as : List ConsumersAction} {q : Queue} {m : Message}
    (h : Placed u w₀ as q m) (bs : List ConsumersAction) : Placed u w₀ (as ++ bs) q m := by
  cases q with
  | main c => exact h
  | retry c => exact h
  | dead c =>
    obtain ⟨hcount, v, i, choice, v', tag, m₀, error, htakes, hcall, hm⟩ := h
    exact ⟨hcount, v, i, choice, v', tag, m₀, error, htakes.append bs, hcall, hm⟩

/-- The messages are placed as their headers say, and those being handled have retries
to come or none. -/
structure HeadersPlaced (u : UuidSyntax) (w₀ : ConsumersWorld) (as : List ConsumersAction)
    (w : ConsumersWorld) : Prop where
  messages : w.shared.broker.All (Placed u w₀ as)
  held : ∀ i r pc tag m, w.calls i = some ⟨r, pc⟩ → pc.opened = some (tag, m) →
    previousAttempts m ≤ maxRetries

/-- What a failure publishes is placed as its headers say. -/
theorem placed_replacement {w₀ v v' : ConsumersWorld} {as : List ConsumersAction} {i : ℕ}
    {choice : ConsumeChoice} {r : ConsumerName} {tag : ℕ} {m : Message} {error : Thrown}
    (htakes : (drainSystem u).Takes w₀ as v (.advance i choice) v')
    (hcall : v.calls i = some ⟨r, .failed tag m error⟩) (hm : previousAttempts m ≤ maxRetries)
    {q : Queue} (hq : q ∈ replacementQueues r m error) :
    Placed u w₀ as q (replacement r m error).2 := by
  unfold replacementQueues replacement at *
  split at hq
  · next hretry =>
    obtain ⟨c, rfl, -⟩ := mem_route_retry_iff.mp hq
    rw [if_pos hretry]
    exact ⟨nextAttempt m, Nat.succ_pos _, hretry, rfl, rfl⟩
  · next hdead =>
    rw [if_neg hdead]
    rw [mem_route_deadLetter_iff.mp hq]
    have hlast : nextAttempt m = maxRetries + 1 := by
      unfold nextAttempt at *
      omega
    exact ⟨congrArg some hlast, v, i, choice, v', tag, m, error, htakes, hcall, rfl⟩

/-- The message a call holds after its step it held before, or has just been
delivered. -/
theorem heldMessage_of_step {s s' : ConsumersState} {c : ConsumeChoice} {r : ConsumerName}
    {pc pc' : ConsumePc} (h : ConsumeStep u s c r pc s' pc') {tag : ℕ} {m : Message}
    (hopen : pc'.opened = some (tag, m)) :
    pc.opened = some (tag, m) ∨ m ∈ s.broker.queues (.main r) := by
  cases h with
  | delivered hm =>
    cases hopen
    exact Or.inr (List.mem_of_getElem? hm)
  | lost hcrash hold => cases hopen
  | acked tag m => cases hopen
  | released tag m => cases hopen
  | nacked tag m => cases hopen
  | _ => exact Or.inl hopen

/-- **Every step of a draining run places its messages as their headers say.** -/
theorem headersPlaced_of_run {w₀ w : ConsumersWorld} {as : List ConsumersAction} (h0 : Loaded w₀)
    (h : (drainSystem u).exec w₀ as = some w) : HeadersPlaced u w₀ as w := by
  refine Sys.run_invariant (I := HeadersPlaced u w₀) ?_ ?_ h
  · refine ⟨h0.messages.mono ?_, fun i r pc tag m hcall hopen => ?_⟩
    · rintro q m ⟨⟨c, rfl⟩, hnone⟩
      simp [Placed, previousAttempts, hnone]
    · rw [h0.idle i r pc hcall] at hopen
      cases hopen
  intro bs v a v' hrun ih hstep
  have htakes := Sys.takes_last hrun hstep
  obtain ⟨hdrains, hplain⟩ := Sys.restrict_step_iff.mp hstep
  have hold : v.shared.broker.All (Placed u w₀ (bs ++ [a])) :=
    ih.messages.mono fun q m hm => hm.append [a]
  refine ⟨all_of_step hplain hold ?_ ?_ ?_, fun i r pc tag m hcall hopen => ?_⟩
  · rintro content key retryCount rfl
    simp [drains] at hdrains
  · -- the header goes back through the event exchange with the message
    rintro c m ⟨k, -, hk, hcount, -⟩ q hq
    obtain ⟨c', rfl, -⟩ := mem_route_events_iff.mp hq
    simpa [Placed, previousAttempts, hcount] using hk
  · rintro i choice r tag m error rfl hcall q hq
    exact placed_replacement htakes hcall (ih.held i r _ tag m hcall rfl)
      (choice.stores_subset _ hq)
  · rcases Calls.calls_of_step hplain hcall with hsame | ⟨-, rfl⟩ | ⟨c, pc₀, -, hbefore, hadv⟩
    · exact ih.held i r pc tag m hsame hopen
    · cases hopen
    · rcases heldMessage_of_step (consumeStep_of_machine hadv) hopen with hheld | hmem
      · exact ih.held i r pc₀ tag m hbefore hheld
      · exact ih.messages.queues (.main r) m hmem

/-! ### The theorem -/

/-- **Retries terminate.**  However many messages of publishers the main queues hold, and
whatever the handlers do, the runs without publications, crashes and failed publishes
deliver, handle and let expire no more often than the backlog of the start allows; and
in every state of such a run the headers of every message fit the queue it is in. -/
theorem retries_terminate {w₀ w : ConsumersWorld} {as : List ConsumersAction} (h0 : Loaded w₀)
    (h : (drainSystem u).exec w₀ as = some w) :
    (drainSystem u).count works w₀ as ≤ backlog w₀.shared.broker ∧
      ∀ q, ∀ m ∈ w.shared.broker.queues q, Placed u w₀ as q m :=
  ⟨count_works_le h0 h, (headersPlaced_of_run h0 h).messages.queues⟩

/-- The notification consumer fails on an `order.created` event, and both consumers get
two copies more. -/
theorem sample_retries_terminate : ∃ w₀ w,
    (consumersSystem .sample).exec ConsumersWorld.sample [samplePublication] = some w₀ ∧
    (drainSystem .sample).exec w₀
      (failedDelivery .notification 0 ++ [expiry .notification, expiry .audit]) = some w ∧
    (w.shared.broker.queues (.main .notification)).length = 2 ∧
    (drainSystem .sample).count works w₀
      (failedDelivery .notification 0 ++ [expiry .notification, expiry .audit]) ≤
        backlog w₀.shared.broker ∧
      ∀ q, ∀ m ∈ w.shared.broker.queues q, Placed .sample w₀
        (failedDelivery .notification 0 ++ [expiry .notification, expiry .audit]) q m := by
  have hrun : ((consumersSystem .sample).exec ConsumersWorld.sample [samplePublication]).bind
      (fun w₀ => ((drainSystem .sample).exec w₀
        (failedDelivery .notification 0 ++ [expiry .notification, expiry .audit])).map
          fun w => (w.shared.broker.queues (.main .notification)).length) = some 2 := by
    decide
  obtain ⟨w₀, hw₀, hrest⟩ := Option.bind_eq_some_iff.mp hrun
  obtain ⟨w, hw, hlength⟩ := Option.map_eq_some_iff.mp hrest
  have hloaded : Loaded w₀ := by
    rw [Sys.exec_singleton] at hw₀
    exact loaded_of_publish (loaded_of_init ConsumersWorld.sample_init) hw₀
  exact ⟨w₀, w, hw₀, hw, hlength, retries_terminate hloaded hw⟩

end ScaleForge
