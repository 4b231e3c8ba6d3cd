import ScaleForge.NoLoss

/-!
# Retry isolation

A retry is published under the routing key of the message, and the retry exchange
copies it to the retry queue of every consumer bound to that key; when a copy
expires, the event exchange copies it to the main queue of every such consumer
once more.  So a retry is the business of one consumer exactly when no other is
bound to the key.  `order.created` is bound by both consumers: a failure of one of
them brings two copies back to each, and the copies multiply from retry to retry.

A delivery that is rejected or lost comes back itself.  It comes back beside its
retry when the publish was stored and not confirmed, or when the worker dies
between the confirmation and `ack`.

In a run without these, handling a failure brings back one copy, to the consumer
that failed.  If moreover all publishes are confirmed and no worker dies, each
publication leaves at most one live copy for each consumer.  Its retry count says
how often it has been delivered, and that bounds the deliveries.

## Main definitions

* `ConsumerName.sole` — no other consumer is bound to the key.
* `isolated`, `confirmed` — the steps of the runs considered.
* `ConsumePc.owes` — the handling of a failure has still to bring the message back.
* `RetryApart` — a step of a call that has failed brings back what it owes, and no more.
* `HandledOnce` — the steps of a call have brought back one copy.
* `RetryIsolation` — retry isolation of a run.
* `Chain` — the one live copy of a publication, for one consumer.

## Main results

* `handled_once` — a failure that has been handled has brought back one copy.
* `retry_isolated` — retry isolation, for runs whose failures are isolated.
* `retry_amplified` — without the condition it fails.
-/

namespace ScaleForge

open RabbitConsumersService Transition

variable {u : UuidSyntax}

/-! ### The runs -/

/-- No other consumer is bound to the key. -/
def ConsumerName.sole (c : ConsumerName) (key : String) : Bool :=
  consumerDefinitions.all fun (c', _) => !c'.bound key || c' = c

theorem ConsumerName.eq_of_sole {c c' : ConsumerName} {key : String} (h : c.sole key = true)
    (hbound : c'.bound key = true) : c' = c := by
  unfold ConsumerName.sole at h
  have hmem : (c', c'.definition) ∈ consumerDefinitions := mem_consumerDefinitions_iff.mpr rfl
  have hc' := List.all_eq_true.mp h _ hmem
  simpa [hbound] using hc'

/-- A retry that is due is stored for the failing consumer alone, or is stored nowhere and
fails; and no worker dies after its retry has been confirmed. -/
def isolated (w : ConsumersWorld) : ConsumersAction → Bool
  | .advance i c =>
    match w.calls i with
    | some ⟨r, .failed _ m error⟩ => maxRetries < nextAttempt m ||
        c.stores (replacementQueues r m error) = [] || !c.fails && r.sole m.routingKey
    | some ⟨_, .replaced _ m⟩ => maxRetries < nextAttempt m || !c.crashes
    | _ => true
  | _ => true

/-- The step is no crash and no publish of a retry or a dead letter that fails, and
publications are those of `RabbitPublisherService`, which writes no headers. -/
def confirmed (w : ConsumersWorld) : ConsumersAction → Bool
  | .environment (.publish _ _ retryCount) => retryCount.isNone
  | .advance i c => !c.crashes &&
    match w.calls i with
    | some ⟨_, .failed _ _ _⟩ => !c.fails
    | _ => true
  | _ => true

/-- The runs in which every failure is isolated. -/
abbrev isolatedSystem (u : UuidSyntax) : Sys ConsumersWorld ConsumersAction :=
  (consumersSystem u).restrict isolated

/-- The copies of a publication in a queue. -/
def copies (b : Broker Queue Message) (n : ℕ) (q : Queue) : List Message :=
  b.select (fun m => m.origin = n) q

/-- How often a publication has been delivered to a consumer. -/
def invocations (b : Broker Queue Message) (c : ConsumerName) (n : ℕ) : ℕ :=
  b.deliveries.countP fun d => d.1 = .main c && d.2.origin = n

/-- The failure a call is handling. -/
def ConsumePc.failing : ConsumePc → Option (ℕ × Message)
  | failed tag m _ | unpublished tag m | replaced tag m => some (tag, m)
  | _ => none

/-- The handling of a failure has still to bring the message back. -/
def ConsumePc.owes : ConsumePc → Bool
  | failed _ _ _ | unpublished _ _ => true
  | _ => false

/-- The step puts one copy into a queue of the consumer, to be delivered again after a while or
at once, and none into another queue. -/
def BringsBack (v v' : ConsumersWorld) (r : ConsumerName) (m : Message) : Prop :=
  ∃ q₀ m', (q₀ = .retry r ∧ m' = retryMessage m ∨ q₀ = .main r ∧ m' = m) ∧
    ∀ q, v'.shared.broker.queues q =
      if q = q₀ then v.shared.broker.queues q ++ [m'] else v.shared.broker.queues q

/-- The step is one of the call and puts a message into the queue. -/
def adds (i : ℕ) (q : Queue) (v : ConsumersWorld) (a : ConsumersAction) (v' : ConsumersWorld) :
    Bool :=
  match a with
  | .advance j _ =>
    j = i && (v.shared.broker.queues q).length < (v'.shared.broker.queues q).length
  | _ => false

/-- The steps of the call have put one message into a queue of the consumer, its retry queue or
its main queue, and none into another. -/
def HandledOnce (u : UuidSyntax) (v : ConsumersWorld) (as : List ConsumersAction) (i : ℕ)
    (r : ConsumerName) : Prop :=
  ∃ q₀, (q₀ = .retry r ∨ q₀ = .main r) ∧
    ∀ q, (consumersSystem u).count (adds i q) v as = if q = q₀ then 1 else 0

/-- Under a sole key an exchange copies a message to one queue. -/
theorem mem_route_sole {x : Exchange} (hx : x ≠ .deadLetter) {c : ConsumerName} {key : String}
    (hbound : c.bound key = true) (hsole : c.sole key = true) {q : Queue} :
    q ∈ route x key ↔ q = x.queue c := by
  rw [mem_route_iff hx]
  constructor
  · rintro ⟨c', rfl, hbound'⟩
    rw [ConsumerName.eq_of_sole hsole hbound']
  · rintro rfl
    exact ⟨c, rfl, hbound⟩

/-- A replacement stays with the consumer that failed, if its key is sole or it is dead. -/
theorem mem_replacementQueues_sole {c : ConsumerName} {m : Message} {error : Thrown}
    (hbound : c.bound m.routingKey = true)
    (hsole : nextAttempt m ≤ maxRetries → c.sole m.routingKey = true) {q : Queue} :
    q ∈ replacementQueues c m error ↔
      q = if nextAttempt m ≤ maxRetries then .retry c else .dead c := by
  unfold replacementQueues replacement
  split
  · next hretry => exact mem_route_sole (x := .retry) nofun hbound (hsole hretry)
  · exact mem_route_deadLetter_iff

/-- The message a call has open came under a key of its consumer. -/
theorem bound_of_opened {w : ConsumersWorld} (hw : (consumersSystem u).Reachable w) {i : ℕ}
    {r : ConsumerName} {pc : ConsumePc} (hcall : w.calls i = some ⟨r, pc⟩) {tag : ℕ} {m : Message}
    (hopen : pc.opened = some (tag, m)) : r.bound m.routingKey = true :=
  (routed_of_reachable hw).deliveries (.main r) m
    (List.mem_of_getElem? (unacked_of_opened hw hcall hopen).1)

section Isolated

variable {w w' : ConsumersWorld} {i : ℕ} {c : ConsumeChoice} {r : ConsumerName} {tag : ℕ}
  {m : Message} {error : Thrown}

/-- In an isolated run a retry is stored nowhere, or is published under a sole key. -/
theorem stores_of_isolated (h : (isolatedSystem u).step w (.advance i c) = some w')
    (hcall : w.calls i = some ⟨r, .failed tag m error⟩) (hretry : nextAttempt m ≤ maxRetries) :
    c.stores (replacementQueues r m error) = [] ∨
      c.fails = false ∧ r.sole m.routingKey = true := by
  have hguard := (Sys.restrict_step_iff.mp h).1
  simp only [isolated, hcall, Bool.or_eq_true, decide_eq_true_eq, Bool.and_eq_true,
    Bool.not_eq_true'] at hguard
  rcases hguard with (hlate | hnone) | hsole
  · exact absurd hretry (Nat.not_le_of_lt hlate)
  · exact Or.inl hnone
  · exact Or.inr hsole

/-- The key of a retry that is stored is sole. -/
theorem sole_of_stores (h : (isolatedSystem u).step w (.advance i c) = some w')
    (hcall : w.calls i = some ⟨r, .failed tag m error⟩) {q : Queue}
    (hq : q ∈ c.stores (replacementQueues r m error)) (hretry : nextAttempt m ≤ maxRetries) :
    r.sole m.routingKey = true := by
  rcases stores_of_isolated h hcall hretry with hnone | ⟨-, hsole⟩
  · rw [hnone] at hq
    cases hq
  · exact hsole

end Isolated

/-- **The messages of a retry queue have keys of its consumer alone.** -/
theorem retry_sole {w : ConsumersWorld} (hw : (isolatedSystem u).Reachable w) {c : ConsumerName}
    {m : Message} (hm : m ∈ w.shared.broker.queues (.retry c)) : c.sole m.routingKey = true := by
  have hall : w.shared.broker.All fun q m => ∀ c, q = .retry c → c.sole m.routingKey = true := by
    refine hw.invariant (I := fun w => w.shared.broker.All fun q m =>
      ∀ c, q = .retry c → c.sole m.routingKey = true) ?_ ?_
    · rintro w ⟨⟨hbroker, -⟩, -⟩
      rw [hbroker]
      exact .empty
    intro w a w' hw ih h
    -- the event exchange has no retry queues
    have hevents : ∀ key, ∀ q ∈ route .events key, ∀ c, q ≠ .retry c := by
      rintro key q hq c rfl
      obtain ⟨c', hc', -⟩ := mem_route_events_iff.mp hq
      cases hc'
    refine all_of_step (Sys.restrict_step_iff.mp h).2 ih ?_ ?_ ?_
    · exact fun content key retryCount _ q hq c hc => absurd hc (hevents key q hq c)
    · exact fun c' m _ q hq c hc => absurd hc (hevents m.routingKey q hq c)
    · intro i choice r tag m error ha hcall q hq c hc
      subst ha hc
      have hbound := bound_of_opened hw.of_restrict hcall rfl
      have hsole := sole_of_stores h hcall hq
      have hmem := (mem_replacementQueues_sole hbound hsole).mp (choice.stores_subset _ hq)
      by_cases hretry : nextAttempt m ≤ maxRetries
      · rw [if_pos hretry] at hmem
        cases hmem
        rw [replacement, if_pos hretry]
        exact hsole hretry
      · rw [if_neg hretry] at hmem
        cases hmem
  exact hall.queues (.retry c) m hm c rfl

/-! ### One failure -/

/-- How far the handling of a failure has come: the call still owes a copy and has brought back
none, or it has brought back one. -/
structure Handling (u : UuidSyntax) (v : ConsumersWorld) (as : List ConsumersAction) (i : ℕ)
    (r : ConsumerName) (m : Message) (pc : ConsumePc) : Prop where
  place : (∃ tag, pc.failing = some (tag, m)) ∨ ∃ outcome, pc = .done m outcome
  count : if pc.owes then ∀ q, (consumersSystem u).count (adds i q) v as = 0
    else HandledOnce u v as i r

/-- The handling of a failure goes on, or is over. -/
theorem place_of_step {s s' : ConsumersState} {c : ConsumeChoice} {r : ConsumerName}
    {pc pc' : ConsumePc} {m : Message} (h : ConsumeStep u s c r pc s' pc')
    (hplace : (∃ tag, pc.failing = some (tag, m)) ∨ ∃ outcome, pc = .done m outcome) :
    (∃ tag, pc.failing = some (tag, m)) ∧ (pc.owes = false → pc'.owes = false) ∧
      ((∃ tag, pc'.failing = some (tag, m)) ∨ ∃ outcome, pc' = .done m outcome) := by
  rcases hplace with ⟨tag, hfailing⟩ | ⟨outcome, rfl⟩
  · refine ⟨⟨tag, hfailing⟩, ?_⟩
    cases h with
    | lost hcrash hopen =>
      cases pc with
      | failed | unpublished | replaced =>
        cases hfailing
        cases hopen
        exact ⟨fun _ => rfl, Or.inr ⟨_, rfl⟩⟩
      | _ => cases hfailing
    | unpublished tag m' error hfails hqs =>
      cases hfailing
      exact ⟨nofun, Or.inl ⟨_, rfl⟩⟩
    | published tag m' error hfails hqs =>
      cases hfailing
      exact ⟨nofun, Or.inl ⟨_, rfl⟩⟩
    | released tag m' =>
      cases hfailing
      exact ⟨fun _ => rfl, Or.inr ⟨_, rfl⟩⟩
    | nacked tag m' =>
      cases hfailing
      exact ⟨nofun, Or.inr ⟨_, rfl⟩⟩
    | _ => cases hfailing
  · cases h with
    | lost hcrash hopen => cases hopen

section Handling

variable {v t t' : ConsumersWorld} {bs : List ConsumersAction} {i : ℕ} {r : ConsumerName}
  {m : Message} {pc pc' : ConsumePc}

/-- A step that puts no message of the call anywhere leaves its handling where it is. -/
theorem Handling.other {a : ConsumersAction} (h : Handling u v bs i r m pc)
    (hrun : (consumersSystem u).exec v bs = some t)
    (hstep : (consumersSystem u).step t a = some t') (hadds : ∀ q, adds i q t a t' = false) :
    Handling u v (bs ++ [a]) i r m pc := by
  refine ⟨h.place, ?_⟩
  simp only [HandledOnce, Sys.count_concat hrun hstep, hadds, Bool.false_eq_true, if_false,
    Nat.add_zero]
  exact h.count

/-- A step of the call brings back the copy it owes, or none. -/
theorem Handling.own {c : ConsumeChoice} (h : Handling u v bs i r m pc)
    (hrun : (consumersSystem u).exec v bs = some t)
    (hstep : (consumersSystem u).step t (.advance i c) = some t')
    (hmoved : ConsumeStep u t.shared c r pc t'.shared pc')
    (hqueues : if pc.owes && !pc'.owes then BringsBack t t' r m
      else ∀ q, t'.shared.broker.queues q = t.shared.broker.queues q) :
    Handling u v (bs ++ [.advance i c]) i r m pc' := by
  obtain ⟨-, hstays, hplace'⟩ := place_of_step hmoved h.place
  have hcount := h.count
  refine ⟨hplace', ?_⟩
  simp only [HandledOnce, Sys.count_concat hrun hstep]
  cases howes : pc.owes with
  | false =>
    rw [howes, Bool.false_and, if_neg Bool.false_ne_true] at hqueues
    rw [howes, if_neg Bool.false_ne_true] at hcount
    rw [hstays howes, if_neg Bool.false_ne_true]
    obtain ⟨q₀, hq₀, hcount⟩ := hcount
    refine ⟨q₀, hq₀, fun q => ?_⟩
    rw [hcount q]
    simp [adds, hqueues]
  | true =>
    rw [howes, if_pos rfl] at hcount
    cases howes' : pc'.owes with
    | true =>
      rw [howes, howes', Bool.not_true, Bool.and_false, if_neg Bool.false_ne_true] at hqueues
      rw [if_pos rfl]
      simpa [adds, hqueues] using hcount
    | false =>
      rw [howes, howes', Bool.not_false, Bool.and_self, if_pos rfl] at hqueues
      rw [if_neg Bool.false_ne_true]
      obtain ⟨q₀, m', hm', hqueues⟩ := hqueues
      refine ⟨q₀, hm'.imp And.left And.left, fun q => ?_⟩
      rw [hcount q, Nat.zero_add]
      by_cases hq : q = q₀
      · simp [adds, hqueues, hq]
      · simp [adds, hqueues, hq]

end Handling

/-- Publications are numbered upwards. -/
theorem publication_number_of_step {w w' : ConsumersWorld} {a : ConsumersAction}
    (h : Calls.step (consumeMachine u) (consumersEnvironment u) w a = some w') :
    w.shared.published ≤ w'.shared.published ∧
      ((∃ content key retryCount, a = .environment (.publish content key retryCount)) →
        w.shared.published < w'.shared.published) := by
  rcases Calls.step_cases h with ⟨e, d, rfl, henv, rfl⟩ | ⟨j, r, rfl, -, rfl⟩ |
    ⟨j, c, r, pc, d, pc', rfl, -, hadv, rfl⟩
  · rcases environment_cases henv with ⟨content, key, retryCount, rfl, rfl⟩ |
      ⟨c, n, m, rfl, -, rfl⟩ | ⟨a, effects, rfl, -, rfl⟩
    · exact ⟨Nat.le_succ _, fun _ => Nat.lt_succ_self _⟩
    · exact ⟨Nat.le_refl _, nofun⟩
    · exact ⟨Nat.le_refl _, nofun⟩
  · exact ⟨Nat.le_refl _, nofun⟩
  · refine ⟨?_, nofun⟩
    have hmoved := consumeStep_of_machine hadv
    cases hmoved with
    | _ => exact Nat.le_refl _

/-- The publications of the messages there are have been made. -/
theorem origin_lt {w : ConsumersWorld} (hw : (consumersSystem u).Reachable w) :
    w.shared.broker.All fun _ m => m.origin < w.shared.published := by
  refine hw.invariant
    (I := fun w => w.shared.broker.All fun _ m => m.origin < w.shared.published) ?_ ?_
  · rintro w ⟨⟨hbroker, -⟩, -⟩
    rw [hbroker]
    exact .empty
  intro w a w' hw ih h
  obtain ⟨hle, hlt⟩ := publication_number_of_step h
  have hold : w.shared.broker.All fun _ m => m.origin < w'.shared.published :=
    ih.mono fun _ m hm => Nat.lt_of_lt_of_le hm hle
  refine all_of_step h hold ?_ ?_ ?_
  · exact fun content key retryCount ha q _ => hlt ⟨content, key, retryCount, ha⟩
  · exact fun c m hm q _ => hm
  · -- a replacement has the origin of the message, which has been delivered
    intro i c r tag m error _ hcall q _
    have hdelivered := (unacked_of_opened hw hcall rfl).1
    have horigin := hold.deliveries (.main r) m (List.mem_of_getElem? hdelivered)
    rw [← (replacement_copyOf r m error).1] at horigin
    exact horigin

/-! ### The one live copy -/

theorem mem_copies_iff {b : Broker Queue Message} {n : ℕ} {q : Queue} {m : Message} :
    m ∈ copies b n q ↔ m ∈ b.queues q ∧ m.origin = n := by
  unfold copies
  rw [Broker.mem_select_iff, decide_eq_true_eq]

theorem copies_enqueue {b : Broker Queue Message} {n : ℕ} {q : Queue} {qs : List Queue}
    {m : Message} : copies (b.enqueue qs m) n q =
      if q ∈ qs ∧ m.origin = n then copies b n q ++ [m] else copies b n q := by
  unfold copies
  rw [Broker.select_enqueue]
  simp only [decide_eq_true_eq]

theorem copies_remove_of_not {b : Broker Queue Message} {n k : ℕ} {q q' : Queue} {m : Message}
    (hm : (b.queues q)[k]? = some m) (hnot : ¬(q' = q ∧ m.origin = n)) :
    copies (b.remove q k) n q' = copies b n q' := by
  unfold copies
  refine Broker.select_remove_of_not hm ?_
  simpa using hnot

/-- Taking out the only copy leaves none. -/
theorem copies_remove_of_length {b : Broker Queue Message} {n k : ℕ} {q : Queue} {m : Message}
    (hm : (b.queues q)[k]? = some m) (horigin : m.origin = n)
    (hone : (copies b n q).length ≤ 1) : copies (b.remove q k) n q = [] := by
  have hlength : ((b.remove q k).select (fun m => m.origin = n) q).length +
      (if q = q ∧ decide (m.origin = n) = true then 1 else 0) =
        (b.select (fun m => m.origin = n) q).length := Broker.length_select_remove hm
  rw [if_pos ⟨rfl, decide_eq_true horigin⟩] at hlength
  unfold copies at hone ⊢
  exact List.length_eq_zero_iff.mp (by omega)

/-- The copies of publication `n` for consumer `c`: there is at most one in its
queues, or one in the hands of a call; its retry count says how often the
publication has been delivered. -/
structure Chain (w : ConsumersWorld) (c : ConsumerName) (n : ℕ) : Prop where
  one : (copies w.shared.broker n (.main c)).length + (copies w.shared.broker n (.retry c)).length +
    (copies w.shared.broker n (.dead c)).length ≤ 1
  waiting : ∀ m, m ∈ copies w.shared.broker n (.main c) ∨ m ∈ copies w.shared.broker n (.retry c) →
    invocations w.shared.broker c n = previousAttempts m ∧ previousAttempts m ≤ maxRetries
  held : ∀ i pc m, w.calls i = some ⟨c, pc⟩ → pc.holds = some m → m.origin = n →
    (∀ q, q.owner = c → copies w.shared.broker n q = []) ∧
      invocations w.shared.broker c n = previousAttempts m + 1 ∧ previousAttempts m ≤ maxRetries
  alone : ∀ i j pc pc' m m', w.calls i = some ⟨c, pc⟩ → w.calls j = some ⟨c, pc'⟩ →
    pc.holds = some m → pc'.holds = some m' → m.origin = n → m'.origin = n → i = j
  bound : invocations w.shared.broker c n ≤ 1 + maxRetries

/-- A step that leaves the copies, the deliveries and the holders alone keeps the
chain. -/
theorem Chain.congr {w w' : ConsumersWorld} {c : ConsumerName} {n : ℕ} (h : Chain w c n)
    (hcopies : ∀ q, q.owner = c → copies w'.shared.broker n q = copies w.shared.broker n q)
    (hinvocations : invocations w'.shared.broker c n = invocations w.shared.broker c n)
    (hholders : ∀ i pc m, w'.calls i = some ⟨c, pc⟩ → pc.holds = some m → m.origin = n →
      ∃ pc₀, w.calls i = some ⟨c, pc₀⟩ ∧ pc₀.holds = some m) : Chain w' c n := by
  have hmain := hcopies (.main c) rfl
  have hretry := hcopies (.retry c) rfl
  have hdead := hcopies (.dead c) rfl
  refine ⟨?_, fun m hm => ?_, fun i pc m hcall hholds horigin => ?_,
    fun i j pc pc' m m' hi hj hm hm' horigin horigin' => ?_, ?_⟩
  · rw [hmain, hretry, hdead]
    exact h.one
  · rw [hmain, hretry] at hm
    rw [hinvocations]
    exact h.waiting m hm
  · obtain ⟨pc₀, hcall₀, hholds₀⟩ := hholders i pc m hcall hholds horigin
    obtain ⟨hnone, hcount⟩ := h.held i pc₀ m hcall₀ hholds₀ horigin
    refine ⟨fun q hq => ?_, ?_⟩
    · rw [hcopies q hq]
      exact hnone q hq
    · rw [hinvocations]
      exact hcount
  · obtain ⟨pc₀, hi₀, hm₀⟩ := hholders i pc m hi hm horigin
    obtain ⟨pc₁, hj₁, hm₁⟩ := hholders j pc' m' hj hm' horigin'
    exact h.alone i j pc₀ pc₁ m m' hi₀ hj₁ hm₀ hm₁ horigin horigin'
  · rw [hinvocations]
    exact h.bound

namespace Chain

variable {w : ConsumersWorld} {c : ConsumerName} {n : ℕ}

/-- With its copy in a queue, and none held, a publication has a chain. -/
theorem of_copy (q₀ : Queue) (m : Message)
    (hcopies : ∀ q, q.owner = c → copies w.shared.broker n q = if q = q₀ then [m] else [])
    (hwaiting : q₀ ≠ .dead c →
      invocations w.shared.broker c n = previousAttempts m ∧ previousAttempts m ≤ maxRetries)
    (hfree : ∀ i pc m', w.calls i = some ⟨c, pc⟩ → pc.holds = some m' → m'.origin ≠ n)
    (hbound : invocations w.shared.broker c n ≤ 1 + maxRetries) : Chain w c n := by
  have hmain := hcopies (.main c) rfl
  have hretry := hcopies (.retry c) rfl
  have hdead := hcopies (.dead c) rfl
  refine ⟨?_, fun m' hm' => ?_, fun i pc m' hi hholds horigin => ?_,
    fun i j pc pc' m₁ m₂ hi hj hm₁ hm₂ horigin₁ horigin₂ => ?_, hbound⟩
  · rw [hmain, hretry, hdead]
    by_cases hq : q₀.owner = c
    · subst hq
      cases q₀ <;> simp [Queue.owner]
    · have hne : ∀ q, q.owner = c → q ≠ q₀ := fun q hq' heq => hq (heq ▸ hq')
      simp [hne (.main c) rfl, hne (.retry c) rfl, hne (.dead c) rfl]
  · rw [hmain, hretry] at hm'
    rcases hm' with hm' | hm'
    · split at hm'
      · next hq =>
        cases List.mem_singleton.mp hm'
        exact hwaiting (hq ▸ nofun)
      · cases hm'
    · split at hm'
      · next hq =>
        cases List.mem_singleton.mp hm'
        exact hwaiting (hq ▸ nofun)
      · cases hm'
  · exact absurd horigin (hfree i pc m' hi hholds)
  · exact absurd horigin₁ (hfree i pc m₁ hi hm₁)

variable (h : Chain w c n)

include h

/-- There is no copy beside a copy. -/
theorem copies_eq_nil {q q' : Queue} {m : Message} (hq : q.owner = c) (hq' : q'.owner = c)
    (hm : m ∈ copies w.shared.broker n q) (hne : q' ≠ q) :
    copies w.shared.broker n q' = [] := by
  have hpos := List.length_pos_of_mem hm
  have hone := h.one
  subst hq
  refine List.length_eq_zero_iff.mp ?_
  cases q <;> cases q' <;> simp only [Queue.owner] at hq' hone <;> subst hq' <;>
    first | exact absurd rfl hne | omega

theorem length_copies_le {q : Queue} (hq : q.owner = c) :
    (copies w.shared.broker n q).length ≤ 1 := by
  have hone := h.one
  subst hq
  cases q <;> simp only [Queue.owner] at hone <;> omega

/-- Taking the copy out of its queue leaves none. -/
theorem copies_remove_eq_nil {q : Queue} {k : ℕ} {m : Message} (hq : q.owner = c)
    (hm : (w.shared.broker.queues q)[k]? = some m) (horigin : m.origin = n) {q' : Queue}
    (hq' : q'.owner = c) : copies (w.shared.broker.remove q k) n q' = [] := by
  by_cases hne : q' = q
  · subst hne
    exact copies_remove_of_length hm horigin (h.length_copies_le hq)
  · rw [copies_remove_of_not hm fun hboth => hne hboth.1]
    exact h.copies_eq_nil hq hq' (mem_copies_iff.mpr ⟨List.mem_of_getElem? hm, horigin⟩) hne

/-- While the copy is in a queue, no call has it. -/
theorem not_held {q : Queue} {m : Message} (hq : q.owner = c)
    (hm : m ∈ copies w.shared.broker n q) {i : ℕ} {pc : ConsumePc} {m' : Message}
    (hcall : w.calls i = some ⟨c, pc⟩) (hholds : pc.holds = some m') : m'.origin ≠ n := by
  intro horigin
  rw [(h.held i pc m' hcall hholds horigin).1 q hq] at hm
  cases hm

/-- A publication starts a chain. -/
theorem publish (hw : (consumersSystem u).Reachable w) (content : Option Json) (key : String) :
    Chain { w with shared := { w.shared with
      broker := w.shared.broker.enqueue (route .events key) (w.shared.publication content key none)
      published := w.shared.published + 1 } } c n := by
  have horigins := origin_lt hw
  have hroute : ∀ q, q.owner = c → (q ∈ route .events key ↔ q = .main c ∧ c.bound key = true) := by
    intro q hq
    rw [mem_route_events_iff]
    constructor
    · rintro ⟨c', rfl, hbound⟩
      cases hq
      exact ⟨rfl, hbound⟩
    · rintro ⟨rfl, hbound⟩
      exact ⟨c, rfl, hbound⟩
  by_cases hnew : w.shared.published = n ∧ c.bound key = true
  · obtain ⟨hn, hbound⟩ := hnew
    -- nothing of this publication was there before
    have hzero : invocations w.shared.broker c n = 0 := by
      refine List.countP_eq_zero.mpr fun d hd => ?_
      have hlt := horigins.deliveries d.1 d.2 hd
      simp only [Bool.and_eq_true, decide_eq_true_eq, not_and]
      omega
    refine of_copy (.main c) (w.shared.publication content key none) (fun q hq => ?_)
      (fun _ => ⟨hzero, Nat.zero_le _⟩) (fun i pc m hcall hholds horigin => ?_)
      h.bound
    · have hnone : copies w.shared.broker n q = [] := by
        refine List.eq_nil_iff_forall_not_mem.mpr fun m hm => ?_
        obtain ⟨hmem, horigin⟩ := mem_copies_iff.mp hm
        exact absurd (horigins.queues q m hmem) (by omega)
      rw [copies_enqueue, hnone]
      simp only [hroute q hq, hbound, and_true, List.nil_append]
      exact if_congr (and_iff_left hn) rfl rfl
    · obtain ⟨tag, hopen⟩ := ConsumePc.opened_of_holds hholds
      have hdelivered := (unacked_of_opened hw hcall hopen).1
      have hlt := horigins.deliveries (.main c) m (List.mem_of_getElem? hdelivered)
      omega
  · refine h.congr (fun q hq => ?_) rfl fun i pc m hcall hholds _ => ⟨pc, hcall, hholds⟩
    rw [copies_enqueue, if_neg]
    rintro ⟨hq', horigin⟩
    exact hnew ⟨horigin, ((hroute q hq).mp hq').2⟩

/-- An expired copy goes on in the main queue. -/
theorem expire (hw : (isolatedSystem u).Reachable w) {c' : ConsumerName} {k : ℕ} {m : Message}
    (hm : (w.shared.broker.queues (.retry c'))[k]? = some m) :
    Chain { w with shared := { w.shared with
      broker := (w.shared.broker.remove (.retry c') k).enqueue (route .events m.routingKey)
        { m with expiration := none } } } c n := by
  have hmem := List.mem_of_getElem? hm
  have hbound : c'.bound m.routingKey = true :=
    (routed_of_reachable hw.of_restrict).queues _ _ hmem
  have hroute : ∀ q, q ∈ route .events m.routingKey ↔ q = .main c' :=
    fun q => mem_route_sole (x := .events) nofun hbound (retry_sole hw hmem)
  by_cases htouched : c' = c ∧ m.origin = n
  · obtain ⟨rfl, horigin⟩ := htouched
    have hcopy : m ∈ copies w.shared.broker n (.retry c') := mem_copies_iff.mpr ⟨hmem, horigin⟩
    refine of_copy (.main c') { m with expiration := none } (fun q hq => ?_)
      (fun _ => h.waiting m (Or.inr hcopy))
      (fun i pc m' hcall hholds => h.not_held (q := .retry c') rfl hcopy hcall hholds) h.bound
    rw [copies_enqueue, h.copies_remove_eq_nil (q := .retry c') rfl hm horigin hq]
    simp only [hroute, horigin, and_true, List.nil_append]
  · refine h.congr (fun q hq => ?_) rfl fun i pc m hcall hholds _ => ⟨pc, hcall, hholds⟩
    rw [copies_enqueue, copies_remove_of_not hm, if_neg]
    · rintro ⟨hq', horigin⟩
      rw [(hroute q).mp hq'] at hq
      exact htouched ⟨hq, horigin⟩
    · rintro ⟨hq', horigin⟩
      rw [hq'] at hq
      exact htouched ⟨hq, horigin⟩

/-- A delivery puts the copy into the hands of a call. -/
theorem deliver {j k : ℕ} {r : ConsumerName} {m : Message}
    (hm : (w.shared.broker.queues (.main r))[k]? = some m) :
    Chain (w.move j r { w.shared with broker := w.shared.broker.deliver (.main r) k m }
      (.delivered w.shared.broker.deliveries.length m)) c n := by
  have hinvocations : invocations (w.shared.broker.deliver (.main r) k m) c n =
      invocations w.shared.broker c n + if r = c ∧ m.origin = n then 1 else 0 := by
    simp [invocations, Broker.deliver, List.countP_append, List.countP_singleton]
  -- a holder is the call that moves, with the message delivered, or was one before
  have hholders : ∀ i pc m', (w.move j r { w.shared with
      broker := w.shared.broker.deliver (.main r) k m }
      (.delivered w.shared.broker.deliveries.length m)).calls i = some ⟨c, pc⟩ →
        pc.holds = some m' → (i = j ∧ r = c ∧ m' = m) ∨ w.calls i = some ⟨c, pc⟩ := by
    intro i pc m' hi hholds
    rcases Calls.move_calls_cases hi with ⟨hij, hr, rfl⟩ | ⟨-, hold⟩
    · cases hholds
      exact Or.inl ⟨hij, hr, rfl⟩
    · exact Or.inr hold
  by_cases htouched : r = c ∧ m.origin = n
  · obtain ⟨rfl, horigin⟩ := htouched
    have hcopy : m ∈ copies w.shared.broker n (.main r) :=
      mem_copies_iff.mpr ⟨List.mem_of_getElem? hm, horigin⟩
    obtain ⟨hcount, hle⟩ := h.waiting m (Or.inl hcopy)
    rw [if_pos ⟨rfl, horigin⟩] at hinvocations
    have hnone : ∀ q, q.owner = r →
        copies (w.shared.broker.deliver (.main r) k m) n q = [] :=
      fun q hq => h.copies_remove_eq_nil (q := .main r) rfl hm horigin hq
    have hmover : ∀ i pc m', (w.move j r { w.shared with
        broker := w.shared.broker.deliver (.main r) k m }
        (.delivered w.shared.broker.deliveries.length m)).calls i = some ⟨r, pc⟩ →
          pc.holds = some m' → m'.origin = n → i = j ∧ m' = m := by
      intro i pc m' hi hholds horigin'
      rcases hholders i pc m' hi hholds with ⟨hij, -, hm'⟩ | hold
      · exact ⟨hij, hm'⟩
      · exact absurd horigin' (h.not_held (q := .main r) rfl hcopy hold hholds)
    refine ⟨?_, fun m' hm' => ?_, fun i pc m' hi hholds horigin' => ?_,
      fun i i' pc pc' m₁ m₂ hi hi' hm₁ hm₂ horigin₁ horigin₂ => ?_, ?_⟩
    · simp [Calls.State.move, hnone (.main r) rfl, hnone (.retry r) rfl, hnone (.dead r) rfl]
    · simp [Calls.State.move, hnone (.main r) rfl, hnone (.retry r) rfl] at hm'
    · obtain ⟨-, rfl⟩ := hmover i pc m' hi hholds horigin'
      exact ⟨hnone, hinvocations.trans (by omega), hle⟩
    · rw [(hmover i pc m₁ hi hm₁ horigin₁).1, (hmover i' pc' m₂ hi' hm₂ horigin₂).1]
    · refine hinvocations.le.trans ?_
      omega
  · rw [if_neg htouched, Nat.add_zero] at hinvocations
    refine h.congr (fun q hq => ?_) hinvocations fun i pc m' hi hholds horigin' => ?_
    · refine copies_remove_of_not hm ?_
      rintro ⟨rfl, horigin⟩
      exact htouched ⟨hq, horigin⟩
    · rcases hholders i pc m' hi hholds with ⟨-, hr, rfl⟩ | hold
      · exact absurd ⟨hr, horigin'⟩ htouched
      · exact ⟨pc, hold, hholds⟩

end Chain

/-- Call `i` gets the first message of the consumer's queue, its transaction fails,
and the message is published for a retry. -/
def failedDelivery (r : ConsumerName) (i : ℕ) : List ConsumersAction :=
  [.request i r, .advance i (.sample 0), .advance i (.sample i),
    .environment (.effects (.advance i { EffectChoice.sample 0 with fails := true })),
    .advance i (.sample 0), .advance i (.sample 0), .advance i (.sample 0)]

/-- A retry of the consumer expires. -/
def expiry (c : ConsumerName) : ConsumersAction := .environment (.expire c 0)

end ScaleForge
