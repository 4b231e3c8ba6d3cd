import ScaleForge.Effects
import ScaleForge.Lib.Broker

/-!
# The RabbitMQ consumers

`RabbitConsumersService.consume` and `retryOrDeadLetter`, await by await, on the
broker, the handlers' tables and the BullMQ queue.  A call is the handling of one
delivery by some worker; any number of them run at once, for both consumers.

What surrounds a call decides everything the code has no hand in: which message
of the queue is delivered, whether the handler's statements, `queue.add` and the
publishes fail, whether what failed has taken effect all the same, and when a
worker dies.  A worker that dies leaves its deliveries to be requeued; a handler
transaction it had under way may still commit.

Of the broker it is assumed that a confirmed publish is stored in every queue
with a matching binding, that the deliveries of a lost worker are requeued, and
that an expired message is republished to the dead-letter exchange of its queue
under its own routing key, without its expiration.

## Main definitions

* `Message` — a message, with the publication it is a copy of.
* `replacement` — what `retryOrDeadLetter` publishes.
* `ConsumePc`, `advanceConsume` — `consume`, await by await.
* `consumersSystem` — any number of deliveries to the two consumers.

## Main results

* `ConsumeStep`, `consumeStep_of_machine` — the ways a step of a call can go.
* `environment_cases` — the ways the surroundings can move.
-/

namespace ScaleForge

/-! ### Messages -/

/-- A message of the broker.  `origin` numbers the publication a message is a copy
of; it is no part of a message, and nothing reads it. -/
structure Message where
  origin : ℕ
  /-- What `JSON.parse` makes of the content, or `none` where it throws. -/
  content : Option Json
  routingKey : String
  /-- The header `x-retry-count`. -/
  retryCount : Option ℕ
  /-- The header `x-final-error`. -/
  finalError : Option String
  /-- The time to live, in milliseconds. -/
  expiration : Option ℕ

/-- The messages are copies of one publication. -/
def Message.CopyOf (m' m : Message) : Prop := m'.origin = m.origin ∧ m'.content = m.content

theorem Message.CopyOf.refl (m : Message) : m.CopyOf m := ⟨rfl, rfl⟩

theorem Message.CopyOf.trans {m₁ m₂ m₃ : Message} (h : m₁.CopyOf m₂) (h' : m₂.CopyOf m₃) :
    m₁.CopyOf m₃ :=
  ⟨h.1.trans h'.1, h.2.trans h'.2⟩

namespace RabbitConsumersService

/-- `MAX_RETRIES`. -/
def maxRetries : ℕ := 3

/-- `Number(message.properties.headers?.['x-retry-count'] ?? 0)`. -/
def previousAttempts (m : Message) : ℕ := m.retryCount.getD 0

def nextAttempt (m : Message) : ℕ := previousAttempts m + 1

/-- The time a retry waits. -/
def expirationFor (attempt : ℕ) : ℕ := min 30000 (1000 * 2 ^ (attempt - 1))

/-- The text of `x-final-error`. -/
def finalErrorText : Thrown → String
  | .error message => String.ofList (message.toList.take 500)
  | .other => "Unknown error"

/-- The message for the retry exchange. -/
def retryMessage (m : Message) : Message :=
  { m with
    retryCount := some (nextAttempt m)
    expiration := some (expirationFor (nextAttempt m)) }

/-- The message for the dead-letter exchange. -/
def deadMessage (consumer : ConsumerName) (m : Message) (error : Thrown) : Message :=
  { m with
    routingKey := consumer.text ++ "." ++ m.routingKey
    retryCount := some (nextAttempt m)
    finalError := some (finalErrorText error) }

/-- What `retryOrDeadLetter` publishes, and where. -/
def replacement (consumer : ConsumerName) (m : Message) (error : Thrown) : Exchange × Message :=
  if nextAttempt m ≤ maxRetries then (.retry, retryMessage m)
  else (.deadLetter, deadMessage consumer m error)

/-- What is published is a copy. -/
theorem replacement_copyOf (consumer : ConsumerName) (m : Message) (error : Thrown) :
    (replacement consumer m error).2.CopyOf m := by
  unfold replacement
  split <;> exact ⟨rfl, rfl⟩

/-- The queues a publish of `retryOrDeadLetter` is stored in. -/
def replacementQueues (consumer : ConsumerName) (m : Message) (error : Thrown) : List Queue :=
  route (replacement consumer m error).1 (replacement consumer m error).2.routingKey

/-- **The replacement reaches a queue of the consumer that failed**, when the
message came under a key the consumer is bound to. -/
theorem mem_replacementQueues {consumer : ConsumerName} {m : Message} {error : Thrown}
    (h : consumer.bound m.routingKey = true) :
    Queue.retry consumer ∈ replacementQueues consumer m error ∨
      Queue.dead consumer ∈ replacementQueues consumer m error := by
  unfold replacementQueues replacement
  split
  · exact Or.inl (mem_route_retry_iff.mpr ⟨consumer, rfl, h⟩)
  · exact Or.inr (mem_route_deadLetter_iff.mpr rfl)

/-! ### Reading the event -/

/-- `event.id && event.type && event.payload`. -/
def wellFormed (event : Json) : Bool :=
  (event.get "id").any Json.truthy && (event.get "type").any Json.truthy &&
    (event.get "payload").any Json.truthy

/-- The event of a message, or what is thrown instead; `thrown` is the error of
`JSON.parse`, or of reading a property of `null`. -/
def readEvent (m : Message) (thrown : Thrown) : Except Thrown Json :=
  match m.content with
  | none => .error thrown
  | some .null => .error thrown
  | some event =>
    if wellFormed event then .ok event else .error (.error "Malformed domain event")

theorem readEvent_eq_ok {m : Message} {thrown : Thrown} {event : Json}
    (h : readEvent m thrown = .ok event) : m.content = some event ∧ wellFormed event = true := by
  unfold readEvent at h
  split at h
  · cases h
  · cases h
  · next hcontent =>
    split at h
    · next hwell =>
      cases h
      exact ⟨hcontent, hwell⟩
    · cases h

/-- `NotificationEventHandler.handle` ignores every other type. -/
def isOrderCreated (event : Json) : Bool := Json.string? (event.get "type") = some "OrderCreated"

/-- The repository call of a consumer's handler, or `none` where the handler
answers `null` at once. -/
def handle (consumer : ConsumerName) (event : Json) : Option EffectCall :=
  match consumer with
  | .audit => some (.processEvent event)
  | .notification => if isOrderCreated event then some (.processOrderCreated event) else none

theorem handle_eq_some {consumer : ConsumerName} {event : Json} {call : EffectCall}
    (h : handle consumer event = some call) : call.consumer = consumer ∧ call.event = event := by
  unfold handle at h
  split at h
  · cases h
    exact ⟨rfl, rfl⟩
  · split at h
    · cases h
      exact ⟨rfl, rfl⟩
    · cases h

theorem handle_eq_none {consumer : ConsumerName} {event : Json} (h : handle consumer event = none) :
    consumer = .notification ∧ isOrderCreated event = false := by
  unfold handle at h
  split at h
  · cases h
  · split at h
    · cases h
    · next hnot => exact ⟨rfl, Bool.eq_false_iff.mpr hnot⟩

end RabbitConsumersService

/-! ### The calls -/

/-- How the handling of a delivery ended. -/
inductive Outcome
  /-- The handler succeeded, and the delivery was acknowledged. -/
  | handled
  /-- A retry or a dead letter was stored, and the delivery was acknowledged. -/
  | replaced
  /-- The publish failed, and the delivery was rejected. -/
  | requeued
  /-- The worker died. -/
  | lost
  deriving DecidableEq, Repr

/-- How far the handling of a delivery has come. -/
inductive ConsumePc
  /-- Nothing has been delivered. -/
  | waiting
  /-- The callback has the message. -/
  | delivered (tag : ℕ) (m : Message)
  /-- Awaiting the handler, whose call has the number `call`. -/
  | handling (tag : ℕ) (m : Message) (call : ℕ)
  /-- Awaiting `notificationQueue.enqueue`. -/
  | enqueueing (tag : ℕ) (m : Message) (deliveryId : Uuid)
  /-- The handler has succeeded; `ack` is next. -/
  | succeeded (tag : ℕ) (m : Message)
  /-- Something has thrown; `retryOrDeadLetter` publishes next. -/
  | failed (tag : ℕ) (m : Message) (error : Thrown)
  /-- The publish is confirmed; `ack` is next. -/
  | replaced (tag : ℕ) (m : Message)
  /-- The publish has failed; `nack` is next. -/
  | unpublished (tag : ℕ) (m : Message)
  /-- The handling is over. -/
  | done (m : Message) (outcome : Outcome)

/-- The open delivery of a call. -/
def ConsumePc.opened : ConsumePc → Option (ℕ × Message)
  | delivered tag m | handling tag m _ | enqueueing tag m _ | succeeded tag m | failed tag m _
  | replaced tag m | unpublished tag m => some (tag, m)
  | waiting | done _ _ => none

/-- What the surroundings decide in a step. -/
structure ConsumeChoice where
  /-- The worker dies. -/
  crashes : Bool
  /-- The position of the message that is delivered, or the number of the handler
  call that is started. -/
  index : ℕ
  /-- What is awaited fails. -/
  fails : Bool
  /-- The queues that have stored a publish that failed. -/
  stored : List Queue
  /-- The job of an `add` that failed is there all the same. -/
  added : Bool
  /-- The error, where it is not one of the program's own. -/
  thrown : Thrown

/-- The queues that store what a call publishes. -/
def ConsumeChoice.stores (c : ConsumeChoice) (qs : List Queue) : List Queue :=
  if c.crashes then [] else if c.fails then qs.filter (· ∈ c.stored) else qs

theorem ConsumeChoice.stores_subset (c : ConsumeChoice) (qs : List Queue) : c.stores qs ⊆ qs := by
  unfold stores
  split
  · exact List.nil_subset _
  · split
    · exact List.filter_subset_self _
    · exact List.Subset.refl _

/-- The broker, the handlers and the BullMQ queue. -/
structure ConsumersState where
  broker : Broker Queue Message
  /-- The number of publications so far. -/
  published : ℕ
  effects : EffectWorld
  /-- The delivery ids `queue.add` has accepted. -/
  jobs : List Uuid

section Machine

open RabbitConsumersService

variable (u : UuidSyntax)

/-- The next step of a call. -/
def advanceConsume (s : ConsumersState) (c : ConsumeChoice) (r : ConsumerName) (pc : ConsumePc) :
    Option (ConsumersState × ConsumePc) :=
  if c.crashes then
    match pc.opened with
    | some (tag, m) => some ({ s with broker := s.broker.requeue tag .lost }, .done m .lost)
    | none => none
  else
    match pc with
    | .waiting =>
      match (s.broker.queues (.main r))[c.index]? with
      | none => none
      | some m => some ({ s with broker := s.broker.deliver (.main r) c.index m },
          .delivered s.broker.deliveries.length m)
    | .delivered tag m =>
      match readEvent m c.thrown with
      | .error thrown => some (s, .failed tag m thrown)
      | .ok event =>
        match handle r event with
        | none => some (s, .succeeded tag m)
        | some call =>
          match (effectSystem u).step s.effects (.request c.index call) with
          | none => none
          | some effects => some ({ s with effects := effects }, .handling tag m c.index)
    | .handling tag m call =>
      match s.effects.calls call with
      | some ⟨_, .returned (.audited _)⟩ => some (s, .succeeded tag m)
      | some ⟨_, .returned (.delivery none)⟩ => some (s, .succeeded tag m)
      | some ⟨_, .returned (.delivery (some id))⟩ => some (s, .enqueueing tag m id)
      | some ⟨_, .thrown⟩ => some (s, .failed tag m c.thrown)
      | _ => none
    | .enqueueing tag m id =>
      if c.fails then
        some ({ s with jobs := if c.added then id :: s.jobs else s.jobs }, .failed tag m c.thrown)
      else some ({ s with jobs := id :: s.jobs }, .succeeded tag m)
    | .succeeded tag m => some ({ s with broker := s.broker.close tag .ack }, .done m .handled)
    | .failed tag m error =>
      if c.fails then
        some ({ s with
            broker := s.broker.enqueue ((replacementQueues r m error).filter (· ∈ c.stored))
              (replacement r m error).2 },
          .unpublished tag m)
      else
        some ({ s with
            broker := s.broker.enqueue (replacementQueues r m error) (replacement r m error).2 },
          .replaced tag m)
    | .replaced tag m => some ({ s with broker := s.broker.close tag .ack }, .done m .replaced)
    | .unpublished tag m =>
      some ({ s with broker := s.broker.requeue tag .nack }, .done m .requeued)
    | .done _ _ => none

/-- The machine of the calls. -/
def consumeMachine : Calls.Machine ConsumersState ConsumeChoice ConsumerName ConsumePc where
  start := .waiting
  advance := advanceConsume u

/-- What happens around the calls. -/
inductive ConsumersEnvironment
  /-- Somebody publishes to the event exchange. -/
  | publish (content : Option Json) (routingKey : String) (retryCount : Option ℕ)
  /-- A message of a retry queue expires. -/
  | expire (c : ConsumerName) (n : ℕ)
  /-- A handler call goes on, or something else writes its tables. -/
  | effects (a : EffectAction)

/-- The message of a new publication. -/
def ConsumersState.publication (s : ConsumersState) (content : Option Json) (routingKey : String)
    (retryCount : Option ℕ) : Message :=
  ⟨s.published, content, routingKey, retryCount, none, none⟩

/-- A step of the surroundings.  Handler calls are started by the consumers only. -/
def consumersEnvironment (s : ConsumersState) : ConsumersEnvironment → Option ConsumersState
  | .publish content routingKey retryCount => some { s with
      broker := s.broker.enqueue (route .events routingKey)
        (s.publication content routingKey retryCount)
      published := s.published + 1 }
  | .expire c n =>
    match (s.broker.queues (.retry c))[n]?, (Queue.retry c).deadLetterExchange with
    | some m, some x =>
      if m.expiration.isSome then
        some { s with
          broker := (s.broker.remove (.retry c) n).enqueue (route x m.routingKey)
            { m with expiration := none } }
      else none
    | _, _ => none
  | .effects a =>
    match a with
    | .request _ _ => none
    | a => ((effectSystem u).step s.effects a).map fun effects => { s with effects := effects }

/-- Nothing has been published, and the tables are empty. -/
def ConsumersState.Empty (s : ConsumersState) : Prop :=
  s.broker = Broker.empty ∧ s.published = 0 ∧ (effectSystem u).init s.effects ∧ s.jobs = []

/-- The deliveries that are being handled, on the broker and the tables. -/
abbrev ConsumersWorld := Calls.State ConsumersState ConsumerName ConsumePc

/-- A step of a delivery, or of what surrounds them. -/
abbrev ConsumersAction := Calls.Action ConsumersEnvironment ConsumeChoice ConsumerName

/-- **The system**: deliveries to the two consumers, in any interleaving. -/
abbrev consumersSystem : Transition.Sys ConsumersWorld ConsumersAction :=
  Calls.system (consumeMachine u) (consumersEnvironment u) (ConsumersState.Empty u)

end Machine

/-! ### Taking a step apart -/

open RabbitConsumersService

/-- The ways the next step of a call can go. -/
inductive ConsumeStep (u : UuidSyntax) (s : ConsumersState) (c : ConsumeChoice)
    (r : ConsumerName) : ConsumePc → ConsumersState → ConsumePc → Prop
  /-- The worker dies. -/
  | lost {pc : ConsumePc} {tag : ℕ} {m : Message} (hcrash : c.crashes = true)
      (hopen : pc.opened = some (tag, m)) :
      ConsumeStep u s c r pc { s with broker := s.broker.requeue tag .lost } (.done m .lost)
  /-- A message is delivered. -/
  | delivered {n : ℕ} {m : Message} (hm : (s.broker.queues (.main r))[n]? = some m) :
      ConsumeStep u s c r .waiting { s with broker := s.broker.deliver (.main r) n m }
        (.delivered s.broker.deliveries.length m)
  /-- The message holds no event. -/
  | malformed (tag : ℕ) (m : Message) (thrown : Thrown) :
      ConsumeStep u s c r (.delivered tag m) s (.failed tag m thrown)
  /-- The handler has nothing to do. -/
  | ignored (tag : ℕ) {m : Message} {event : Json} (hcontent : m.content = some event)
      (hhandle : handle r event = none) :
      ConsumeStep u s c r (.delivered tag m) s (.succeeded tag m)
  /-- The handler's transaction begins. -/
  | called (tag : ℕ) {m : Message} {event : Json} {call : EffectCall} {i : ℕ}
      {effects : EffectWorld} (hcontent : m.content = some event)
      (hhandle : handle r event = some call)
      (hstep : (effectSystem u).step s.effects (.request i call) = some effects) :
      ConsumeStep u s c r (.delivered tag m) { s with effects := effects } (.handling tag m i)
  /-- The handler's transaction has thrown. -/
  | threw (tag : ℕ) (m : Message) (i : ℕ) (thrown : Thrown) :
      ConsumeStep u s c r (.handling tag m i) s (.failed tag m thrown)
  /-- The handler has returned, and there is nothing to enqueue. -/
  | returned (tag : ℕ) (m : Message) {i : ℕ} {call : EffectCall} {result : EffectResult}
      (hcall : s.effects.calls i = some ⟨call, .returned result⟩)
      (hresult : ∀ id, result ≠ .delivery (some id)) :
      ConsumeStep u s c r (.handling tag m i) s (.succeeded tag m)
  /-- The handler has returned a delivery. -/
  | found (tag : ℕ) (m : Message) {i : ℕ} {call : EffectCall} {id : Uuid}
      (hcall : s.effects.calls i = some ⟨call, .returned (.delivery (some id))⟩) :
      ConsumeStep u s c r (.handling tag m i) s (.enqueueing tag m id)
  /-- The job is not added, or nobody learns that it is. -/
  | unqueued (tag : ℕ) (m : Message) (id : Uuid) (thrown : Thrown) {jobs : List Uuid}
      (hjobs : s.jobs ⊆ jobs) :
      ConsumeStep u s c r (.enqueueing tag m id) { s with jobs := jobs } (.failed tag m thrown)
  /-- The job is added. -/
  | queued (tag : ℕ) (m : Message) (id : Uuid) :
      ConsumeStep u s c r (.enqueueing tag m id) { s with jobs := id :: s.jobs } (.succeeded tag m)
  /-- The handled delivery is acknowledged. -/
  | acked (tag : ℕ) (m : Message) :
      ConsumeStep u s c r (.succeeded tag m) { s with broker := s.broker.close tag .ack }
        (.done m .handled)
  /-- The publish fails; some queues may have stored the message. -/
  | unpublished (tag : ℕ) (m : Message) (error : Thrown) {qs : List Queue}
      (hfails : c.fails = true) (hqs : qs = c.stores (replacementQueues r m error)) :
      ConsumeStep u s c r (.failed tag m error)
        { s with broker := s.broker.enqueue qs (replacement r m error).2 } (.unpublished tag m)
  /-- The publish is confirmed. -/
  | published (tag : ℕ) (m : Message) (error : Thrown) (hfails : c.fails = false)
      (hqs : c.stores (replacementQueues r m error) = replacementQueues r m error) :
      ConsumeStep u s c r (.failed tag m error)
        { s with
          broker := s.broker.enqueue (replacementQueues r m error) (replacement r m error).2 }
        (.replaced tag m)
  /-- The replaced delivery is acknowledged. -/
  | released (tag : ℕ) (m : Message) :
      ConsumeStep u s c r (.replaced tag m) { s with broker := s.broker.close tag .ack }
        (.done m .replaced)
  /-- The delivery is rejected. -/
  | nacked (tag : ℕ) (m : Message) :
      ConsumeStep u s c r (.unpublished tag m) { s with broker := s.broker.requeue tag .nack }
        (.done m .requeued)

section Cases

variable {u : UuidSyntax} {s s' : ConsumersState} {c : ConsumeChoice} {r : ConsumerName}
  {pc pc' : ConsumePc}

theorem consumeStep_of_advance {q : ConsumersState × ConsumePc}
    (h : advanceConsume u s c r pc = some q) : ConsumeStep u s c r pc q.1 q.2 := by
  unfold advanceConsume at h
  split at h
  · next hcrash =>
    -- the worker dies
    split at h
    · next hopen =>
      cases h
      exact .lost hcrash hopen
    · cases h
  next hlives =>
    split at h
    · split at h
      · cases h
      · next hm =>
        cases h
        exact .delivered hm
    · -- the callback has the message
      split at h
      · cases h
        exact .malformed _ _ _
      · next hread =>
        obtain ⟨hcontent, -⟩ := readEvent_eq_ok hread
        split at h
        · next hhandle =>
          cases h
          exact .ignored _ hcontent hhandle
        · next hhandle =>
          split at h
          · cases h
          · next hstep =>
            cases h
            exact .called _ hcontent hhandle hstep
    · -- the handler is awaited
      split at h
      · next hcall =>
        cases h
        exact .returned _ _ hcall nofun
      · next hcall =>
        cases h
        exact .returned _ _ hcall nofun
      · next hcall =>
        cases h
        exact .found _ _ hcall
      · cases h
        exact .threw _ _ _ _
      · cases h
    · split at h
      · cases h
        refine .unqueued _ _ _ _ ?_
        split
        · exact List.subset_cons_self _ _
        · exact List.Subset.refl _
      · cases h
        exact .queued _ _ _
    · cases h
      exact .acked _ _
    · split at h
      · next hfails =>
        cases h
        refine .unpublished _ _ _ hfails ?_
        rw [ConsumeChoice.stores, if_neg hlives, if_pos hfails]
      · next hconfirmed =>
        cases h
        refine .published _ _ _ (Bool.eq_false_iff.mpr hconfirmed) ?_
        rw [ConsumeChoice.stores, if_neg hlives, if_neg hconfirmed]
    · cases h
      exact .released _ _
    · cases h
      exact .nacked _ _
    · cases h

/-- **The ways the next step of a call can go.** -/
theorem consumeStep_of_machine (h : (consumeMachine u).advance s c r pc = some (s', pc')) :
    ConsumeStep u s c r pc s' pc' :=
  consumeStep_of_advance h

/-- **The ways the surroundings can move.** -/
theorem environment_cases {e : ConsumersEnvironment} (h : consumersEnvironment u s e = some s') :
    (∃ content key retryCount, e = .publish content key retryCount ∧ s' = { s with
      broker := s.broker.enqueue (route .events key) (s.publication content key retryCount)
      published := s.published + 1 }) ∨
    (∃ c n m, e = .expire c n ∧ (s.broker.queues (.retry c))[n]? = some m ∧ s' = { s with
      broker := (s.broker.remove (.retry c) n).enqueue (route .events m.routingKey)
        { m with expiration := none } }) ∨
    ∃ a effects, e = .effects a ∧ (effectSystem u).step s.effects a = some effects ∧
      s' = { s with effects := effects } := by
  cases e with
  | publish content key retryCount =>
    cases h
    exact Or.inl ⟨content, key, retryCount, rfl, rfl⟩
  | expire c n =>
    simp only [consumersEnvironment, deadLetterExchange_retry] at h
    split at h
    · next m x hm hx =>
      cases hx
      split at h
      · cases h
        exact Or.inr (Or.inl ⟨c, n, m, rfl, hm, rfl⟩)
      · cases h
    · cases h
  | effects a =>
    simp only [consumersEnvironment] at h
    split at h
    · cases h
    · obtain ⟨effects, hstep, rfl⟩ := Option.map_eq_some_iff.mp h
      exact Or.inr (Or.inr ⟨_, effects, rfl, hstep, rfl⟩)

end Cases

end ScaleForge
