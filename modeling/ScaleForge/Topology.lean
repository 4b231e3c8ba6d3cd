import ScaleForge.Lib.Topic

/-!
# The broker topology

Each consumer has three queues: its own, one for retries and one for dead
letters.  `assertRabbitTopology` binds the first to the event exchange and the
second to the retry exchange under the keys of the consumer's definition, and
the third to the dead-letter exchange under `name.#`.  The retry queue dead-letters
to the event exchange.

## Main definitions

* `ConsumerName`, `consumerDefinitions` — the consumers.
* `assertRabbitTopology` — queues and bindings.
* `ConsumerName.bound` — the consumer is bound to a routing key.

## Main results

* `Exchange.name_injective`, `Queue.name_injective` — different constructors stand for
  different names.
* `mem_route_iff`, `mem_route_deadLetter_iff` — the queues a message is copied to.
* `deadLetterExchange_retry` — where a retry queue's messages go when they expire.
-/

namespace ScaleForge

/-! ### The consumers -/

/-- The keys of `consumerDefinitions`. -/
inductive ConsumerName
  | notification
  | audit
  deriving DecidableEq, Repr

/-- The name of a consumer, as in the keys of its dead letters. -/
def ConsumerName.text : ConsumerName → String
  | notification => "notification"
  | audit => "audit"

/-- The queue of a consumer and the keys it is bound to. -/
structure ConsumerDefinition where
  queue : String
  bindings : List String

/-- The entry of a consumer in `consumerDefinitions`. -/
def ConsumerName.definition : ConsumerName → ConsumerDefinition
  | notification => ⟨"notification.events", ["order.created"]⟩
  | audit => ⟨"audit.events", ["order.created", "payment.completed"]⟩

/-- `Object.entries(consumerDefinitions)`. -/
def consumerDefinitions : List (ConsumerName × ConsumerDefinition) :=
  [(.notification, ConsumerName.notification.definition), (.audit, ConsumerName.audit.definition)]

theorem mem_consumerDefinitions_iff {c : ConsumerName} {d : ConsumerDefinition} :
    (c, d) ∈ consumerDefinitions ↔ d = c.definition := by
  cases c <;> simp [consumerDefinitions]

/-- The consumer is bound to the routing key. -/
def ConsumerName.bound (c : ConsumerName) (key : String) : Bool := key ∈ c.definition.bindings

/-! ### Exchanges and queues -/

/-- The exchanges. -/
inductive Exchange
  /-- `EVENT_EXCHANGE`. -/
  | events
  /-- `RETRY_EXCHANGE`. -/
  | retry
  /-- `DEAD_LETTER_EXCHANGE`. -/
  | deadLetter
  deriving DecidableEq, Repr

/-- The names of the exchanges. -/
def Exchange.name : Exchange → String
  | events => "scaleforge.events"
  | retry => "scaleforge.retry"
  | deadLetter => "scaleforge.dlx"

/-- No two exchanges have the same name. -/
theorem Exchange.name_injective : Function.Injective Exchange.name := by
  intro x y h
  cases x <;> cases y <;> first | rfl | exact absurd h (by decide)

/-- The queues of the consumers. -/
inductive Queue
  | main (c : ConsumerName)
  | retry (c : ConsumerName)
  | dead (c : ConsumerName)
  deriving DecidableEq, Repr

/-- The names of the queues. -/
def Queue.name : Queue → String
  | main c => c.definition.queue
  | retry c => c.definition.queue ++ ".retry"
  | dead c => c.definition.queue ++ ".dlq"

/-- No two queues have the same name. -/
theorem Queue.name_injective : Function.Injective Queue.name := by
  rintro (⟨⟨⟩⟩ | ⟨⟨⟩⟩ | ⟨⟨⟩⟩) (⟨⟨⟩⟩ | ⟨⟨⟩⟩ | ⟨⟨⟩⟩) h <;> first | rfl | exact absurd h (by decide)

/-- A queue, with its `x-dead-letter-exchange`. -/
structure QueueDeclaration where
  queue : Queue
  deadLetterExchange : Option Exchange

/-- What `assertRabbitTopology` declares. -/
structure RabbitTopology where
  exchanges : List Exchange
  queues : List QueueDeclaration
  bindings : List (Topic.Binding Exchange Queue)

/-- The queues and bindings of all consumers. -/
def assertRabbitTopology : RabbitTopology where
  exchanges := [.events, .retry, .deadLetter]
  queues := consumerDefinitions.flatMap fun (name, _) =>
    [⟨.main name, none⟩, ⟨.retry name, some .events⟩, ⟨.dead name, none⟩]
  bindings := consumerDefinitions.flatMap fun (name, definition) =>
    definition.bindings.map (⟨.main name, .events, ·⟩) ++
      definition.bindings.map (⟨.retry name, .retry, ·⟩) ++
      [⟨.dead name, .deadLetter, name.text ++ ".#"⟩]

/-- The queues an exchange copies a message to. -/
def route (x : Exchange) (key : String) : List Queue :=
  Topic.route assertRabbitTopology.bindings x key

/-- Where the expired messages of a queue go. -/
def Queue.deadLetterExchange (q : Queue) : Option Exchange :=
  (assertRabbitTopology.queues.find? fun d => d.queue = q).bind QueueDeclaration.deadLetterExchange

/-! ### Routing -/

/-- The keys of the definitions have no wildcards. -/
theorem binds_definition_iff {c : ConsumerName} {binding key : String}
    (h : binding ∈ c.definition.bindings) : Topic.binds binding key = true ↔ binding = key := by
  refine Topic.binds_literal_iff ?_
  cases c <;> revert binding <;> decide

/-- The queue of a consumer that an exchange copies to. -/
def Exchange.queue : Exchange → ConsumerName → Queue
  | events => .main
  | retry => .retry
  | deadLetter => .dead

/-- The bindings, taken apart. -/
theorem mem_bindings_iff {b : Topic.Binding Exchange Queue} :
    b ∈ assertRabbitTopology.bindings ↔ ∃ c : ConsumerName, b.queue = b.exchange.queue c ∧
      if b.exchange = .deadLetter then b.key = c.text ++ ".#"
      else b.key ∈ c.definition.bindings := by
  obtain ⟨q, x, key⟩ := b
  simp only [assertRabbitTopology, List.mem_flatMap, Prod.exists, mem_consumerDefinitions_iff,
    List.mem_append, List.mem_map, List.mem_singleton, exists_eq_left, Topic.Binding.mk.injEq]
  refine exists_congr fun c => ?_
  cases x with
  | events => simp [Exchange.queue, eq_comm, and_comm]
  | retry => simp [Exchange.queue, eq_comm, and_comm]
  | deadLetter => simp [Exchange.queue]

/-- **An exchange copies a message to the queues of all consumers bound to its key**; the retry
exchange too, and not only to that of the consumer that failed. -/
theorem mem_route_iff {x : Exchange} (hx : x ≠ .deadLetter) {q : Queue} {key : String} :
    q ∈ route x key ↔ ∃ c, q = x.queue c ∧ c.bound key = true := by
  simp only [route, Topic.mem_route_iff, mem_bindings_iff, ConsumerName.bound, decide_eq_true_eq]
  constructor
  · rintro ⟨b, ⟨c, hqueue, hkey⟩, rfl, rfl, hbinds⟩
    rw [if_neg hx] at hkey
    exact ⟨c, hqueue, (binds_definition_iff hkey).mp hbinds ▸ hkey⟩
  · rintro ⟨c, rfl, hkey⟩
    refine ⟨⟨x.queue c, x, key⟩, ⟨c, rfl, ?_⟩, rfl, rfl, (binds_definition_iff hkey).mpr rfl⟩
    rwa [if_neg hx]

theorem mem_route_events_iff {q : Queue} {key : String} :
    q ∈ route .events key ↔ ∃ c, q = .main c ∧ c.bound key = true :=
  mem_route_iff (x := .events) nofun

theorem mem_route_retry_iff {q : Queue} {key : String} :
    q ∈ route .retry key ↔ ∃ c, q = .retry c ∧ c.bound key = true :=
  mem_route_iff (x := .retry) nofun

/-- The binding of a dead-letter queue. -/
theorem binds_dead_iff {c c' : ConsumerName} {key : String} :
    Topic.binds (c.text ++ ".#") (c'.text ++ "." ++ key) = true ↔ c = c' := by
  have hsplit : c.text ++ ".#" = c.text ++ "." ++ "#" := by cases c <;> rfl
  have hdots : ∀ c : ConsumerName, '.' ∉ c.text.toList := by
    intro c
    cases c <;> decide
  have hliteral : Topic.Literal c.text.toList := by cases c <;> decide
  have hname : c.text = c'.text ↔ c = c' := by cases c <;> cases c' <;> decide
  rw [hsplit, Topic.binds_under_iff (hdots c) (hdots c') hliteral, hname]

/-- **A dead letter goes to the dead-letter queue of the consumer that names
it.** -/
theorem mem_route_deadLetter_iff {q : Queue} {c : ConsumerName} {key : String} :
    q ∈ route .deadLetter (c.text ++ "." ++ key) ↔ q = .dead c := by
  simp only [route, Topic.mem_route_iff, mem_bindings_iff]
  constructor
  · rintro ⟨b, ⟨c', hqueue, hkey⟩, rfl, hx, hbinds⟩
    rw [hx, if_pos rfl] at hkey
    rw [hkey] at hbinds
    rw [hqueue, hx, binds_dead_iff.mp hbinds]
    rfl
  · rintro rfl
    exact ⟨⟨.dead c, .deadLetter, c.text ++ ".#"⟩, ⟨c, rfl, by rw [if_pos rfl]⟩, rfl, rfl,
      binds_dead_iff.mpr rfl⟩

/-- Expired messages go back to the event exchange. -/
theorem deadLetterExchange_retry (c : ConsumerName) :
    (Queue.retry c).deadLetterExchange = some .events := by
  cases c <;> rfl

end ScaleForge
