import ScaleForge.Lib.Progress
import ScaleForge.Platform

/-!
# The connection of the publisher

`RabbitPublisherService` keeps one confirm channel, which every publish and every ping uses.
Who finds none starts an attempt to connect, or joins the one under way; an attempt declares
the topology before it installs its channel, and the close of a connection takes its channel
away again.  The fields are written at different awaits, and the library calls back when it
likes: a connection may close while an attempt still works on it, after the last reply and
before the attempt has heard of it, or much later.

The library keeps its promises: a request on a closed channel is rejected, `close` is emitted
once, and `waitForConfirms` answers for the messages sent on the channel so far.  A request on
an open connection fails only when the broker closes the channel; the channel then emits an
`error` that nobody listens to, and the process ends.  So a channel that the broker closes while
its connection stays open is left out, and so is the shutdown of the process.

## Main definitions

* `Declaration`, `declarations` — what an attempt declares, in its order.
* `Connections` — the fields of the service, its connections, and what the broker has.
* `ensureConnected`, `proceed`, `advance` — the methods.
* `Happens`, `Steps` — the ways a step of the surroundings and of a call can go.

## Main results

* `route_subset_of_declared` — where an event goes once everything is declared.
* `environment_cases`, `advance_cases` — every step is one of those.
-/

namespace ScaleForge

/-! ### Declarations -/

/-- One request of `assertRabbitTopology`. -/
inductive Declaration
  | exchange (x : Exchange)
  | queue (d : QueueDeclaration)
  | binding (b : Topic.Binding Exchange Queue)

/-- The requests of `assertRabbitTopology`, one after another. -/
def declarations : List Declaration :=
  [.exchange .events, .exchange .retry, .exchange .deadLetter] ++
    consumerDefinitions.flatMap fun (name, definition) =>
      .queue ⟨.main name, none⟩ ::
        definition.bindings.map (fun key => .binding ⟨.main name, .events, key⟩) ++
      .queue ⟨.retry name, some .events⟩ ::
        definition.bindings.map (fun key => .binding ⟨.retry name, .retry, key⟩) ++
      [.queue ⟨.dead name, none⟩, .binding ⟨.dead name, .deadLetter, name.text ++ ".#"⟩]

/-- The bindings among some declarations. -/
def boundBy (declared : List Declaration) : List (Topic.Binding Exchange Queue) :=
  declared.filterMap fun
    | .binding b => some b
    | _ => none

theorem mem_boundBy {declared : List Declaration} {b : Topic.Binding Exchange Queue} :
    b ∈ boundBy declared ↔ .binding b ∈ declared := by
  unfold boundBy
  rw [List.mem_filterMap]
  constructor
  · rintro ⟨d, hd, h⟩
    cases d with
    | binding b' => exact Option.some.inj h ▸ hd
    | _ => cases h
  · intro h
    exact ⟨_, h, rfl⟩

/-- The declarations make the topology. -/
theorem boundBy_declarations : boundBy declarations = assertRabbitTopology.bindings := rfl

/-- **Once everything is declared, an event reaches every queue it is for.** -/
theorem route_subset_of_declared {declared : List Declaration}
    (h : ∀ d ∈ declarations, d ∈ declared) (x : Exchange) (key : String) :
    route x key ⊆ Topic.route (boundBy declared) x key := by
  intro q hq
  rw [route, Topic.mem_route_iff] at hq
  obtain ⟨b, hb, hrest⟩ := hq
  rw [← boundBy_declarations, mem_boundBy] at hb
  exact Topic.mem_route_iff.mpr ⟨b, mem_boundBy.mpr (h _ hb), hrest⟩

namespace RabbitPublisherService

/-! ### Attempts -/

/-- A connection, as far as there is one. -/
inductive Link
  | none
  | open
  | closed
  deriving DecidableEq

/-- Where `connect` stands, and the promise made of it. -/
inductive Stage
  /-- Awaiting `amqp.connect`. -/
  | dialing
  /-- Awaiting `createConfirmChannel`. -/
  | opening
  /-- Awaiting the first of these declarations, or about to go on when there are none left. -/
  | asserting (rest : List Declaration)
  /-- `connect` has ended, and `finally` has not run. -/
  | settled (ok : Bool)
  /-- The promise in `connecting` is settled. -/
  | finished (ok : Bool)

/-- `connect` has not ended. -/
def Stage.running : Stage → Bool
  | .dialing | .opening | .asserting _ => true
  | _ => false

/-- The promise is settled. -/
def Stage.isFinished : Stage → Bool
  | .finished _ => true
  | _ => false

/-- `connect` has ended without an error. -/
def Stage.succeeded : Stage → Bool
  | .settled ok | .finished ok => ok
  | _ => false

theorem Stage.running_of_succeeded {stage : Stage} (h : stage.succeeded = true) :
    stage.running = false := by
  cases stage with
  | settled ok => rfl
  | finished ok => rfl
  | _ => cases h

/-- An attempt and its connection. -/
structure Attempt where
  stage : Stage
  link : Link
  /-- The handler of `close` is registered. -/
  hooked : Bool

/-- A message on a channel. -/
structure Sent where
  channel : ℕ
  record : LeasedOutboxEvent
  /-- The queues the broker has put it into. -/
  routed : Option (List Queue)
  /-- The confirm that has come back, positive or negative. -/
  confirmed : Option Bool

/-- The fields of the service; an attempt, its connection and its channel have one number. -/
structure Connections where
  /-- The attempts begun so far. -/
  next : ℕ
  attempts : ℕ → Option Attempt
  connecting : Option ℕ
  connection : Option ℕ
  channel : Option ℕ
  /-- What the broker has been told to declare. -/
  declared : List Declaration
  sent : List Sent

namespace Connections

/-- The connection is open. -/
def isOpen (c : Connections) (k : ℕ) : Bool := (c.attempts k).any fun a => a.link = .open

/-- Replace an attempt. -/
def put (c : Connections) (k : ℕ) (a : Attempt) : Connections :=
  { c with attempts := Function.update c.attempts k (some a) }

@[simp] theorem put_attempts_self (c : Connections) (k : ℕ) (a : Attempt) :
    (c.put k a).attempts k = some a := Function.update_self _ _ _

theorem put_attempts_of_ne (c : Connections) {k j : ℕ} (h : j ≠ k) (a : Attempt) :
    (c.put k a).attempts j = c.attempts j := Function.update_of_ne h _ _

/-- An attempt after one has been replaced. -/
theorem put_attempts_cases {c : Connections} {k j : ℕ} {a b : Attempt}
    (h : (c.put k a).attempts j = some b) : j = k ∧ b = a ∨ j ≠ k ∧ c.attempts j = some b := by
  by_cases hj : j = k
  · subst hj
    rw [put_attempts_self, Option.some.injEq] at h
    exact .inl ⟨rfl, h.symm⟩
  · rw [put_attempts_of_ne c hj] at h
    exact .inr ⟨hj, h⟩

/-- `this.connecting = this.connect().finally(…)`. -/
def begin (c : Connections) : Connections :=
  { c.put c.next ⟨.dialing, .none, false⟩ with next := c.next + 1, connecting := some c.next }

@[simp] theorem begin_attempts_self (c : Connections) :
    c.begin.attempts c.next = some ⟨.dialing, .none, false⟩ := c.put_attempts_self _ _

theorem begin_attempts_of_ne (c : Connections) {k : ℕ} (h : k ≠ c.next) :
    c.begin.attempts k = c.attempts k := c.put_attempts_of_ne h _

/-- The end of `connect`: the handlers are registered and the fields are set. -/
def install (c : Connections) (k : ℕ) (a : Attempt) : Connections :=
  { c.put k { a with stage := .settled true, hooked := true } with
    connection := some k, channel := some k }

/-- The `finally` of `ensureConnected`. -/
def finish (c : Connections) (k : ℕ) (a : Attempt) (ok : Bool) : Connections :=
  { c.put k { a with stage := .finished ok } with connecting := none }

/-- The connection emits `close`; the handler, if it is there, resets the fields. -/
def close (c : Connections) (k : ℕ) (a : Attempt) : Connections :=
  if a.hooked then
    { c.put k { a with link := .closed } with connection := none, channel := none }
  else c.put k { a with link := .closed }

/-- The messages `waitForConfirms` waits for. -/
def unconfirmed (c : Connections) (k : ℕ) : List ℕ :=
  (List.range c.sent.length).filter fun u =>
    c.sent[u]?.any fun m => m.channel = k && m.confirmed.isNone

/-- `channel.publish` of a record. -/
def send (c : Connections) (k : ℕ) (record : LeasedOutboxEvent) : Connections :=
  { c with sent := c.sent ++ [⟨k, record, none, none⟩] }

end Connections

/-! ### The surroundings -/

/-- What happens to the connections. -/
inductive Event
  /-- The request an attempt awaits ends. -/
  | reply (k : ℕ) (fault : Fault)
  /-- An attempt runs on without a reply. -/
  | resume (k : ℕ)
  /-- A connection closes. -/
  | close (k : ℕ)
  /-- Another process declares something. -/
  | declare (d : Declaration)
  /-- The broker puts a message into its queues. -/
  | route (u : ℕ)
  /-- The confirm of a message comes back. -/
  | confirm (u : ℕ) (ack : Bool)

/-- A request an attempt awaits ends well on an open connection, and fails on a closed one. -/
def Attempt.answered (a : Attempt) (fault : Fault) : Bool :=
  if fault = .none then a.link = .open else a.link ≠ .open

/-- What the broker has been told after a declaration. -/
def declare (fault : Fault) (d : Declaration) (declared : List Declaration) : List Declaration :=
  if fault = .notExecuted then declared else declared ++ [d]

/-- The request an attempt awaits ends. -/
def reply (c : Connections) (k : ℕ) (a : Attempt) (fault : Fault) : Option Connections :=
  match a.stage with
  | .dialing =>
    some (c.put k (if fault = .none then { a with stage := .opening, link := .open }
      else { a with stage := .settled false }))
  | .opening =>
    if a.answered fault then
      some (c.put k { a with
        stage := if fault = .none then .asserting declarations else .settled false })
    else none
  | .asserting (d :: rest) =>
    if a.answered fault then
      some { c.put k { a with
          stage := if fault = .none then .asserting rest else .settled false } with
        declared := declare fault d c.declared }
    else none
  | _ => none

/-- What the surroundings do. -/
def environment (c : Connections) : Event → Option Connections
  | .reply k fault => (c.attempts k).bind fun a => reply c k a fault
  | .resume k => (c.attempts k).bind fun a =>
    match a.stage with
    | .asserting [] => some (c.install k a)
    | .settled ok => some (c.finish k a ok)
    | _ => none
  | .close k => (c.attempts k).bind fun a =>
    if a.link = .open then some (c.close k a) else none
  | .declare d => some { c with declared := c.declared ++ [d] }
  | .route u => c.sent[u]?.bind fun m =>
    if m.routed.isNone then
      some { c with sent := c.sent.set u { m with
        routed := some (Topic.route (boundBy c.declared) .events
          (routingKeyFor m.record.type)) } }
    else none
  | .confirm u ack => c.sent[u]?.bind fun m =>
    if m.confirmed.isNone && c.isOpen m.channel && (!ack || m.routed.isSome) then
      some { c with sent := c.sent.set u { m with confirmed := some ack } }
    else none

/-! ### The methods -/

/-- The methods. -/
inductive Request
  | onModuleInit
  | publish (record : LeasedOutboxEvent)
  | ping

/-- Where a call stands. -/
inductive Pc
  | start
  /-- `ensureConnected` has found a channel. -/
  | connected
  /-- Awaiting the promise of an attempt. -/
  | waiting (k : ℕ)
  /-- Awaiting `waitForConfirms`, with the message of this call. -/
  | confirming (own : ℕ) (messages : List ℕ)
  /-- Awaiting `checkExchange`. -/
  | checking (k : ℕ)
  | resolved
  | rejected

/-- `ensureConnected` up to its await. -/
def ensureConnected (c : Connections) : Connections × Pc :=
  if c.channel.isSome then (c, .connected)
  else
    match c.connecting with
    | some k => (c, .waiting k)
    | none => (c.begin, .waiting c.next)

/-- A method after `await this.ensureConnected()`.  The channel may be gone again, or its
connection closed: using it throws. -/
def proceed (c : Connections) : Request → Connections × Pc
  | .onModuleInit => (c, .resolved)
  | .publish record =>
    match c.channel with
    | some k =>
      if c.isOpen k then
        (c.send k record, .confirming c.sent.length ((c.send k record).unconfirmed k))
      else (c, .rejected)
    | none => (c, .rejected)
  | .ping =>
    match c.channel with
    | some k => if c.isOpen k then (c, .checking k) else (c, .rejected)
    | none => (c, .rejected)

/-- A method whose `ensureConnected` has thrown; `onModuleInit` catches. -/
def failed : Request → Pc
  | .onModuleInit => .resolved
  | _ => .rejected

/-- The exchange is declared. -/
def hasExchange (x : Exchange) (declared : List Declaration) : Bool :=
  declared.any fun
    | .exchange y => x = y
    | _ => false

/-- The confirm of a message is the given one, if it has come back. -/
def Connections.confirmedAs (c : Connections) (ack : Bool) (u : ℕ) : Bool :=
  c.sent[u]?.any fun m => m.confirmed = some ack

/-- The message will not be confirmed. -/
def Connections.lost (c : Connections) (u : ℕ) : Bool :=
  c.confirmedAs false u ||
    c.sent[u]?.any fun m => m.confirmed.isNone && !c.isOpen m.channel

/-- One step of a call. -/
def advance (c : Connections) (_ : Unit) (r : Request) : Pc → Option (Connections × Pc)
  | .start => some (ensureConnected c)
  | .connected => some (proceed c r)
  | .waiting k =>
    match (c.attempts k).map Attempt.stage with
    | some (.finished true) => some (proceed c r)
    | some (.finished false) => some (c, failed r)
    | _ => none
  | .confirming _ messages =>
    if messages.all (c.confirmedAs true) then some (c, .resolved)
    else if messages.any c.lost then some (c, .rejected)
    else none
  | .checking k =>
    if c.isOpen k then
      if hasExchange .events c.declared then some (c, .resolved) else none
    else some (c, .rejected)
  | .resolved => none
  | .rejected => none

/-- No attempt yet, and nothing sent; the broker may know the topology or not. -/
def Connections.Initial (c : Connections) : Prop :=
  c.next = 0 ∧ (∀ k, c.attempts k = none) ∧ c.connecting = none ∧ c.connection = none ∧
    c.channel = none ∧ c.sent = []

/-- The methods as a machine. -/
def machine : Calls.Machine Connections Unit Request Pc where
  start := .start
  advance := advance

/-- The calls of the service over its connections. -/
abbrev system := Calls.system machine environment Connections.Initial

/-! ### A sample -/

/-- Nothing has happened yet. -/
def sample : Calls.State Connections Request Pc where
  shared := ⟨0, fun _ => none, none, none, none, [], []⟩
  calls _ := none

theorem sample_reachable : system.Reachable sample :=
  .init ⟨⟨rfl, fun _ => rfl, rfl, rfl, rfl, rfl⟩, fun _ => rfl⟩

/-- The event of a new order. -/
def sampleRecord : LeasedOutboxEvent where
  id := Uuid.repeated 7
  type := .orderCreated
  aggregateType := "Order"
  aggregateId := (Uuid.repeated 3).text.toString
  payload := .obj []
  correlationId := none
  attempts := 0
  createdAt := 0

/-- Two publishes find no channel; the first begins attempt `0`, and the second joins it. -/
def twoPublishes : List (Calls.Action Event Unit Request) :=
  [.request 0 (.publish sampleRecord), .advance 0 (), .request 1 (.publish sampleRecord),
    .advance 1 ()]

/-- All requests of attempt `0` are answered. -/
def allReplies : List (Calls.Action Event Unit Request) :=
  List.replicate (declarations.length + 2) (.environment (.reply 0 .none))

/-! ### A step taken apart -/

/-- What can happen to the connections. -/
inductive Happens (c : Connections) : Event → Connections → Prop
  /-- The connection is there. -/
  | dialed {k : ℕ} {a : Attempt} (ha : c.attempts k = some a) (hs : a.stage = .dialing) :
      Happens c (.reply k .none) (c.put k { a with stage := .opening, link := .open })
  /-- There is no connection, or it has closed: a request of an attempt fails, and the attempt
  with it. -/
  | failed {k : ℕ} {a : Attempt} {fault : Fault} {declared : List Declaration}
      (ha : c.attempts k = some a) (hs : a.stage.running = true) (hwait : a.stage ≠ .asserting [])
      (hlink : a.stage = .dialing ∨ a.link ≠ .open) (hdeclared : c.declared ⊆ declared) :
      Happens c (.reply k fault)
        { c.put k { a with stage := .settled false } with declared := declared }
  /-- The channel is there. -/
  | opened {k : ℕ} {a : Attempt} (ha : c.attempts k = some a) (hs : a.stage = .opening)
      (hopen : a.link = .open) :
      Happens c (.reply k .none) (c.put k { a with stage := .asserting declarations })
  /-- A declaration is there. -/
  | asserted {k : ℕ} {a : Attempt} {d : Declaration} {rest : List Declaration}
      (ha : c.attempts k = some a) (hs : a.stage = .asserting (d :: rest))
      (hopen : a.link = .open) :
      Happens c (.reply k .none)
        { c.put k { a with stage := .asserting rest } with declared := c.declared ++ [d] }
  /-- The channel is installed. -/
  | installed {k : ℕ} {a : Attempt} (ha : c.attempts k = some a) (hs : a.stage = .asserting []) :
      Happens c (.resume k) (c.install k a)
  /-- The attempt is over. -/
  | finished {k : ℕ} {a : Attempt} {ok : Bool} (ha : c.attempts k = some a)
      (hs : a.stage = .settled ok) : Happens c (.resume k) (c.finish k a ok)
  /-- A connection closes. -/
  | closed {k : ℕ} {a : Attempt} (ha : c.attempts k = some a) (hopen : a.link = .open) :
      Happens c (.close k) (c.close k a)
  /-- Somebody else declares something. -/
  | declared (d : Declaration) : Happens c (.declare d) { c with declared := c.declared ++ [d] }
  /-- A message is routed. -/
  | routed {u : ℕ} {m : Sent} (hm : c.sent[u]? = some m) (hnone : m.routed = none) :
      Happens c (.route u) { c with sent := c.sent.set u { m with
        routed := some (Topic.route (boundBy c.declared) .events
          (routingKeyFor m.record.type)) } }
  /-- A message is confirmed, or refused. -/
  | confirmed {u : ℕ} {m : Sent} {ack : Bool} (hm : c.sent[u]? = some m)
      (hnone : m.confirmed = none) (hack : ack = true → m.routed.isSome = true) :
      Happens c (.confirm u ack) { c with sent := c.sent.set u { m with confirmed := some ack } }

theorem declared_subset_declare (fault : Fault) (d : Declaration) (declared : List Declaration) :
    declared ⊆ declare fault d declared := by
  unfold declare
  split
  · exact List.Subset.refl _
  · exact List.subset_append_left _ _

/-- **What happens to the connections, taken apart.** -/
theorem environment_cases {c c' : Connections} {e : Event} (h : environment c e = some c') :
    Happens c e c' := by
  cases e with
  | reply k fault =>
    obtain ⟨a, ha, h⟩ := Option.bind_eq_some_iff.mp h
    unfold reply at h
    split at h
    · next hs =>
      cases h
      by_cases hfault : fault = .none
      · subst hfault
        exact .dialed ha hs
      · rw [if_neg hfault]
        exact .failed ha (by rw [hs]; rfl) (by rw [hs]; exact Stage.noConfusion) (.inl hs)
          (List.Subset.refl _)
    · next hs =>
      split at h
      · next hanswered =>
        cases h
        by_cases hfault : fault = .none
        · subst hfault
          exact .opened ha hs (by simpa [Attempt.answered] using hanswered)
        · rw [if_neg hfault]
          exact .failed ha (by rw [hs]; rfl) (by rw [hs]; exact Stage.noConfusion)
            (.inr (by simpa [Attempt.answered, hfault] using hanswered)) (List.Subset.refl _)
      · cases h
    · next d rest hs =>
      split at h
      · next hanswered =>
        cases h
        by_cases hfault : fault = .none
        · subst hfault
          exact .asserted ha hs (by simpa [Attempt.answered] using hanswered)
        · rw [if_neg hfault]
          exact .failed ha (by rw [hs]; rfl) (by rw [hs]; simp)
            (.inr (by simpa [Attempt.answered, hfault] using hanswered))
            (declared_subset_declare fault d c.declared)
      · cases h
    · cases h
  | resume k =>
    obtain ⟨a, ha, h⟩ := Option.bind_eq_some_iff.mp h
    split at h
    · next hs =>
      cases h
      exact .installed ha hs
    · next ok hs =>
      cases h
      exact .finished ha hs
    · cases h
  | close k =>
    obtain ⟨a, ha, h⟩ := Option.bind_eq_some_iff.mp h
    split at h
    · next hopen =>
      cases h
      exact .closed ha hopen
    · cases h
  | declare d =>
    cases h
    exact .declared d
  | route u =>
    obtain ⟨m, hm, h⟩ := Option.bind_eq_some_iff.mp h
    split at h
    · next hnone =>
      cases h
      exact .routed hm (Option.isNone_iff_eq_none.mp hnone)
    · cases h
  | confirm u ack =>
    obtain ⟨m, hm, h⟩ := Option.bind_eq_some_iff.mp h
    split at h
    · next hguard =>
      cases h
      simp only [Bool.and_eq_true, Bool.or_eq_true, Bool.not_eq_true'] at hguard
      refine .confirmed hm (Option.isNone_iff_eq_none.mp hguard.1.1) fun hack => ?_
      rcases hguard.2 with hnack | hrouted
      · rw [hack] at hnack
        cases hnack
      · exact hrouted
    · cases h

/-- What one step of a call can do. -/
inductive Steps (c : Connections) : Request → Pc → Connections → Pc → Prop
  /-- An attempt is begun. -/
  | began {r : Request} (hchannel : c.channel = none) (hconnecting : c.connecting = none) :
      Steps c r .start c.begin (.waiting c.next)
  /-- The attempt under way is joined. -/
  | joined {r : Request} {k : ℕ} (hchannel : c.channel = none)
      (hconnecting : c.connecting = some k) : Steps c r .start c (.waiting k)
  /-- A record is sent. -/
  | sent {record : LeasedOutboxEvent} {pc : Pc} {k : ℕ} (hchannel : c.channel = some k)
      (hopen : c.isOpen k = true) :
      Steps c (.publish record) pc (c.send k record)
        (.confirming c.sent.length ((c.send k record).unconfirmed k))
  /-- All messages are confirmed. -/
  | confirmed {r : Request} {own : ℕ} {messages : List ℕ}
      (hall : ∀ u ∈ messages, c.confirmedAs true u = true) :
      Steps c r (.confirming own messages) c .resolved
  /-- The exchange is there. -/
  | checked {r : Request} {k : ℕ} : Steps c r (.checking k) c .resolved
  /-- The call goes on without touching anything; a publish is not resolved that way, and does
  not come to `checkExchange`. -/
  | quiet {r : Request} {pc pc' : Pc} (hwait : ∀ k, pc' ≠ .waiting k)
      (hconfirm : ∀ own messages, pc' ≠ .confirming own messages)
      (hpublish : ∀ record, r = .publish record → pc' ≠ .resolved ∧ ∀ k, pc' ≠ .checking k) :
      Steps c r pc c pc'

theorem steps_rejected (c : Connections) (r : Request) (pc : Pc) : Steps c r pc c .rejected :=
  .quiet (fun _ => Pc.noConfusion) (fun _ _ => Pc.noConfusion)
    fun _ _ => ⟨Pc.noConfusion, fun _ => Pc.noConfusion⟩

theorem steps_proceed (c : Connections) (r : Request) (pc : Pc) :
    Steps c r pc (proceed c r).1 (proceed c r).2 := by
  cases r with
  | onModuleInit => exact .quiet (fun _ => Pc.noConfusion) (fun _ _ => Pc.noConfusion) (by simp)
  | publish record =>
    simp only [proceed]
    split
    · next k hchannel =>
      split
      · next hopen => exact .sent hchannel hopen
      · exact steps_rejected c _ pc
    · exact steps_rejected c _ pc
  | ping =>
    simp only [proceed]
    split
    · split
      · exact .quiet (fun _ => Pc.noConfusion) (fun _ _ => Pc.noConfusion) (by simp)
      · exact steps_rejected c _ pc
    · exact steps_rejected c _ pc

/-- **A step of a call, taken apart.** -/
theorem advance_cases {c c' : Connections} {r : Request} {pc pc' : Pc}
    (h : advance c () r pc = some (c', pc')) : Steps c r pc c' pc' := by
  cases pc with
  | start =>
    rw [advance, Option.some.injEq] at h
    unfold ensureConnected at h
    split at h
    · cases h
      exact .quiet (fun _ => Pc.noConfusion) (fun _ _ => Pc.noConfusion)
        fun _ _ => ⟨Pc.noConfusion, fun _ => Pc.noConfusion⟩
    · next hchannel =>
      rw [Bool.not_eq_true, Option.isSome_eq_false_iff, Option.isNone_iff_eq_none] at hchannel
      split at h
      · next k hconnecting =>
        cases h
        exact .joined hchannel hconnecting
      · next hconnecting =>
        cases h
        exact .began hchannel hconnecting
  | connected =>
    rw [advance, Option.some.injEq] at h
    have hsteps := steps_proceed c r .connected
    rwa [h] at hsteps
  | waiting k =>
    simp only [advance] at h
    split at h
    · rw [Option.some.injEq] at h
      have hsteps := steps_proceed c r (.waiting k)
      rwa [h] at hsteps
    · cases h
      cases r with
      | onModuleInit =>
        exact .quiet (fun _ => Pc.noConfusion) (fun _ _ => Pc.noConfusion) (by simp)
      | _ => exact steps_rejected c _ _
    · cases h
  | confirming own messages =>
    simp only [advance] at h
    split at h
    · next hall =>
      cases h
      exact .confirmed (List.all_eq_true.mp hall)
    · split at h
      · cases h
        exact steps_rejected c r _
      · cases h
  | checking k =>
    simp only [advance] at h
    split at h
    · split at h
      · cases h
        exact .checked
      · cases h
    · cases h
      exact steps_rejected c r _
  | resolved => cases h
  | rejected => cases h

end RabbitPublisherService

end ScaleForge
