import ScaleForge.Confinement
import ScaleForge.CorrelationTrace
import ScaleForge.RoleAuthority

/-!
# Through the guards to the orders

The two halves of the API share the guards alone: the calls of `AuthService` sign the
tokens, and the controllers of orders and payments hand the services the user the guard has
read from one.  So whoever acts on an order has an account, in a role it has had; and the
foreign keys from orders and audit rows to users, which the tables of the requests do not
have, never refuse an insertion.

## Main definitions

* `HttpRequest`, `HttpRequest.handler` — the guarded endpoints of orders and payments.
* `Gateway`, `GatewayAction`, `gateway` — the two halves behind the guards.
* `genuine` — nobody presents a token that verifies and has not been issued.

## Main results

* `access_of_gateway`, `world_of_gateway` — each half runs as it would alone.
* `owner_of_change` — a user's request changes an order of the user's own.
* `requests_authorized` — **behind the guards everybody has an account**, and acts in a role
  it has had.
-/

namespace ScaleForge

open Transaction Table Transition

/-! ### The guarded endpoints -/

/-- What a client asks of `OrdersController` and `PaymentsController`, validated. -/
inductive HttpRequest
  | createOrder (dto : CreateOrderDto)
  | updateStatus (id : UuidText) (dto : UpdateOrderStatusDto)
  | completePayment (orderId : UuidText) (idempotencyKey : Option String)
      (dto : CompletePaymentDto)

def HttpRequest.route : HttpRequest → Access.Route
  | .createOrder _ => .createOrder
  | .updateStatus _ _ => .updateStatus
  | .completePayment _ _ _ => .completePayment

/-- What the controller calls with the user of the request. -/
def HttpRequest.handler (user : AuthenticatedUser) : HttpRequest → Request
  | .createOrder dto => .createOrder user dto
  | .updateStatus id dto => .updateStatus user id dto
  | .completePayment orderId idempotencyKey dto => .completePayment user orderId idempotencyKey dto

@[simp] theorem HttpRequest.user_handler (user : AuthenticatedUser) (q : HttpRequest) :
    (q.handler user).user = user := by
  cases q <;> rfl

theorem HttpRequest.isPublic_route (q : HttpRequest) : q.route.isPublic = false := by
  cases q <;> rfl

/-! ### The two halves -/

/-- The calls of `AuthService` and the changes of roles, and the requests they let pass. -/
structure Gateway where
  access : Access.AccessState
  world : World

/-- One step of the two halves. -/
inductive GatewayAction
  /-- A step of the accounts. -/
  | access (a : Access.AccessAction)
  /-- A client sends a request, and the guards let it pass. -/
  | http (i : ℕ) (authorization : Option String) (q : HttpRequest)
      (correlationId : Option String)
  /-- Any other step of the requests and pollers. -/
  | api (a : Action)

/-- The state after an action, when it is enabled. -/
def Gateway.step (lib : Access.Libraries) (g : Gateway) : GatewayAction → Option Gateway
  | .access a => (Calls.step (Access.machine lib) Access.environment g.access a).map fun access =>
    { g with access := access }
  | .http i authorization q correlationId =>
    match Access.authorize lib g.access.shared.auth.clock q.route authorization with
    | .ok (some user) => (g.world.step (.request i (q.handler user) correlationId)).map fun world =>
      { g with world := world }
    | _ => none
  | .api (.request _ _ _) => none
  | .api a => (g.world.step a).map fun world => { g with world := world }

/-- **The system**: both halves, from given accounts and no orders. -/
def gateway (lib : Access.Libraries) (s₀ : Access.Shared) : Sys Gateway GatewayAction where
  init g := (Access.accessSystem lib s₀).init g.access ∧ g.world.Initial
  step := Gateway.step lib

/-- Nobody presents a token that verifies and has not been issued. -/
def genuine (lib : Access.Libraries) (g : Gateway) : GatewayAction → Bool
  | .access a => Access.unforged lib g.access a
  | .http _ authorization _ _ => g.access.shared.knows lib authorization
  | .api _ => true

/-- Somebody acts under a token that has been issued for the account, in this role. -/
def Gateway.Acting (g : Gateway) (user : AuthenticatedUser) : Prop :=
  ∃ t ∈ g.access.shared.issued, user = ⟨t.user.id, t.user.role⟩

/-- The account is there. -/
def Gateway.HasAccount (g : Gateway) (id : Uuid) : Prop :=
  ∃ u ∈ g.access.shared.auth.db.users, u.id = id

section Step

variable {lib : Access.Libraries} {s₀ : Access.Shared} {g g' : Gateway} {a : GatewayAction}

/-- **A step of the two halves, taken apart.** -/
theorem Gateway.step_cases (h : ((gateway lib s₀).restrict (genuine lib)).step g a = some g') :
    (∃ b access, (Access.unforgedSystem lib s₀).step g.access b = some access ∧
      g' = { g with access := access }) ∨
    (∃ i authorization, ∃ q : HttpRequest, ∃ correlationId user world,
      g.access.shared.knows lib authorization = true ∧
      Access.JwtAuthGuard.canActivate lib g.access.shared.auth.clock false authorization =
        .ok (some user) ∧
      system.step g.world (.request i (q.handler user) correlationId) = some world ∧
      g' = { g with world := world }) ∨
    ∃ b world, (∀ i r correlationId, b ≠ .request i r correlationId) ∧
      system.step g.world b = some world ∧ g' = { g with world := world } := by
  rw [Sys.restrict_step_iff] at h
  obtain ⟨hgenuine, h⟩ := h
  simp only [gateway] at h
  unfold step at h
  split at h
  · next b =>
    obtain ⟨access, hstep, rfl⟩ := Option.map_eq_some_iff.mp h
    exact .inl ⟨b, access, Sys.restrict_step_iff.mpr ⟨hgenuine, hstep⟩, rfl⟩
  · next i authorization q correlationId =>
    split at h
    · next user hauthorize =>
      obtain ⟨world, hstep, rfl⟩ := Option.map_eq_some_iff.mp h
      obtain ⟨user', huser, hguard, -⟩ := Access.authorize_eq_ok hauthorize q.isPublic_route
      cases huser
      exact .inr (.inl ⟨i, authorization, q, correlationId, user, world, hgenuine, hguard, hstep,
        rfl⟩)
    · cases h
  · cases h
  · next b hb =>
    obtain ⟨world, hstep, rfl⟩ := Option.map_eq_some_iff.mp h
    exact .inr (.inr ⟨b, world, fun i r correlationId heq => hb i r correlationId heq, hstep, rfl⟩)

/-- **The accounts run as they would alone.** -/
theorem access_of_gateway (hg : ((gateway lib s₀).restrict (genuine lib)).Reachable g) :
    (Access.unforgedSystem lib s₀).Reachable g.access := by
  refine hg.invariant (I := fun g => (Access.unforgedSystem lib s₀).Reachable g.access) ?_ ?_
  · rintro g ⟨hinit, -⟩
    exact .init hinit
  · intro g a g' _ ih h
    rcases Gateway.step_cases h with ⟨b, access, hstep, rfl⟩ | ⟨_, _, _, _, _, _, -, -, -, rfl⟩ |
      ⟨_, _, -, -, rfl⟩
    · exact ih.step hstep
    · exact ih
    · exact ih

/-- **The requests and pollers run as they would alone.** -/
theorem world_of_gateway (hg : ((gateway lib s₀).restrict (genuine lib)).Reachable g) :
    system.Reachable g.world := by
  refine hg.invariant (I := fun g => system.Reachable g.world) ?_ ?_
  · rintro g ⟨-, hinit⟩
    exact .init hinit
  · intro g a g' _ ih h
    rcases Gateway.step_cases h with ⟨_, _, -, rfl⟩ | ⟨_, _, _, _, _, _, -, -, hstep, rfl⟩ |
      ⟨_, _, -, hstep, rfl⟩
    · exact ih
    · exact ih.step hstep
    · exact ih.step hstep

/-- What a step of the accounts leaves there. -/
theorem Access.grows_of_step {w w' : Access.AccessState} {b : Access.AccessAction}
    (h : (Access.unforgedSystem lib s₀).step w b = some w') : Access.Grows w.shared w'.shared := by
  have h := (Sys.restrict_step_iff.mp h).2
  rcases Calls.shared_of_step h with ⟨ms, he⟩ | hsame | ⟨c, r, pc, pc', hadv⟩
  · rw [← Option.some.inj he]
    exact ⟨fun _ h => h, List.Subset.refl _, List.prefix_refl _⟩
  · rw [hsame]
    exact .refl _
  · exact (Access.accessStep_of_machine hadv).grows

/-- The accounts and tokens there are stay. -/
theorem Gateway.grows_of_step (h : ((gateway lib s₀).restrict (genuine lib)).step g a = some g') :
    Access.Grows g.access.shared g'.access.shared := by
  rcases Gateway.step_cases h with ⟨b, access, hstep, rfl⟩ | ⟨_, _, _, _, _, _, -, -, -, rfl⟩ |
    ⟨_, _, -, -, rfl⟩
  · exact Access.grows_of_step hstep
  · exact .refl _
  · exact .refl _

end Step

/-! ### Who acts -/

/-- An order that an update changes meets its condition. -/
theorem met_of_changed {orders : List Order} {p : Order → Bool} {status : OrderStatus}
    (hk : UniqueOn Order.id orders) {o o' : Order} (ho : o ∈ orders)
    (ho' : o' ∈ update p (OrdersRepository.bump status) orders) (hid : o'.id = o.id)
    (hne : o' ≠ o) : p o = true := by
  have heq := hk.eq_of_mem_update ho ho' hid fun _ => rfl
  split at heq
  · next hp => exact hp
  · exact absurd heq hne

/-- **A user's request changes an order of the user's own.** -/
theorem owner_of_change {w w' : World} (hw : system.Reachable w) {i : ℕ} {c : Choice}
    {call : Call} (hcall : w.calls i = some call) (h : w.step (.advance i c) = some w')
    (hrole : call.request.user.role = .user) {o o' : Order} (ho : o ∈ w.db.orders)
    (ho' : o' ∈ w'.db.orders) (hid : o'.id = o.id) (hne : o' ≠ o) :
    o.userId = call.request.user.id := by
  have hk := (keys_of_reachable hw).orders
  have hok := ok_of_reachable hw i call hcall
  obtain ⟨call', db', pc', hcall', hadv, rfl⟩ := World.step_advance h
  rw [hcall, Option.some.injEq] at hcall'
  subst hcall'
  obtain ⟨request, correlationId, pc⟩ := call
  -- the row is the present version of one whose owner has been checked
  have hown : ∀ r row : Order, r.Evolves row → row ∈ w.db.orders → r.id = o.id →
      r.userId = request.user.id → o.userId = request.user.id := by
    intro r row hev hrow hrid huser
    obtain ⟨hid', huser', -, -⟩ := hev.fixed
    rw [← hk.eq_of_key hrow ho (hid'.trans hrid), huser']
    exact huser
  cases hadv with
  | created hc =>
    obtain ⟨-, hfresh, -, -, rfl⟩ := OrdersRepository.createWrite_commits hc
    rcases List.mem_append.mp ho' with hmem | hmem
    · exact absurd (hk.eq_of_key hmem ho hid) hne
    · rw [List.mem_singleton.mp hmem] at hid
      exact absurd hid.symm (hfresh o ho)
  | updated hc =>
    obtain ⟨hcurrent, -, huser, row, hrow, hev⟩ := hok
    obtain ⟨-, -, -, -, rfl⟩ := OrdersRepository.updateStatus_commits hc
    have hat := met_of_changed hk ho ho' hid hne
    simp only [OrdersRepository.atVersion, Bool.and_eq_true, decide_eq_true_eq] at hat
    exact hown _ row hev hrow (hcurrent.trans hat.1.symm) (huser hrole).1
  | paid hc =>
    obtain ⟨-, ⟨r, hr, hrid, huser⟩, -, hev⟩ := hok
    obtain ⟨row, hrow, hrow'⟩ := hev.orders r hr
    obtain ⟨order, -, horder, -, -, -, -, -, -, rfl⟩ := PaymentsRepository.complete_commits hc
    simp only [World.move, PaymentsRepository.paidOrders] at ho'
    split at ho'
    · have hat : o.id = order.id := by simpa using met_of_changed hk ho ho' hid hne
      exact hown r row hrow' hrow (hrid.trans (horder.symm.trans hat.symm)) (huser hrole)
    · exact absurd (hk.eq_of_key ho' ho hid) hne
  | _ => exact absurd (hk.eq_of_key ho' ho hid) hne

/-- The owners of the orders after a change, in terms of those before. -/
theorem Change.owner_cases {w : World} {db' : Db} (h : Change w db') {o : Order}
    (ho : o ∈ db'.orders) : (∃ o₀ ∈ w.db.orders, o₀.userId = o.userId) ∨
      ∃ i call, w.calls i = some call ∧ call.request.user.id = o.userId := by
  cases h with
  | catalog => exact .inl ⟨o, ho, rfl⟩
  | created hcall h =>
    obtain ⟨hnew, -, -, -, rfl⟩ := OrdersRepository.createWrite_commits h
    rcases List.mem_append.mp ho with hold | hmem
    · exact .inl ⟨o, hold, rfl⟩
    · rw [List.mem_singleton.mp hmem, hnew]
      exact .inr ⟨_, _, hcall, rfl⟩
  | updated hcall h =>
    obtain ⟨-, -, -, -, rfl⟩ := OrdersRepository.updateStatus_commits h
    obtain ⟨o₀, ho₀, huser⟩ := exists_key_of_mem_update Order.userId ho fun _ => rfl
    exact .inl ⟨o₀, ho₀, huser.symm⟩
  | paid hcall h =>
    obtain ⟨order, -, -, -, -, -, -, -, -, rfl⟩ := PaymentsRepository.complete_commits h
    simp only [PaymentsRepository.paidOrders] at ho
    split at ho
    · obtain ⟨o₀, ho₀, huser⟩ := exists_key_of_mem_update Order.userId ho fun _ => rfl
      exact .inl ⟨o₀, ho₀, huser.symm⟩
    · exact .inl ⟨o, ho, rfl⟩
  | polled => exact .inl ⟨o, ho, rfl⟩

/-! ### Behind the guards -/

/-- The requests act under tokens that have been issued, and what they have written is of
accounts that are there. -/
structure Gateway.Authentic (g : Gateway) : Prop where
  calls : ∀ i call, g.world.calls i = some call → g.Acting call.request.user
  orders : ∀ o ∈ g.world.db.orders, g.HasAccount o.userId
  audits : ∀ entry ∈ g.world.db.auditLogs, ∃ id, entry.actorId = some id ∧ g.HasAccount id

section Run

variable {lib : Access.Libraries} {s₀ : Access.Shared} {g : Gateway}

theorem Gateway.Acting.hasAccount {users : List Auth.User} {user : AuthenticatedUser}
    (h : g.Acting user) (hI : Access.Authority users g.access.shared) :
    Access.Made users g.access.shared.grants user.id user.role ∧ g.HasAccount user.id := by
  obtain ⟨t, ht, rfl⟩ := h
  exact hI.issued t ht

/-- A step of the requests and pollers keeps what they have written authentic. -/
theorem Gateway.Authentic.step {users : List Auth.User} {world : World} {b : Action}
    (h : g.Authentic) (hI : Access.Authority users g.access.shared)
    (hstep : system.step g.world b = some world)
    (hrequest : ∀ i r correlationId, b = .request i r correlationId → g.Acting r.user) :
    ({ g with world := world } : Gateway).Authentic := by
  have hchange := change_of_step hstep
  have haccount : ∀ i call, g.world.calls i = some call →
      g.HasAccount call.request.user.id := fun i call hcall =>
    ((h.calls i call hcall).hasAccount hI).2
  refine ⟨?_, ?_, ?_⟩
  · intro i call hcall
    rcases World.calls_of_step hstep i with hsame | ⟨r, correlationId, rfl⟩ | ⟨c, rfl⟩
    · exact h.calls i call (hsame ▸ hcall)
    · obtain ⟨-, rfl⟩ := World.step_request hstep
      simp only [World.accept_calls_self, Option.some.injEq] at hcall
      rw [← hcall]
      exact hrequest i r correlationId rfl
    · obtain ⟨call₀, db', pc', hcall₀, -, rfl⟩ := World.step_advance hstep
      simp only [World.move_calls_self, Option.some.injEq] at hcall
      rw [← hcall]
      exact h.calls i call₀ hcall₀
  · intro o ho
    rcases hchange.owner_cases ho with ⟨o₀, ho₀, huser⟩ | ⟨i, call, hcall, huser⟩
    · rw [← huser]
      exact h.orders o₀ ho₀
    · rw [← huser]
      exact haccount i call hcall
  · intro entry hentry
    rcases hchange.audit_cases hentry with hold | ⟨i, call, hcall, hactor, -⟩
    · exact h.audits entry hold
    · exact ⟨_, hactor, haccount i call hcall⟩

theorem authentic_of_reachable (hlib : lib.ReadsSigned) (h0 : s₀.Fresh)
    (hg : ((gateway lib s₀).restrict (genuine lib)).Reachable g) : g.Authentic := by
  refine hg.invariant (I := Gateway.Authentic) ?_ ?_
  · rintro g ⟨-, horders, -, -, haudits, -, hcalls, -⟩
    refine ⟨?_, ?_, ?_⟩
    · intro i call hcall
      rw [hcalls i] at hcall
      cases hcall
    · rw [horders]
      intro o ho
      cases ho
    · rw [haudits]
      intro entry hentry
      cases hentry
  · intro g a g' hg ih h
    have hI := (Access.authority_of_reachable hlib h0 (access_of_gateway hg)).1
    have hgrows := Gateway.grows_of_step h
    rcases Gateway.step_cases h with ⟨b, access, -, rfl⟩ |
      ⟨i, authorization, q, correlationId, user, world, hknows, hguard, hstep, rfl⟩ |
      ⟨b, world, hb, hstep, rfl⟩
    · refine ⟨?_, fun o ho => hgrows.ids _ (ih.orders o ho), ?_⟩
      · intro i call hcall
        obtain ⟨t, ht, huser⟩ := ih.calls i call hcall
        exact ⟨t, hgrows.issued ht, huser⟩
      · intro entry hentry
        obtain ⟨id, hactor, hid⟩ := ih.audits entry hentry
        exact ⟨id, hactor, hgrows.ids _ hid⟩
    · refine ih.step hI hstep fun j r correlationId' heq => ?_
      cases heq
      obtain ⟨t, ht, huser, -⟩ := Access.issued_of_canActivate hlib hknows hguard
      exact ⟨t, ht, by rw [HttpRequest.user_handler, huser]⟩
    · exact ih.step hI hstep fun i r correlationId heq => absurd heq (hb i r correlationId)

/-- **Behind the guards everybody has an account.**  In every run in which nobody forges a
token: every request acts under a token that was issued for its user, and in a role the account
has had; every order belongs to an account, and every audit row is by one, so that the foreign
keys to users always hold; and a step of a request that changes an order of somebody else is of
an account that has been made a manager or an administrator. -/
theorem requests_authorized (hlib : lib.ReadsSigned) (h0 : s₀.Fresh)
    (hg : ((gateway lib s₀).restrict (genuine lib)).Reachable g) :
    g.Authentic ∧
    (∀ i call, g.world.calls i = some call → Access.Made s₀.auth.db.users
      g.access.shared.grants call.request.user.id call.request.user.role) ∧
    ∀ i c call world, g.world.calls i = some call → g.world.step (.advance i c) = some world →
      ∀ o ∈ g.world.db.orders, ∀ o' ∈ world.db.orders, o'.id = o.id → o' ≠ o →
        o.userId ≠ call.request.user.id → call.request.user.role ≠ .user := by
  have hI := (Access.authority_of_reachable hlib h0 (access_of_gateway hg)).1
  have hauthentic := authentic_of_reachable hlib h0 hg
  refine ⟨hauthentic, fun i call hcall => ((hauthentic.calls i call hcall).hasAccount hI).1, ?_⟩
  intro i c call world hcall hstep o ho o' ho' hid hne hother hrole
  exact hother (owner_of_change (world_of_gateway hg) hcall hstep hrole ho ho' hid hne)

end Run

/-! ### An order from the login on -/

/-- The sample accounts and the sample catalog. -/
def Gateway.sample : Gateway := ⟨Access.sampleAccess, World.sample⟩

/-- Grace logs in and orders; the administrator logs in and confirms the order. -/
def GatewayAction.sampleOrder : List GatewayAction :=
  [.access (.request 0 (.auth (.login ⟨"grace@x", "another password"⟩))),
    .access (.advance 0 (Auth.sampleChoice 1)), .access (.advance 0 (Auth.sampleChoice 1)),
    .http 0 (some ("Bearer " ++ Access.sampleLibraries.signAccess Access.sampleGrace 0))
      (.createOrder ⟨(Uuid.repeated 1).text,
        [⟨(Uuid.repeated 2).text, 3, Nat.le_add_left 1 2, Nat.le_add_left 3 47⟩],
        Nat.le_add_left 1 0, Nat.le_add_left 1 49⟩) none,
    .api (.advance 0 (.sample 3)), .api (.advance 0 (.sample 3)), .api (.advance 0 (.sample 3)),
    .access (.request 1 (.auth (.login ⟨"root@x", "a long password"⟩))),
    .access (.advance 1 (Auth.sampleChoice 2)), .access (.advance 1 (Auth.sampleChoice 2)),
    .http 1 Access.sampleHeader
      (.updateStatus (Uuid.repeated 3).text ⟨.confirmed, 0 + 1, Nat.le_add_left 1 0⟩) none,
    .api (.advance 1 (.sample 4)), .api (.advance 1 (.sample 4))]

/-- The order is Grace's, and it has been confirmed. -/
theorem sample_requests_authorized : ∃ g,
    ((gateway Access.sampleLibraries Access.sampleAccess.shared).restrict
      (genuine Access.sampleLibraries)).exec Gateway.sample GatewayAction.sampleOrder = some g ∧
    g.world.db.orders.map (fun o => (o.userId, o.status)) =
      [(Access.sampleGrace.id, .confirmed)] ∧
    g.Authentic := by
  have hrun : (((gateway Access.sampleLibraries Access.sampleAccess.shared).restrict
      (genuine Access.sampleLibraries)).exec Gateway.sample GatewayAction.sampleOrder).map
        (fun g => g.world.db.orders.map fun o => (o.userId, o.status)) =
          some [(Access.sampleGrace.id, .confirmed)] := by decide +kernel
  obtain ⟨g, hg, horders⟩ := Option.map_eq_some_iff.mp hrun
  have hinit : ((gateway Access.sampleLibraries Access.sampleAccess.shared).restrict
      (genuine Access.sampleLibraries)).init Gateway.sample :=
    ⟨⟨rfl, fun _ => rfl⟩, World.sample_initial⟩
  obtain ⟨hauthentic, -, -⟩ := requests_authorized Access.sampleLibraries_readsSigned
    Access.sampleAccess_fresh ((Sys.Reachable.init hinit).exec hg)
  exact ⟨g, hg, horders, hauthentic⟩

end ScaleForge
