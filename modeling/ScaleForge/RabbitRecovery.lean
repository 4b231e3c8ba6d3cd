import ScaleForge.RabbitConsistency

/-!
# When the publisher connects again

A channel that has gone is replaced: its connection's handler has taken it away, and the next
call connects anew.  There is one moment in which the handler is missing.  A connection that
closes after the last declaration has been answered, and before the attempt goes on to register
the handler, leaves a channel behind that is dead and that nothing takes away.  From then on
every publish is rejected.

## Main definitions

* `Connections.Stranded` — the channel, or the one about to be installed, is dead.

## Main results

* `stranded_of_step` — it stays so.
* `publisher_recovers_iff` — **the publisher can publish again exactly when it is not so.**
-/

namespace ScaleForge

open Transition

namespace RabbitPublisherService

/-- The channel that is installed, or that is about to be, is that of a connection that is not
open. -/
def Connections.Stranded (c : Connections) : Prop :=
  ∃ k a, c.attempts k = some a ∧ a.link ≠ .open ∧ (c.channel = some k ∨ a.stage = .asserting [])

section Stranded

variable {c c' : Connections}

theorem Connections.isOpen_iff {k : ℕ} :
    c.isOpen k = true ↔ ∃ a, c.attempts k = some a ∧ a.link = .open := by
  simp [Connections.isOpen, Option.any_eq_true]

/-- An attempt that has changed no link and no channel strands nobody. -/
theorem Connections.Stranded.of_put {k : ℕ} {a : Attempt} (h : (c.put k a).Stranded)
    (ha : a.link ≠ .open → (c.channel = some k ∨ a.stage = .asserting []) → c.Stranded) :
    c.Stranded := by
  obtain ⟨j, b, hb, hlink, hwhere⟩ := h
  rcases Connections.put_attempts_cases hb with ⟨rfl, rfl⟩ | ⟨-, hb⟩
  · exact ha hlink hwhere
  · exact ⟨j, b, hb, hlink, hwhere⟩

/-- An attempt that leaves a stranded one alone. -/
theorem Connections.Stranded.put (h : c.Stranded) {k : ℕ} {a b : Attempt}
    (ha : c.attempts k = some a)
    (hkeep : a.link ≠ .open → (c.channel = some k ∨ a.stage = .asserting []) →
      b.link ≠ .open ∧ (c.channel = some k ∨ b.stage = .asserting [])) :
    (c.put k b).Stranded := by
  obtain ⟨j, a', ha', hlink, hwhere⟩ := h
  by_cases hj : j = k
  · subst hj
    rw [ha, Option.some.injEq] at ha'
    subst ha'
    exact ⟨j, b, c.put_attempts_self j b, hkeep hlink hwhere⟩
  · exact ⟨j, a', (c.put_attempts_of_ne hj b).trans ha', hlink, hwhere⟩

/-- A stranded channel is not usable. -/
theorem Connections.Stranded.not_open (h : c.Stranded) (hc : c.Consistent) {k : ℕ}
    (hk : c.channel = some k) : ¬c.isOpen k = true := by
  rw [Connections.isOpen_iff]
  rintro ⟨b, hb, hopen⟩
  obtain ⟨j, a, ha, hlink, hchannel | hs⟩ := h
  · rw [hk, Option.some.injEq] at hchannel
    subst hchannel
    rw [ha, Option.some.injEq] at hb
    exact hlink (hb ▸ hopen)
  · have hnone := hc.quiet j a ha (by rw [hs]; rfl)
    rw [hk] at hnone
    cases hnone

/-- A request of a running attempt is of no stranded one. -/
theorem Connections.Stranded.not_waiting (h : c.Stranded) (hc : c.Consistent) {k : ℕ}
    {a : Attempt} (ha : c.attempts k = some a) (hrun : a.stage.running = true) :
    a.stage = .asserting [] := by
  obtain ⟨j, b, hb, hlink, hchannel | hs⟩ := h
  · have hnone := hc.quiet k a ha hrun
    rw [hchannel] at hnone
    cases hnone
  · obtain rfl := hc.single ha hb hrun (by rw [hs]; rfl)
    rw [ha, Option.some.injEq] at hb
    rw [hb]
    exact hs

theorem Happens.stranded {e : Event} (hhappens : Happens c e c') (hc : c.Consistent)
    (h : c.Stranded) : c'.Stranded := by
  cases hhappens with
  | dialed ha hs =>
    have hwait := h.not_waiting hc ha (by rw [hs]; rfl)
    rw [hs] at hwait
    cases hwait
  | failed ha hrun hwait hlink hdeclared => exact absurd (h.not_waiting hc ha hrun) hwait
  | opened ha hs hopen =>
    have hwait := h.not_waiting hc ha (by rw [hs]; rfl)
    rw [hs] at hwait
    cases hwait
  | asserted ha hs hopen =>
    have hwait := h.not_waiting hc ha (by rw [hs]; rfl)
    rw [hs] at hwait
    cases hwait
  | @installed k a ha hs =>
    obtain ⟨j, b, hb, hlink, hchannel | hs'⟩ := h
    · have hnone := hc.quiet k a ha (by rw [hs]; rfl)
      rw [hchannel] at hnone
      cases hnone
    · obtain rfl := hc.single hb ha (by rw [hs']; rfl) (by rw [hs]; rfl)
      rw [ha, Option.some.injEq] at hb
      subst hb
      exact ⟨j, _, c.put_attempts_self j _, hlink, .inl rfl⟩
  | @finished k a ok ha hs =>
    refine h.put ha fun hlink hwhere => ⟨hlink, ?_⟩
    rcases hwhere with hchannel | hs'
    · exact .inl hchannel
    · rw [hs] at hs'
      cases hs'
  | @closed k a ha hopen =>
    have hput : (c.put k { a with link := .closed }).Stranded :=
      h.put ha fun hlink => absurd hopen hlink
    unfold Connections.close
    split
    · next hh =>
      -- the handler is that of the channel, whose connection was open
      have hchannel := (hc.hooked k a ha hh).2.2 hopen
      exact absurd (Connections.isOpen_iff.mpr ⟨a, ha, hopen⟩) (h.not_open hc hchannel)
    · exact hput
  | _ => exact h

theorem Steps.stranded {r : Request} {pc pc' : Pc} (hsteps : Steps c r pc c' pc')
    (hc : c.Consistent) (h : c.Stranded) : c'.Stranded := by
  cases hsteps with
  | began hchannel hconnecting =>
    obtain ⟨j, a, ha, -, hchannel' | hs⟩ := h
    · rw [hchannel] at hchannel'
      cases hchannel'
    · have hsome := hc.connecting_of_running ha (by rw [hs]; rfl)
      rw [hconnecting] at hsome
      cases hsome
  | _ => exact h

theorem Happens.closed_of_stranded {e : Event} (hhappens : Happens c e c') (hc : c.Consistent)
    (hnot : ¬c.Stranded) (h : c'.Stranded) :
    ∃ k b, e = .close k ∧ c.attempts k = some b ∧ b.stage = .asserting [] := by
  -- no channel is that of an attempt that runs
  have hquiet : ∀ {k a}, c.attempts k = some a → a.stage.running = true →
      c.channel ≠ some k := by
    intro k a ha hrun hchannel
    rw [hc.quiet k a ha hrun] at hchannel
    cases hchannel
  cases hhappens with
  | dialed ha hs => exact absurd (h.of_put fun hlink => absurd rfl hlink) hnot
  | failed ha hrun hwait hlink hdeclared =>
    refine absurd (Connections.Stranded.of_put h fun _ hwhere => ?_) hnot
    rcases hwhere with hchannel | hs
    · exact absurd hchannel (hquiet ha hrun)
    · cases hs
  | opened ha hs hopen => exact absurd (h.of_put fun hlink => absurd hopen hlink) hnot
  | asserted ha hs hopen =>
    exact absurd (Connections.Stranded.of_put h fun hlink => absurd hopen hlink) hnot
  | @installed k a ha hs =>
    obtain ⟨j, b, hb, hlink, hwhere⟩ := h
    refine absurd ?_ hnot
    rcases Connections.put_attempts_cases hb with ⟨rfl, rfl⟩ | ⟨hj, hb⟩
    · exact ⟨j, a, ha, hlink, .inr hs⟩
    · rcases hwhere with hchannel | hs'
      · exact absurd (Option.some.inj hchannel).symm hj
      · exact ⟨j, b, hb, hlink, .inr hs'⟩
  | @finished k a ok ha hs =>
    refine absurd (Connections.Stranded.of_put h fun hlink hwhere => ?_) hnot
    rcases hwhere with hchannel | hs'
    · exact ⟨k, a, ha, hlink, .inl hchannel⟩
    · cases hs'
  | @closed k a ha hopen =>
    by_cases hs : a.stage = .asserting []
    · exact ⟨k, a, rfl, ha, hs⟩
    refine absurd ?_ hnot
    unfold Connections.close at h
    split at h
    · obtain ⟨j, b, hb, hlink, hwhere⟩ := h
      rcases hwhere with hchannel | hs'
      · cases hchannel
      · rcases Connections.put_attempts_cases hb with ⟨rfl, rfl⟩ | ⟨-, hb⟩
        · exact absurd hs' hs
        · exact ⟨j, b, hb, hlink, .inr hs'⟩
    · next hh =>
      refine h.of_put fun _ hwhere => ?_
      rcases hwhere with hchannel | hs'
      · obtain ⟨b, hb, hhooked⟩ := hc.installed k hchannel
        rw [ha, Option.some.injEq] at hb
        exact absurd (hb ▸ hhooked) hh
      · exact absurd hs' hs
  | _ => exact absurd h hnot

variable {s s' : Calls.State Connections Request Pc} {a : Calls.Action Event Unit Request}

/-- **A stranded service stays stranded.** -/
theorem stranded_of_step (hs : system.Reachable s)
    (h : Calls.step machine environment s a = some s') (hstranded : s.shared.Stranded) :
    s'.shared.Stranded := by
  have hc := consistent_of_reachable hs
  rcases Calls.shared_of_step h with ⟨e, he⟩ | hsame | ⟨u, r, pc, pc', hadv⟩
  · exact (environment_cases he).stranded hc hstranded
  · rwa [hsame]
  · exact (advance_cases hadv).stranded hc hstranded

/-- **Only a close strands it**, of a connection whose declarations have all been answered and
whose handler is not registered. -/
theorem closed_of_stranded (hs : system.Reachable s)
    (h : Calls.step machine environment s a = some s') (hnot : ¬s.shared.Stranded)
    (hstranded : s'.shared.Stranded) : ∃ k b, a = .environment (.close k) ∧
      s.shared.attempts k = some b ∧ b.stage = .asserting [] := by
  have hc := consistent_of_reachable hs
  rcases Calls.step_cases h with ⟨e, d, rfl, he, rfl⟩ | ⟨i, r, -, -, rfl⟩ |
    ⟨i, u, r, pc, d, pc', -, -, hadv, rfl⟩
  · obtain ⟨k, b, rfl, hb, hs'⟩ := (environment_cases he).closed_of_stranded hc hnot hstranded
    exact ⟨k, b, rfl, hb, hs'⟩
  · exact absurd hstranded hnot
  · refine absurd ?_ hnot
    cases advance_cases hadv with
    | began hchannel hconnecting =>
      obtain ⟨j, b, hb, hlink, hwhere⟩ := hstranded
      rcases Connections.put_attempts_cases hb with ⟨rfl, rfl⟩ | ⟨-, hb⟩
      · rcases hwhere with hchannel' | hs'
        · cases hchannel.symm.trans hchannel'
        · cases hs'
      · exact ⟨j, b, hb, hlink, hwhere⟩
    | _ => exact hstranded

end Stranded

/-- A call that has sent nothing, and has not been answered. -/
def Pc.Unsent : Pc → Prop
  | .start | .connected | .waiting _ | .rejected => True
  | _ => False

theorem Steps.unsent {c c' : Connections} {record : LeasedOutboxEvent} {pc pc' : Pc}
    (hsteps : Steps c (.publish record) pc c' pc') (hc : c.Consistent) (h : c.Stranded)
    (hpc : pc.Unsent) : pc'.Unsent := by
  cases hsteps with
  | sent hchannel hopen => exact absurd hopen (h.not_open hc hchannel)
  | confirmed hall => exact hpc.elim
  | checked => exact hpc.elim
  | quiet hwait hconfirm hpublish =>
    obtain ⟨hresolved, hchecking⟩ := hpublish record rfl
    cases pc' with
    | confirming own messages => exact absurd rfl (hconfirm own messages)
    | checking k => exact absurd rfl (hchecking k)
    | resolved => exact absurd rfl hresolved
    | _ => trivial
  | _ => trivial

/-- **In a stranded service no publish that arrives sends anything.** -/
theorem unsent_of_stranded {s s' : Calls.State Connections Request Pc} {i : ℕ}
    {record : LeasedOutboxEvent} {pc : Pc} {as : List (Calls.Action Event Unit Request)}
    (hs : system.Reachable s) (hstranded : s.shared.Stranded) (hfresh : s.calls i = none)
    (h : system.exec s as = some s') (hcall : s'.calls i = some ⟨.publish record, pc⟩) :
    pc.Unsent := by
  have hboth : s'.shared.Stranded ∧ ∀ pc, s'.calls i = some ⟨.publish record, pc⟩ → pc.Unsent := by
    refine Sys.exec_stable (I := fun t => t.shared.Stranded ∧
      ∀ pc, t.calls i = some ⟨.publish record, pc⟩ → pc.Unsent) ?_ hs ⟨hstranded, ?_⟩ h
    · rintro t a t' ht ⟨hstuck, ih⟩ hstep
      refine ⟨stranded_of_step ht hstep hstuck, fun pc hpc => ?_⟩
      rcases Calls.calls_of_step hstep hpc with hsame | ⟨-, rfl⟩ | ⟨u, pc₀, -, hold, hadv⟩
      · exact ih pc hsame
      · trivial
      · exact (advance_cases hadv).unsent (consistent_of_reachable ht) hstuck (ih pc₀ hold)
    · intro pc hpc
      rw [hfresh] at hpc
      cases hpc
  exact hboth.2 pc hcall

/-! ### Being answered -/

section Answers

variable {s : Calls.State Connections Request Pc} {k : ℕ}

/-- The state with other messages. -/
def withSent (s : Calls.State Connections Request Pc) (sent : List Sent) :
    Calls.State Connections Request Pc :=
  { s with shared := { s.shared with sent := sent } }

/-- The broker routes a message. -/
theorem leads_routed {u : ℕ} {m : Sent} (hm : s.shared.sent[u]? = some m) :
    ∃ m' : Sent, system.Leads s (withSent s (s.shared.sent.set u m')) ∧
      m'.routed.isSome = true ∧ m'.channel = m.channel ∧ m'.confirmed = m.confirmed := by
  obtain ⟨hlt, hget⟩ := List.getElem?_eq_some_iff.mp hm
  cases hrouted : m.routed with
  | some queues =>
    refine ⟨m, ?_, by rw [hrouted]; rfl, rfl, rfl⟩
    have hsame : withSent s (s.shared.sent.set u m) = s := by
      rw [← hget, List.set_getElem_self]
      rfl
    rw [hsame]
    exact .refl s
  | none =>
    refine ⟨{ m with routed := some (Topic.route (boundBy s.shared.declared) .events
      (routingKeyFor m.record.type)) }, ?_, rfl, rfl, rfl⟩
    refine Calls.leads_environment (e := .route u) ?_
    simp [environment, hm, hrouted]

/-- The broker answers for a message of an open channel. -/
theorem leads_answered {u : ℕ} {m : Sent} (hm : s.shared.sent[u]? = some m)
    (hopen : s.shared.isOpen m.channel = true) (hnack : m.confirmed ≠ some false) :
    ∃ m' : Sent, system.Leads s (withSent s (s.shared.sent.set u m')) ∧
      m'.channel = m.channel ∧ m'.confirmed = some true := by
  obtain ⟨hlt, hget⟩ := List.getElem?_eq_some_iff.mp hm
  obtain ⟨m₁, hleads, hrouted, hchannel, hconfirmed⟩ := leads_routed hm
  cases hack : m.confirmed with
  | some ack =>
    cases ack with
    | true => exact ⟨m₁, hleads, hchannel, hconfirmed.trans hack⟩
    | false => exact absurd hack hnack
  | none =>
    refine ⟨{ m₁ with confirmed := some true }, hleads.trans ?_, hchannel, rfl⟩
    have hm₁ : (s.shared.sent.set u m₁)[u]? = some m₁ := List.getElem?_set_self hlt
    have henv : environment (withSent s (s.shared.sent.set u m₁)).shared (.confirm u true) =
        some { s.shared with sent := s.shared.sent.set u { m₁ with confirmed := some true } } := by
      have hopen' : (withSent s (s.shared.sent.set u m₁)).shared.isOpen m₁.channel = true := by
        rw [hchannel]
        exact hopen
      simp only [environment]
      rw [show (withSent s (s.shared.sent.set u m₁)).shared.sent[u]? = some m₁ from hm₁,
        Option.bind_some, hconfirmed, hack, hopen', hrouted]
      simp [withSent]
    exact Calls.leads_environment henv

/-- **The broker answers for all messages of an open channel.** -/
theorem leads_confirmed (us : List ℕ) (hopen : s.shared.isOpen k = true)
    (h : ∀ u ∈ us, ∃ m : Sent, s.shared.sent[u]? = some m ∧ m.channel = k ∧
      m.confirmed ≠ some false) :
    ∃ sent, system.Leads s (withSent s sent) ∧
      ∀ u, u ∈ us ∨ s.shared.confirmedAs true u = true →
        (withSent s sent).shared.confirmedAs true u = true := by
  induction us generalizing s with
  | nil =>
    exact ⟨s.shared.sent, .refl s, fun u hu => hu.elim (fun hmem => (nomatch hmem)) fun h => h⟩
  | cons u us ih =>
    obtain ⟨m, hm, rfl, hnack⟩ := h u List.mem_cons_self
    obtain ⟨hlt, -⟩ := List.getElem?_eq_some_iff.mp hm
    obtain ⟨m', hleads, hchannel, hconfirmed⟩ := leads_answered hm hopen hnack
    have hself : (s.shared.sent.set u m')[u]? = some m' := List.getElem?_set_self hlt
    obtain ⟨sent, hrest, hall⟩ := ih (s := withSent s (s.shared.sent.set u m')) hopen (by
      intro v hv
      by_cases huv : u = v
      · subst huv
        exact ⟨m', hself, hchannel, by rw [hconfirmed]; decide⟩
      · obtain ⟨n, hn, hrest⟩ := h v (List.mem_cons_of_mem _ hv)
        exact ⟨n, (List.getElem?_set_ne huv).trans hn, hrest⟩)
    refine ⟨sent, hleads.trans hrest, fun v hv => hall v ?_⟩
    by_cases huv : u = v
    · subst huv
      right
      simp [Connections.confirmedAs, withSent, hlt, hconfirmed]
    · rcases hv with hmem | hold
      · exact .inl ((List.mem_cons.mp hmem).resolve_left fun h => huv h.symm)
      · right
        simpa [Connections.confirmedAs, withSent, List.getElem?_set_ne huv] using hold

end Answers

/-! ### Connecting -/

section Connecting

variable {c : Connections} {s : Calls.State Connections Request Pc} {k : ℕ} {a : Attempt}

theorem environment_reply (ha : c.attempts k = some a) (fault : Fault) :
    environment c (.reply k fault) = reply c k a fault := by
  simp only [environment, ha, Option.bind_some]

theorem environment_finish {ok : Bool} (ha : c.attempts k = some a)
    (hs : a.stage = .settled ok) : environment c (.resume k) = some (c.finish k a ok) := by
  simp only [environment, ha, Option.bind_some, hs]

/-- An attempt has failed and is over. -/
def Connections.fail (c : Connections) (k : ℕ) (a : Attempt) : Connections :=
  (c.put k { a with stage := .settled false }).finish k { a with stage := .settled false } false

/-- **An attempt whose connection has closed fails**, and is over then. -/
theorem leads_finished (ha : s.shared.attempts k = some a) (hrun : a.stage.running = true)
    (hwait : a.stage ≠ .asserting []) (hlink : a.link ≠ .open) :
    system.Leads s { s with shared := s.shared.fail k a } := by
  have hfails : environment s.shared (.reply k .notExecuted) =
      some (s.shared.put k { a with stage := .settled false }) := by
    rw [environment_reply ha]
    cases hs : a.stage with
    | asserting rest =>
      cases rest with
      | nil => exact absurd hs hwait
      | cons d rest => simp [reply, hs, Attempt.answered, hlink, declare, Connections.put]
    | settled ok => rw [hs] at hrun; cases hrun
    | finished ok => rw [hs] at hrun; cases hrun
    | _ => simp [reply, hs, Attempt.answered, hlink]
  exact (Calls.leads_environment hfails).trans
    (Calls.leads_environment (environment_finish (s.shared.put_attempts_self k _) rfl))

/-- A channel is installed, and its connection is open. -/
def Connections.Connected (c : Connections) (k : ℕ) : Prop :=
  c.channel = some k ∧ c.isOpen k = true

/-- Everything is declared. -/
theorem leads_asserted (rest : List Declaration) (ha : s.shared.attempts k = some a)
    (hs : a.stage = .asserting rest) (hopen : a.link = .open) :
    ∃ s' b, system.Leads s s' ∧ s'.calls = s.calls ∧ s'.shared.attempts k = some b ∧
      b.stage = .asserting [] ∧ b.link = .open := by
  induction rest generalizing s a with
  | nil => exact ⟨s, a, .refl s, rfl, ha, hs, hopen⟩
  | cons d rest ih =>
    have henv : environment s.shared (.reply k .none) =
        some { s.shared.put k { a with stage := .asserting rest } with
          declared := s.shared.declared ++ [d] } := by
      rw [environment_reply ha]
      simp [reply, hs, Attempt.answered, hopen, declare, Connections.put]
    obtain ⟨s', b, hleads, hcalls, hrest⟩ := ih (s := { s with shared :=
        { s.shared.put k { a with stage := .asserting rest } with
          declared := s.shared.declared ++ [d] } })
      (s.shared.put_attempts_self k { a with stage := .asserting rest }) rfl hopen
    exact ⟨s', b, (Calls.leads_environment henv).trans hleads, hcalls, hrest⟩

/-- **A channel is installed**, and the attempt is over. -/
theorem leads_connected (ha : s.shared.attempts k = some a) (hs : a.stage = .asserting [])
    (hopen : a.link = .open) : ∃ s' b, system.Leads s s' ∧ s'.calls = s.calls ∧
      s'.shared.Connected k ∧ s'.shared.attempts k = some b ∧ b.stage = .finished true := by
  have hresume : environment s.shared (.resume k) = some (s.shared.install k a) := by
    simp [environment, ha, hs]
  have hfinish : environment (s.shared.install k a) (.resume k) =
      some ((s.shared.install k a).finish k { a with stage := .settled true, hooked := true }
        true) :=
    environment_finish (s.shared.put_attempts_self k _) rfl
  refine ⟨_, _, (Calls.leads_environment hresume).trans (Calls.leads_environment hfinish), rfl,
    ⟨rfl, ?_⟩, Connections.put_attempts_self _ k _, rfl⟩
  exact Connections.isOpen_iff.mpr ⟨_, Connections.put_attempts_self _ k _, hopen⟩

/-- **An attempt with an open connection comes to its channel.** -/
theorem leads_installed (rest : List Declaration) (ha : s.shared.attempts k = some a)
    (hs : a.stage = .asserting rest) (hopen : a.link = .open) :
    ∃ s' b, system.Leads s s' ∧ s'.calls = s.calls ∧ s'.shared.Connected k ∧
      s'.shared.attempts k = some b ∧ b.stage = .finished true := by
  obtain ⟨s', b, hleads, hcalls, hb, hs', hlink⟩ := leads_asserted rest ha hs hopen
  obtain ⟨s'', b', hleads', hcalls', hrest⟩ := leads_connected hb hs' hlink
  exact ⟨s'', b', hleads.trans hleads', hcalls'.trans hcalls, hrest⟩

theorem leads_opened (ha : s.shared.attempts k = some a) (hs : a.stage = .opening)
    (hopen : a.link = .open) : ∃ s' b, system.Leads s s' ∧ s'.calls = s.calls ∧
      s'.shared.Connected k ∧ s'.shared.attempts k = some b ∧ b.stage = .finished true := by
  have henv : environment s.shared (.reply k .none) =
      some (s.shared.put k { a with stage := .asserting declarations }) := by
    rw [environment_reply ha]
    simp [reply, hs, Attempt.answered, hopen]
  obtain ⟨s', b, hleads, hcalls, hrest⟩ := leads_installed (s := { s with shared := _ })
    declarations (s.shared.put_attempts_self k { a with stage := .asserting declarations }) rfl
    hopen
  exact ⟨s', b, (Calls.leads_environment henv).trans hleads, hcalls, hrest⟩

/-- An attempt that has just begun comes to its channel. -/
theorem leads_dialed (ha : s.shared.attempts k = some a) (hs : a.stage = .dialing) :
    ∃ s' b, system.Leads s s' ∧ s'.calls = s.calls ∧ s'.shared.Connected k ∧
      s'.shared.attempts k = some b ∧ b.stage = .finished true := by
  have henv : environment s.shared (.reply k .none) =
      some (s.shared.put k { a with stage := .opening, link := .open }) := by
    rw [environment_reply ha]
    simp [reply, hs]
  obtain ⟨s', b, hleads, hcalls, hrest⟩ := leads_opened (s := { s with shared := _ })
    (s.shared.put_attempts_self k { a with stage := .opening, link := .open }) rfl rfl
  exact ⟨s', b, (Calls.leads_environment henv).trans hleads, hcalls, hrest⟩

/-- An attempt whose connection is open, or yet to come, comes to its channel. -/
theorem leads_channel (ha : s.shared.attempts k = some a) (hrun : a.stage.running = true)
    (hconnects : a.stage = .dialing ∨ a.link = .open) :
    ∃ s', system.Leads s s' ∧ s'.calls = s.calls ∧ s'.shared.Connected k := by
  cases hs : a.stage with
  | dialing =>
    obtain ⟨s', b, hleads, hcalls, hconnected, -⟩ := leads_dialed ha hs
    exact ⟨s', hleads, hcalls, hconnected⟩
  | opening =>
    have hopen := hconnects.resolve_left (by rw [hs]; exact Stage.noConfusion)
    obtain ⟨s', b, hleads, hcalls, hconnected, -⟩ := leads_opened ha hs hopen
    exact ⟨s', hleads, hcalls, hconnected⟩
  | asserting rest =>
    have hopen := hconnects.resolve_left (by rw [hs]; exact Stage.noConfusion)
    obtain ⟨s', b, hleads, hcalls, hconnected, -⟩ := leads_installed rest ha hs hopen
    exact ⟨s', hleads, hcalls, hconnected⟩
  | settled ok => rw [hs] at hrun; cases hrun
  | finished ok => rw [hs] at hrun; cases hrun

/-- **The attempt under way comes to an end**: unless the service is stranded, either there is a
channel then, or the next call connects anew. -/
theorem leads_settled (hs : system.Reachable s) (hnot : ¬s.shared.Stranded) :
    ∃ s', system.Leads s s' ∧ s'.calls = s.calls ∧ ((∃ k, s'.shared.Connected k) ∨
      s'.shared.channel = none ∧ s'.shared.connecting = none) := by
  have hc := consistent_of_reachable hs
  cases hchannel : s.shared.channel with
  | some k =>
    obtain ⟨a, ha, -⟩ := hc.installed k hchannel
    refine ⟨s, .refl s, rfl, .inl ⟨k, hchannel, Connections.isOpen_iff.mpr ⟨a, ha, ?_⟩⟩⟩
    by_contra hlink
    exact hnot ⟨k, a, ha, hlink, .inl hchannel⟩
  | none =>
    cases hconnecting : s.shared.connecting with
    | none => exact ⟨s, .refl s, rfl, .inr ⟨hchannel, hconnecting⟩⟩
    | some k =>
      obtain ⟨a, ha, hfinished⟩ := (hc.connecting k).mp hconnecting
      by_cases hrun : a.stage.running = true
      · by_cases hconnects : a.stage = .dialing ∨ a.link = .open
        · obtain ⟨s', hleads, hcalls, hconnected⟩ := leads_channel ha hrun hconnects
          exact ⟨s', hleads, hcalls, .inl ⟨k, hconnected⟩⟩
        · -- the connection has closed, before the last reply
          have hlink : a.link ≠ .open := fun hopen => hconnects (.inr hopen)
          have hwait : a.stage ≠ .asserting [] := fun hs => hnot ⟨k, a, ha, hlink, .inr hs⟩
          exact ⟨_, leads_finished ha hrun hwait hlink, rfl, .inr ⟨hchannel, rfl⟩⟩
      · cases hstage : a.stage with
        | settled ok =>
          exact ⟨_, Calls.leads_environment (environment_finish ha hstage), rfl,
            .inr ⟨hchannel, rfl⟩⟩
        | finished ok =>
          rw [hstage] at hfinished
          cases hfinished
        | _ => exact absurd (by rw [hstage]; rfl) hrun

/-- **A publish with a channel is answered.** -/
theorem leads_resolved {i : ℕ} {record : LeasedOutboxEvent} {pc : Pc}
    (hcall : s.calls i = some ⟨.publish record, pc⟩)
    (hproceed : advance s.shared () (.publish record) pc =
      some (proceed s.shared (.publish record))) (hconnected : s.shared.Connected k) :
    ∃ s', system.Leads s s' ∧ s'.calls i = some ⟨.publish record, .resolved⟩ := by
  obtain ⟨hchannel, hopen⟩ := hconnected
  have hsent : proceed s.shared (.publish record) = (s.shared.send k record,
      .confirming s.shared.sent.length ((s.shared.send k record).unconfirmed k)) := by
    simp [proceed, hchannel, hopen]
  have hsend : system.Leads s (s.move i (.publish record) (s.shared.send k record)
      (.confirming s.shared.sent.length ((s.shared.send k record).unconfirmed k))) :=
    Calls.leads_advance (c := ()) hcall (hproceed.trans (congrArg some hsent))
  -- the call waits for messages of its channel
  have hwaits : ∀ u ∈ (s.shared.send k record).unconfirmed k,
      ∃ m : Sent, (s.shared.send k record).sent[u]? = some m ∧ m.channel = k ∧
        m.confirmed ≠ some false := by
    intro u hu
    obtain ⟨m, hm, hguard⟩ := (Option.any_eq_true _ _).mp (List.mem_filter.mp hu).2
    simp only [Bool.and_eq_true, decide_eq_true_eq, Option.isNone_iff_eq_none] at hguard
    exact ⟨m, hm, hguard.1, by rw [hguard.2]; decide⟩
  obtain ⟨sent, hanswered, hall⟩ := leads_confirmed
    (s := s.move i (.publish record) (s.shared.send k record) _) _ hopen hwaits
  refine ⟨_, hsend.trans (hanswered.trans (Calls.leads_advance (c := ())
    (d := { s.shared.send k record with sent := sent }) (Calls.move_calls_self s i _ _ _) ?_)),
    Calls.move_calls_self _ i _ _ _⟩
  simp only [machine, advance]
  rw [if_pos (List.all_eq_true.mpr fun u hu => hall u (.inl hu))]
  rfl

end Connecting

/-- **The publisher recovers exactly when it is not stranded.**  From any reachable state a
publish that is yet to come can be answered if and only if the channel that is installed, or
about to be, is that of an open connection; and nothing but a close in the moment before the
handler is registered makes it otherwise. -/
theorem publisher_recovers_iff {s : Calls.State Connections Request Pc}
    (hs : system.Reachable s) (record : LeasedOutboxEvent) :
    ((∃ i s', s.calls i = none ∧ system.Leads s s' ∧
        s'.calls i = some ⟨.publish record, .resolved⟩) ↔ ¬s.shared.Stranded) ∧
    ∀ a s', Calls.step machine environment s a = some s' → ¬s.shared.Stranded →
      s'.shared.Stranded → ∃ k b, a = .environment (.close k) ∧
        s.shared.attempts k = some b ∧ b.stage = .asserting [] := by
  refine ⟨⟨?_, fun hnot => ?_⟩, fun a s' hstep hnot hstranded =>
    closed_of_stranded hs hstep hnot hstranded⟩
  · rintro ⟨i, s', hfresh, ⟨as, has⟩, hcall⟩ hstranded
    exact unsent_of_stranded hs hstranded hfresh has hcall
  · obtain ⟨i, hi⟩ := Calls.exists_fresh hs
    obtain ⟨s₁, hsettled, hcalls, hconnected⟩ := leads_settled hs hnot
    have hrequest : system.Leads s₁ (s₁.move i (.publish record) s₁.shared .start) :=
      Calls.leads_request i _ (hcalls ▸ hi)
    have hstart : (s₁.move i (.publish record) s₁.shared .start).calls i =
        some ⟨.publish record, .start⟩ := Calls.move_calls_self _ _ _ _ _
    rcases hconnected with ⟨k, hchannel, hopen⟩ | ⟨hchannel, hconnecting⟩
    · -- there is a channel
      have hfound : ensureConnected s₁.shared = (s₁.shared, .connected) := by
        simp [ensureConnected, hchannel]
      obtain ⟨s', hleads, hresolved⟩ := leads_resolved (k := k)
        (s := (s₁.move i (.publish record) s₁.shared .start).move i (.publish record) s₁.shared
          .connected) (Calls.move_calls_self _ _ _ _ _) rfl ⟨hchannel, hopen⟩
      exact ⟨i, s', hi, hsettled.trans (hrequest.trans ((Calls.leads_advance (c := ()) hstart
        (congrArg some hfound)).trans hleads)), hresolved⟩
    · -- the call connects anew
      have hbegin : ensureConnected s₁.shared = (s₁.shared.begin, .waiting s₁.shared.next) := by
        simp [ensureConnected, hchannel, hconnecting]
      obtain ⟨s₂, b, hdialed, hcalls₂, hconnected, hb, hfinished⟩ := leads_dialed
        (s := (s₁.move i (.publish record) s₁.shared .start).move i (.publish record)
          s₁.shared.begin (.waiting s₁.shared.next)) s₁.shared.begin_attempts_self rfl
      have hwaits : s₂.calls i = some ⟨.publish record, .waiting s₁.shared.next⟩ := by
        rw [hcalls₂]
        exact Calls.move_calls_self _ _ _ _ _
      have hproceed : advance s₂.shared () (.publish record) (.waiting s₁.shared.next) =
          some (proceed s₂.shared (.publish record)) := by
        simp [advance, hb, hfinished]
      obtain ⟨s', hleads, hresolved⟩ := leads_resolved hwaits hproceed hconnected
      exact ⟨i, s', hi, hsettled.trans (hrequest.trans ((Calls.leads_advance (c := ()) hstart
        (congrArg some hbegin)).trans (hdialed.trans hleads))), hresolved⟩

/-- The connection closes when everything is declared, before the attempt hears of it. -/
def closedEarly : List (Calls.Action Event Unit Request) :=
  twoPublishes ++ allReplies ++ [.environment (.close 0), .environment (.resume 0)]

/-- The dead channel stays, and nothing is published any more. -/
theorem sample_publisher_recovers_iff : ∃ s, system.exec sample closedEarly = some s ∧
    s.shared.channel = some 0 ∧ ∀ record, ¬∃ i s', s.calls i = none ∧ system.Leads s s' ∧
      s'.calls i = some ⟨.publish record, .resolved⟩ := by
  have hrun : (system.exec sample closedEarly).map (fun s => (s.shared.channel,
      (s.shared.attempts 0).map Attempt.link)) = some (some 0, some .closed) := rfl
  obtain ⟨s, hs, hend⟩ := Option.map_eq_some_iff.mp hrun
  obtain ⟨hchannel, hlink⟩ := Prod.mk.inj hend
  obtain ⟨a, ha, hclosed⟩ := Option.map_eq_some_iff.mp hlink
  refine ⟨s, hs, hchannel, fun record => ?_⟩
  rw [(publisher_recovers_iff (sample_reachable.exec hs) record).1, not_not]
  exact ⟨0, a, ha, by rw [hclosed]; decide, .inl hchannel⟩

end RabbitPublisherService

end ScaleForge
