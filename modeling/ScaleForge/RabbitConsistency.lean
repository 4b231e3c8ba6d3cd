import ScaleForge.RabbitPublisher

/-!
# One channel

Attempts are begun only where there is no channel and none is under way, so one runs at a time,
and while it runs there is no channel.  A handler of `close` is registered when a channel is
installed and takes the channel away with its connection; so an open connection with a handler
is the one whose channel is installed, and no connection takes away the channel of another.

A channel is installed when everything has been declared, and the broker forgets nothing.  So
whatever is sent finds its queues, and a publish that is answered has got there.

## Main definitions

* `Connections.Consistent` — the invariant of the fields.
* `Connections.Delivered` — the invariant of the messages.
* `Pc.Knows` — what a call knows at each of its awaits.

## Main results

* `consistent_of_reachable`, `delivered_of_reachable`, `knows_of_reachable` — they hold.
* `publisher_consistent` — **one attempt at a time, and one channel, which no other connection
  takes away.**
* `publish_confirmed` — **a publish that is answered has been put into all its queues.**
-/

namespace ScaleForge

open Transition

namespace RabbitPublisherService

/-! ### The invariant -/

/-- The fields of the service, its attempts and what the broker has fit together. -/
structure Connections.Consistent (c : Connections) : Prop where
  fresh : ∀ k, c.next ≤ k → c.attempts k = none
  /-- The attempt that is not over is the one in `connecting`. -/
  connecting : ∀ k, c.connecting = some k ↔
    ∃ a, c.attempts k = some a ∧ a.stage.isFinished = false
  same : c.connection = c.channel
  /-- No attempt runs while there is a channel. -/
  quiet : ∀ k a, c.attempts k = some a → a.stage.running = true → c.channel = none
  /-- An attempt has declared what it is not about to declare. -/
  asserting : ∀ k a rest, c.attempts k = some a → a.stage = .asserting rest →
    ∃ asserted, declarations = asserted ++ rest ∧ asserted ⊆ c.declared
  installed : ∀ k, c.channel = some k → ∃ a, c.attempts k = some a ∧ a.hooked = true
  /-- A registered handler is that of an installed channel. -/
  hooked : ∀ k a, c.attempts k = some a → a.hooked = true →
    declarations ⊆ c.declared ∧ a.stage.succeeded = true ∧
      (a.link = .open → c.channel = some k)

theorem Connections.Initial.consistent {c : Connections} (h : c.Initial) : c.Consistent := by
  obtain ⟨-, hattempts, hconnecting, hconnection, hchannel, -⟩ := h
  refine ⟨fun k _ => hattempts k, fun k => ?_, hconnection.trans hchannel.symm, ?_, ?_, ?_, ?_⟩
  · rw [hconnecting]
    refine ⟨fun h => (nomatch h), ?_⟩
    rintro ⟨a, ha, -⟩
    rw [hattempts k] at ha
    cases ha
  · intro k a ha
    rw [hattempts k] at ha
    cases ha
  · intro k a rest ha
    rw [hattempts k] at ha
    cases ha
  · intro k hk
    rw [hchannel] at hk
    cases hk
  · intro k a ha
    rw [hattempts k] at ha
    cases ha

section Invariant

variable {c c' : Connections}

/-- What the broker has besides does not matter. -/
theorem Connections.Consistent.mono (h : c.Consistent) {declared : List Declaration}
    (hdeclared : c.declared ⊆ declared) (sent : List Sent) :
    { c with declared := declared, sent := sent }.Consistent where
  fresh := h.fresh
  connecting := h.connecting
  same := h.same
  quiet := h.quiet
  asserting k a rest ha hs := by
    obtain ⟨asserted, hsplit, hsub⟩ := h.asserting k a rest ha hs
    exact ⟨asserted, hsplit, List.Subset.trans hsub hdeclared⟩
  installed := h.installed
  hooked k a ha hh := by
    obtain ⟨hall, hok, hopen⟩ := h.hooked k a ha hh
    exact ⟨List.Subset.trans hall hdeclared, hok, hopen⟩

/-- An attempt that is not over moves on, short of installing a channel. -/
theorem Connections.Consistent.put (h : c.Consistent) {k : ℕ} {a a' : Attempt}
    (ha : c.attempts k = some a) (hfinished : a'.stage.isFinished = a.stage.isFinished)
    (hrunning : a'.stage.running = true → a.stage.running = true) (hhooked : a'.hooked = a.hooked)
    (hkeep : a.hooked = true → a'.stage = a.stage ∧ (a'.link = .open → a.link = .open))
    (hasserting : ∀ rest, a'.stage = .asserting rest →
      ∃ asserted, declarations = asserted ++ rest ∧ asserted ⊆ c.declared) :
    (c.put k a').Consistent where
  fresh j hj := by
    have hne : j ≠ k := by
      rintro rfl
      rw [h.fresh j hj] at ha
      cases ha
    rw [c.put_attempts_of_ne hne]
    exact h.fresh j hj
  connecting j := by
    refine (h.connecting j).trans ?_
    by_cases hj : j = k
    · subst hj
      rw [c.put_attempts_self, ha]
      simp only [Option.some.injEq, exists_eq_left', hfinished]
    · rw [c.put_attempts_of_ne hj]
  same := h.same
  quiet j b hb hrun := by
    rcases Connections.put_attempts_cases hb with ⟨rfl, rfl⟩ | ⟨-, hb⟩
    · exact h.quiet j a ha (hrunning hrun)
    · exact h.quiet j b hb hrun
  asserting j b rest hb hs := by
    rcases Connections.put_attempts_cases hb with ⟨rfl, rfl⟩ | ⟨-, hb⟩
    · exact hasserting rest hs
    · exact h.asserting j b rest hb hs
  installed j hj := by
    obtain ⟨b, hb, hh⟩ := h.installed j hj
    by_cases hjk : j = k
    · subst hjk
      rw [ha, Option.some.injEq] at hb
      exact ⟨a', c.put_attempts_self j a', hhooked.trans (hb ▸ hh)⟩
    · exact ⟨b, (c.put_attempts_of_ne hjk a').trans hb, hh⟩
  hooked j b hb hh := by
    rcases Connections.put_attempts_cases hb with ⟨rfl, rfl⟩ | ⟨-, hb⟩
    · have hold := hhooked.symm.trans hh
      obtain ⟨hall, hok, hchannel⟩ := h.hooked j a ha hold
      obtain ⟨hstage, hlink⟩ := hkeep hold
      exact ⟨hall, hstage ▸ hok, fun hopen => hchannel (hlink hopen)⟩
    · exact h.hooked j b hb hh

/-- An attempt that runs has no handler yet. -/
theorem Connections.Consistent.unhooked (h : c.Consistent) {k : ℕ} {a : Attempt}
    (ha : c.attempts k = some a) (hrun : a.stage.running = true) : ¬a.hooked = true := by
  intro hh
  rw [Stage.running_of_succeeded (h.hooked k a ha hh).2.1] at hrun
  cases hrun

/-- The attempt that runs is the one in `connecting`. -/
theorem Connections.Consistent.connecting_of_running (h : c.Consistent) {k : ℕ} {a : Attempt}
    (ha : c.attempts k = some a) (hrun : a.stage.running = true) : c.connecting = some k := by
  refine (h.connecting k).mpr ⟨a, ha, ?_⟩
  cases hs : a.stage with
  | settled ok => rfl
  | finished ok => rw [hs] at hrun; cases hrun
  | _ => rfl

/-- **One attempt at a time.** -/
theorem Connections.Consistent.single (h : c.Consistent) {k j : ℕ} {a b : Attempt}
    (ha : c.attempts k = some a) (hb : c.attempts j = some b) (hrun : a.stage.running = true)
    (hrun' : b.stage.running = true) : k = j := by
  have hk := h.connecting_of_running ha hrun
  rw [h.connecting_of_running hb hrun', Option.some.injEq] at hk
  exact hk.symm

theorem Connections.Consistent.begin (h : c.Consistent) (hchannel : c.channel = none)
    (hconnecting : c.connecting = none) : c.begin.Consistent := by
  have hcases : ∀ k a, c.begin.attempts k = some a →
      k = c.next ∧ a = ⟨.dialing, .none, false⟩ ∨ k ≠ c.next ∧ c.attempts k = some a :=
    fun k a hka => Connections.put_attempts_cases hka
  refine ⟨fun k hk => ?_, fun k => ?_, h.same, fun _ _ _ _ => hchannel, ?_, ?_, ?_⟩
  · have hlt : c.next < k := hk
    rw [c.begin_attempts_of_ne hlt.ne']
    exact h.fresh k hlt.le
  · constructor
    · intro hk
      cases hk
      exact ⟨_, c.begin_attempts_self, rfl⟩
    · rintro ⟨a, ha, hfinished⟩
      rcases hcases k a ha with ⟨rfl, -⟩ | ⟨-, ha⟩
      · rfl
      · have hsome := (h.connecting k).mpr ⟨a, ha, hfinished⟩
        rw [hconnecting] at hsome
        cases hsome
  · intro k a rest ha hs
    rcases hcases k a ha with ⟨-, rfl⟩ | ⟨-, ha⟩
    · cases hs
    · exact h.asserting k a rest ha hs
  · intro k hk
    rw [show c.begin.channel = none from hchannel] at hk
    cases hk
  · intro k a ha hh
    rcases hcases k a ha with ⟨-, rfl⟩ | ⟨-, ha⟩
    · cases hh
    · exact h.hooked k a ha hh

theorem Connections.Consistent.install (h : c.Consistent) {k : ℕ} {a : Attempt}
    (ha : c.attempts k = some a) (hs : a.stage = .asserting []) : (c.install k a).Consistent := by
  have hrun : a.stage.running = true := by rw [hs]; rfl
  have hchannel := h.quiet k a ha hrun
  have hall : declarations ⊆ c.declared := by
    obtain ⟨asserted, hsplit, hsub⟩ := h.asserting k a [] ha hs
    rw [List.append_nil] at hsplit
    exact hsplit ▸ hsub
  have hcases : ∀ j b, (c.install k a).attempts j = some b →
      j = k ∧ b = { a with stage := .settled true, hooked := true } ∨
        j ≠ k ∧ c.attempts j = some b :=
    fun j b hjb => Connections.put_attempts_cases hjb
  refine ⟨fun j hj => ?_, fun j => ?_, rfl, ?_, ?_, ?_, ?_⟩
  · have hne : j ≠ k := by
      rintro rfl
      rw [h.fresh j hj] at ha
      cases ha
    exact (c.put_attempts_of_ne hne _).trans (h.fresh j hj)
  · refine (h.connecting j).trans ?_
    by_cases hj : j = k
    · subst hj
      refine iff_of_true ⟨a, ha, by rw [hs]; rfl⟩ ⟨_, c.put_attempts_self j _, rfl⟩
    · rw [show (c.install k a).attempts j = c.attempts j from c.put_attempts_of_ne hj _]
  · intro j b hb hrun'
    rcases hcases j b hb with ⟨-, rfl⟩ | ⟨hj, hb⟩
    · cases hrun'
    · exact absurd (h.single hb ha hrun' hrun) hj
  · intro j b rest hb hs'
    rcases hcases j b hb with ⟨-, rfl⟩ | ⟨-, hb⟩
    · cases hs'
    · exact h.asserting j b rest hb hs'
  · intro j hj
    cases hj
    exact ⟨_, c.put_attempts_self k _, rfl⟩
  · intro j b hb hh
    rcases hcases j b hb with ⟨rfl, rfl⟩ | ⟨-, hb⟩
    · exact ⟨hall, rfl, fun _ => rfl⟩
    · -- no other connection has a handler and is open
      obtain ⟨-, hok, hopen⟩ := h.hooked j b hb hh
      refine ⟨hall, hok, fun hlink => ?_⟩
      have hsome := hopen hlink
      rw [hchannel] at hsome
      cases hsome

theorem Connections.Consistent.finish (h : c.Consistent) {k : ℕ} {a : Attempt} {ok : Bool}
    (ha : c.attempts k = some a) (hs : a.stage = .settled ok) : (c.finish k a ok).Consistent := by
  have hconnecting : c.connecting = some k :=
    (h.connecting k).mpr ⟨a, ha, by rw [hs]; rfl⟩
  have hcases : ∀ j b, (c.finish k a ok).attempts j = some b →
      j = k ∧ b = { a with stage := .finished ok } ∨ j ≠ k ∧ c.attempts j = some b :=
    fun j b hjb => Connections.put_attempts_cases hjb
  refine ⟨fun j hj => ?_, fun j => ?_, h.same, ?_, ?_, fun j hj => ?_, ?_⟩
  · have hne : j ≠ k := by
      rintro rfl
      rw [h.fresh j hj] at ha
      cases ha
    exact (c.put_attempts_of_ne hne _).trans (h.fresh j hj)
  · refine iff_of_false (fun hnone => (nomatch hnone)) ?_
    rintro ⟨b, hb, hfinished⟩
    rcases hcases j b hb with ⟨-, rfl⟩ | ⟨hj, hb⟩
    · cases hfinished
    · have hother := (h.connecting j).mpr ⟨b, hb, hfinished⟩
      rw [hconnecting, Option.some.injEq] at hother
      exact hj hother.symm
  · intro j b hb hrun
    rcases hcases j b hb with ⟨-, rfl⟩ | ⟨-, hb⟩
    · cases hrun
    · exact h.quiet j b hb hrun
  · intro j b rest hb hs'
    rcases hcases j b hb with ⟨-, rfl⟩ | ⟨-, hb⟩
    · cases hs'
    · exact h.asserting j b rest hb hs'
  · obtain ⟨b, hb, hh⟩ := h.installed j hj
    by_cases hjk : j = k
    · subst hjk
      rw [ha, Option.some.injEq] at hb
      exact ⟨_, c.put_attempts_self j _, hb ▸ hh⟩
    · exact ⟨b, (c.put_attempts_of_ne hjk _).trans hb, hh⟩
  · intro j b hb hh
    rcases hcases j b hb with ⟨rfl, rfl⟩ | ⟨-, hb⟩
    · obtain ⟨hall, hok, hopen⟩ := h.hooked j a ha hh
      rw [hs] at hok
      exact ⟨hall, hok, hopen⟩
    · exact h.hooked j b hb hh

theorem Connections.Consistent.close (h : c.Consistent) {k : ℕ} {a : Attempt}
    (ha : c.attempts k = some a) (hopen : a.link = .open) : (c.close k a).Consistent := by
  have hput : (c.put k { a with link := .closed }).Consistent :=
    h.put ha rfl (fun hrun => hrun) rfl (fun _ => ⟨rfl, fun hlink => (nomatch hlink)⟩)
      fun rest hs => h.asserting k a rest ha hs
  unfold Connections.close
  split
  · next hh =>
    obtain ⟨-, -, hchannel⟩ := h.hooked k a ha hh
    refine ⟨hput.fresh, hput.connecting, rfl, fun _ _ _ _ => rfl, hput.asserting, ?_, ?_⟩
    · intro j hj
      cases hj
    · intro j b hb hh'
      obtain ⟨hall, hok, hlink⟩ := hput.hooked j b hb hh'
      refine ⟨hall, hok, fun hopen' => ?_⟩
      -- the channel that is installed is that of the connection that closes
      have hj : c.channel = some j := hlink hopen'
      rw [hchannel hopen, Option.some.injEq] at hj
      subst hj
      rcases Connections.put_attempts_cases hb with ⟨-, rfl⟩ | ⟨hne, -⟩
      · cases hopen'
      · exact absurd rfl hne
  · exact hput

/-- **Whatever happens keeps the fields consistent.** -/
theorem Happens.consistent {e : Event} (h : c.Consistent) (hhappens : Happens c e c') :
    c'.Consistent := by
  cases hhappens with
  | @dialed k a ha hs =>
    have hrun : a.stage.running = true := by rw [hs]; rfl
    exact h.put ha (by rw [hs]; rfl) (fun _ => hrun) rfl
      (fun hh => absurd hh (h.unhooked ha hrun)) fun rest hs => (nomatch hs)
  | @failed k a fault declared ha hrun hwait hlink hdeclared =>
    have hput : (c.put k { a with stage := .settled false }).Consistent := by
      refine h.put ha ?_ (fun hrun' => (nomatch hrun')) rfl
        (fun hh => absurd hh (h.unhooked ha hrun)) fun rest hs => (nomatch hs)
      cases hs : a.stage with
      | settled ok => rfl
      | finished ok => rw [hs] at hrun; cases hrun
      | _ => rfl
    exact hput.mono hdeclared c.sent
  | @opened k a ha hs hopen =>
    have hrun : a.stage.running = true := by rw [hs]; rfl
    refine h.put ha (by rw [hs]; rfl) (fun _ => hrun) rfl
      (fun hh => absurd hh (h.unhooked ha hrun)) ?_
    rintro rest hrest
    cases hrest
    exact ⟨[], rfl, List.nil_subset _⟩
  | @asserted k a d rest ha hs hopen =>
    obtain ⟨asserted, hsplit, hsub⟩ := h.asserting k a (d :: rest) ha hs
    have hmono := h.mono (List.subset_append_left c.declared [d]) c.sent
    have hrun : a.stage.running = true := by rw [hs]; rfl
    refine hmono.put ha (by rw [hs]; rfl) (fun _ => hrun) rfl
      (fun hh => absurd hh (h.unhooked ha hrun)) ?_
    rintro rest' hrest
    cases hrest
    refine ⟨asserted ++ [d], by rw [hsplit, List.append_assoc, List.singleton_append], ?_⟩
    exact List.append_subset.mpr ⟨List.Subset.trans hsub (List.subset_append_left _ _),
      List.subset_append_right _ _⟩
  | installed ha hs => exact h.install ha hs
  | finished ha hs => exact h.finish ha hs
  | closed ha hopen => exact h.close ha hopen
  | declared d => exact h.mono (List.subset_append_left _ _) c.sent
  | routed hm hnone => exact h.mono (List.Subset.refl _) _
  | confirmed hm hnone hack => exact h.mono (List.Subset.refl _) _

theorem Steps.consistent {r : Request} {pc pc' : Pc} (h : c.Consistent)
    (hsteps : Steps c r pc c' pc') : c'.Consistent := by
  cases hsteps with
  | began hchannel hconnecting => exact h.begin hchannel hconnecting
  | sent hchannel hopen => exact h.mono (List.Subset.refl _) _
  | _ => exact h

/-- **The fields are consistent in every reachable state.** -/
theorem consistent_of_reachable {s : Calls.State Connections Request Pc}
    (hs : system.Reachable s) : s.shared.Consistent :=
  Calls.shared_invariant (fun _ h0 => h0.consistent)
    (fun _ _ _ h he => (environment_cases he).consistent h)
    (fun _ _ _ _ _ _ h hadv => (advance_cases hadv).consistent h) hs

end Invariant

/-! ### Messages -/

/-- Attempts stay, and so do messages; a positive confirm is final. -/
structure Connections.Evolves (c c' : Connections) : Prop where
  attempts : ∀ k, c.attempts k ≠ none → c'.attempts k ≠ none
  sent : ∀ (u : ℕ) (m : Sent), c.sent[u]? = some m →
    ∃ m' : Sent, c'.sent[u]? = some m' ∧ m'.record = m.record ∧
      (m.confirmed = some true → m'.confirmed = some true)

section Messages

variable {c c' : Connections}

theorem Connections.Evolves.of_eq (hattempts : ∀ k, c.attempts k ≠ none → c'.attempts k ≠ none)
    (hsent : c'.sent = c.sent) : c.Evolves c' :=
  ⟨hattempts, fun _ m hm => ⟨m, hsent ▸ hm, rfl, fun h => h⟩⟩

theorem Connections.put_ne_none {k j : ℕ} {a : Attempt} (h : c.attempts j ≠ none) :
    (c.put k a).attempts j ≠ none := by
  by_cases hj : j = k
  · rw [hj, c.put_attempts_self]
    exact Option.some_ne_none _
  · rwa [c.put_attempts_of_ne hj]

/-- A message that is replaced by a later version of itself. -/
theorem Connections.Evolves.set {u : ℕ} {m m' : Sent} (hm : c.sent[u]? = some m)
    (hrecord : m'.record = m.record) (hconfirmed : m.confirmed = some true →
      m'.confirmed = some true) : c.Evolves { c with sent := c.sent.set u m' } := by
  refine ⟨fun _ h => h, fun v n hn => ?_⟩
  obtain ⟨hlt, -⟩ := List.getElem?_eq_some_iff.mp hm
  by_cases hv : u = v
  · subst hv
    rw [hm, Option.some.injEq] at hn
    subst hn
    exact ⟨m', List.getElem?_set_self hlt, hrecord, hconfirmed⟩
  · exact ⟨n, by rw [List.getElem?_set_ne hv, hn], rfl, fun h => h⟩

theorem Happens.evolves {e : Event} (h : Happens c e c') : c.Evolves c' := by
  cases h with
  | closed ha hopen =>
    unfold Connections.close
    split
    · exact .of_eq (fun _ => Connections.put_ne_none) rfl
    · exact .of_eq (fun _ => Connections.put_ne_none) rfl
  | declared d => exact .of_eq (fun _ h => h) rfl
  | routed hm hnone => exact .set hm rfl fun h => h
  | confirmed hm hnone hack =>
    refine .set hm rfl fun h => ?_
    rw [hnone] at h
    cases h
  | _ => exact .of_eq (fun _ => Connections.put_ne_none) rfl

theorem Steps.evolves {r : Request} {pc pc' : Pc} (h : Steps c r pc c' pc') : c.Evolves c' := by
  cases h with
  | began hchannel hconnecting => exact .of_eq (fun _ => Connections.put_ne_none) rfl
  | sent hchannel hopen =>
    refine ⟨fun _ h => h, fun u m hm => ⟨m, ?_, rfl, fun h => h⟩⟩
    obtain ⟨hlt, -⟩ := List.getElem?_eq_some_iff.mp hm
    exact (List.getElem?_append_left hlt).trans hm
  | _ => exact .of_eq (fun _ h => h) rfl

/-- What has been sent has found everything declared, and what is confirmed is in the queues it
is for. -/
structure Connections.Delivered (c : Connections) : Prop where
  declared : c.sent ≠ [] → declarations ⊆ c.declared
  routed : ∀ m ∈ c.sent, ∀ queues, m.routed = some queues →
    route .events (routingKeyFor m.record.type) ⊆ queues
  confirmed : ∀ m ∈ c.sent, m.confirmed = some true → m.routed.isSome = true

theorem Connections.Delivered.of_eq (h : c.Delivered) (hdeclared : c.declared ⊆ c'.declared)
    (hsent : c'.sent = c.sent) : c'.Delivered where
  declared hne := List.Subset.trans (h.declared (hsent ▸ hne)) hdeclared
  routed m hm := h.routed m (hsent ▸ hm)
  confirmed m hm := h.confirmed m (hsent ▸ hm)

theorem Happens.delivered {e : Event} (h : c.Delivered) (hhappens : Happens c e c') :
    c'.Delivered := by
  cases hhappens with
  | closed ha hopen =>
    unfold Connections.close
    split
    · exact h.of_eq (List.Subset.refl _) rfl
    · exact h.of_eq (List.Subset.refl _) rfl
  | failed ha hrun hwait hlink hdeclared => exact h.of_eq hdeclared rfl
  | asserted ha hs hopen => exact h.of_eq (List.subset_append_left _ _) rfl
  | declared d => exact h.of_eq (List.subset_append_left _ _) rfl
  | @routed u m hm hnone =>
    have hmem := List.mem_of_getElem? hm
    have hall := h.declared (List.ne_nil_of_mem hmem)
    refine ⟨fun _ => hall, fun n hn queues hqueues => ?_, fun n hn hconfirmed => ?_⟩
    · rcases List.mem_or_eq_of_mem_set hn with hold | rfl
      · exact h.routed n hold queues hqueues
      · cases hqueues
        exact route_subset_of_declared (fun d hd => hall hd) _ _
    · rcases List.mem_or_eq_of_mem_set hn with hold | rfl
      · exact h.confirmed n hold hconfirmed
      · rfl
  | @confirmed u m ack hm hnone hack =>
    have hmem := List.mem_of_getElem? hm
    refine ⟨fun _ => h.declared (List.ne_nil_of_mem hmem), fun n hn => ?_,
      fun n hn hconfirmed => ?_⟩
    · rcases List.mem_or_eq_of_mem_set hn with hold | rfl
      · exact h.routed n hold
      · exact h.routed m hmem
    · rcases List.mem_or_eq_of_mem_set hn with hold | rfl
      · exact h.confirmed n hold hconfirmed
      · exact hack (Option.some.inj hconfirmed)
  | _ => exact h.of_eq (List.Subset.refl _) rfl

theorem Steps.delivered {r : Request} {pc pc' : Pc} (hc : c.Consistent) (h : c.Delivered)
    (hsteps : Steps c r pc c' pc') : c'.Delivered := by
  cases hsteps with
  | began hchannel hconnecting => exact h.of_eq (List.Subset.refl _) rfl
  | @sent record pc k hchannel hopen =>
    obtain ⟨a, ha, hh⟩ := hc.installed k hchannel
    refine ⟨fun _ => (hc.hooked k a ha hh).1, fun m hm => ?_, fun m hm hconfirmed => ?_⟩
    · rcases List.mem_append.mp hm with hold | hnew
      · exact h.routed m hold
      · rw [List.mem_singleton.mp hnew]
        intro queues hqueues
        cases hqueues
    · rcases List.mem_append.mp hm with hold | hnew
      · exact h.confirmed m hold hconfirmed
      · rw [List.mem_singleton.mp hnew] at hconfirmed
        cases hconfirmed
  | _ => exact h

theorem delivered_of_reachable {s : Calls.State Connections Request Pc}
    (hs : system.Reachable s) : s.shared.Delivered := by
  have hboth : s.shared.Consistent ∧ s.shared.Delivered := by
    refine Calls.shared_invariant (I := fun c => c.Consistent ∧ c.Delivered) ?_ ?_ ?_ hs
    · intro c h0
      refine ⟨h0.consistent, ?_⟩
      obtain ⟨-, -, -, -, -, hsent⟩ := h0
      refine ⟨fun hne => absurd hsent hne, fun m hm => ?_, fun m hm => ?_⟩
      · rw [hsent] at hm
        cases hm
      · rw [hsent] at hm
        cases hm
    · intro c e c' h he
      have hhappens := environment_cases he
      exact ⟨hhappens.consistent h.1, hhappens.delivered h.2⟩
    · intro c u r pc c' pc' h hadv
      have hsteps := advance_cases hadv
      exact ⟨hsteps.consistent h.1, hsteps.delivered h.1 h.2⟩
  exact hboth.2

/-! ### What a call knows -/

/-- What a call knows where it stands: the attempt it waits for is there, and so is the message
of a publish. -/
def Pc.Knows (c : Connections) : Request → Pc → Prop
  | _, .waiting k => c.attempts k ≠ none
  | .publish record, .confirming own messages =>
    own ∈ messages ∧ ∃ m : Sent, c.sent[own]? = some m ∧ m.record = record
  | .publish _, .checking _ => False
  | .publish record, .resolved =>
    ∃ (own : ℕ) (m : Sent), c.sent[own]? = some m ∧ m.record = record ∧
      m.confirmed = some true
  | _, _ => True

theorem Pc.Knows.mono {r : Request} {pc : Pc} (h : pc.Knows c r) (hev : c.Evolves c') :
    pc.Knows c' r := by
  unfold Pc.Knows at h ⊢
  split
  · exact hev.attempts _ h
  · obtain ⟨hown, m, hm, hrecord⟩ := h
    obtain ⟨m', hm', hrecord', -⟩ := hev.sent _ m hm
    exact ⟨hown, m', hm', hrecord'.trans hrecord⟩
  · exact h
  · obtain ⟨own, m, hm, hrecord, hconfirmed⟩ := h
    obtain ⟨m', hm', hrecord', hkeep⟩ := hev.sent _ m hm
    exact ⟨own, m', hm', hrecord'.trans hrecord, hkeep hconfirmed⟩
  · trivial

/-- A record is among the messages of its channel that are not confirmed. -/
theorem mem_unconfirmed_send (c : Connections) (k : ℕ) (record : LeasedOutboxEvent) :
    c.sent.length ∈ (c.send k record).unconfirmed k := by
  unfold Connections.unconfirmed Connections.send
  rw [List.mem_filter, List.mem_range]
  simp

/-- **One step of a call establishes what it knows next.** -/
theorem Steps.knows {r : Request} {pc pc' : Pc} (hc : c.Consistent) (h : pc.Knows c r)
    (hsteps : Steps c r pc c' pc') : pc'.Knows c' r := by
  cases hsteps with
  | began hchannel hconnecting =>
    show c.begin.attempts c.next ≠ none
    rw [c.begin_attempts_self]
    exact Option.some_ne_none _
  | joined hchannel hconnecting =>
    obtain ⟨a, ha, -⟩ := (hc.connecting _).mp hconnecting
    show c.attempts _ ≠ none
    rw [ha]
    exact Option.some_ne_none _
  | sent hchannel hopen =>
    exact ⟨mem_unconfirmed_send c _ _, _, List.getElem?_concat_length, rfl⟩
  | @confirmed r own messages hall =>
    cases r with
    | publish record =>
      obtain ⟨hown, m, hm, hrecord⟩ := h
      have hack := hall own hown
      simp only [Connections.confirmedAs, hm, Option.any_some, decide_eq_true_eq] at hack
      exact ⟨own, m, hm, hrecord, hack⟩
    | _ => trivial
  | @checked r k =>
    cases r with
    | publish record => exact h.elim
    | _ => trivial
  | quiet hwait hconfirm hpublish =>
    cases pc' with
    | waiting k => exact absurd rfl (hwait k)
    | confirming own messages => exact absurd rfl (hconfirm own messages)
    | checking k =>
      cases r with
      | publish record => exact absurd rfl ((hpublish record rfl).2 k)
      | _ => trivial
    | resolved =>
      cases r with
      | publish record => exact absurd rfl (hpublish record rfl).1
      | _ => trivial
    | _ => trivial

/-- What a call knows is true in every reachable state. -/
theorem knows_of_reachable {s : Calls.State Connections Request Pc} (hs : system.Reachable s)
    {i : ℕ} {r : Request} {pc : Pc} (hcall : s.calls i = some ⟨r, pc⟩) :
    pc.Knows s.shared r := by
  refine Calls.call_invariant (J := fun c r pc => pc.Knows c r) ?_ ?_ ?_ hs hcall
  · intro s r _
    cases r <;> trivial
  · intro s u r pc c' pc' hs h hadv
    exact (advance_cases hadv).knows (consistent_of_reachable hs) h
  · intro s a s' r pc _ hstep h
    rcases Calls.shared_of_step hstep with ⟨e, he⟩ | hsame | ⟨u, r', pc₁, pc₂, hadv⟩
    · exact h.mono (environment_cases he).evolves
    · rwa [hsame]
    · exact h.mono (advance_cases hadv).evolves

end Messages

/-! ### The properties -/

/-- **One attempt, and one channel.**  In every reachable state, however the calls, the replies
and the closes interleave: no two attempts to connect run, and none runs while a channel is
installed; whoever waits, waits for an attempt that is over or that is the one in `connecting`;
the installed channel is that of `connection`, its handler is registered and everything is
declared; and the close of any other connection leaves it alone. -/
theorem publisher_consistent {s : Calls.State Connections Request Pc} (hs : system.Reachable s) :
    (∀ k j a b, s.shared.attempts k = some a → s.shared.attempts j = some b →
      a.stage.running = true → b.stage.running = true → k = j ∧ s.shared.channel = none) ∧
    (∀ i r k, s.calls i = some ⟨r, .waiting k⟩ → ∃ a, s.shared.attempts k = some a ∧
      (a.stage.isFinished = true ∨ s.shared.connecting = some k)) ∧
    (∀ k, s.shared.channel = some k → s.shared.connection = some k ∧
      declarations ⊆ s.shared.declared ∧ ∃ a, s.shared.attempts k = some a ∧ a.hooked = true) ∧
    ∀ k s', Calls.step machine environment s (.environment (.close k)) = some s' →
      s.shared.channel ≠ some k → s'.shared.channel = s.shared.channel := by
  have hc := consistent_of_reachable hs
  refine ⟨fun k j a b ha hb hrun hrun' => ⟨hc.single ha hb hrun hrun', hc.quiet k a ha hrun⟩,
    fun i r k hcall => ?_, fun k hk => ?_, fun k s' hstep hne => ?_⟩
  · obtain ⟨a, ha⟩ := Option.ne_none_iff_exists'.mp (knows_of_reachable hs hcall)
    refine ⟨a, ha, ?_⟩
    cases hfinished : a.stage.isFinished with
    | true => exact .inl rfl
    | false => exact .inr ((hc.connecting k).mpr ⟨a, ha, hfinished⟩)
  · obtain ⟨a, ha, hh⟩ := hc.installed k hk
    exact ⟨hc.same.trans hk, (hc.hooked k a ha hh).1, a, ha, hh⟩
  · obtain ⟨c', he, rfl⟩ := Option.map_eq_some_iff.mp hstep
    cases environment_cases he with
    | @closed k a ha hopen =>
      show (s.shared.close k a).channel = _
      unfold Connections.close
      split
      · next hh => exact absurd ((hc.hooked k a ha hh).2.2 hopen) hne
      · rfl

/-- Both publishes wait for attempt `0`. -/
theorem sample_publisher_consistent : ∃ s, system.exec sample twoPublishes = some s ∧
    s.calls 1 = some ⟨.publish sampleRecord, .waiting 0⟩ ∧
    ∃ a, s.shared.attempts 0 = some a ∧
      (a.stage.isFinished = true ∨ s.shared.connecting = some 0) := by
  have hrun : (system.exec sample twoPublishes).map (fun s => s.calls 1) =
      some (some ⟨.publish sampleRecord, .waiting 0⟩) := rfl
  obtain ⟨s, hs, hcall⟩ := Option.map_eq_some_iff.mp hrun
  exact ⟨s, hs, hcall, (publisher_consistent (sample_reachable.exec hs)).2.1 1 _ 0 hcall⟩

/-- **A publish that is answered has been put into all its queues**: the queue of every consumer
bound to its routing key. -/
theorem publish_confirmed {s : Calls.State Connections Request Pc} (hs : system.Reachable s)
    {i : ℕ} {record : LeasedOutboxEvent}
    (hcall : s.calls i = some ⟨.publish record, .resolved⟩) :
    ∃ m ∈ s.shared.sent, m.record = record ∧ ∃ queues, m.routed = some queues ∧
      ∀ name : ConsumerName, name.bound (routingKeyFor record.type) = true →
        .main name ∈ queues := by
  obtain ⟨own, m, hm, rfl, hconfirmed⟩ := knows_of_reachable hs hcall
  have hdelivered := delivered_of_reachable hs
  have hmem := List.mem_of_getElem? hm
  obtain ⟨queues, hqueues⟩ := Option.isSome_iff_exists.mp (hdelivered.confirmed m hmem hconfirmed)
  refine ⟨m, hmem, rfl, queues, hqueues, fun name hname => ?_⟩
  exact hdelivered.routed m hmem queues hqueues (mem_route_events_iff.mpr ⟨name, rfl, hname⟩)

/-- The first publish sends its event, which the broker routes and confirms. -/
def publishRun : List (Calls.Action Event Unit Request) :=
  twoPublishes ++ allReplies ++ [.environment (.resume 0), .environment (.resume 0),
    .advance 0 (), .environment (.route 0), .environment (.confirm 0 true), .advance 0 ()]

/-- The event of the order is in both queues. -/
theorem sample_publish_confirmed : ∃ s, system.exec sample publishRun = some s ∧
    ∃ m ∈ s.shared.sent, m.record = sampleRecord ∧ ∃ queues, m.routed = some queues ∧
      .main .notification ∈ queues ∧ .main .audit ∈ queues := by
  have hrun : (system.exec sample publishRun).map (fun s => s.calls 0) =
      some (some ⟨.publish sampleRecord, .resolved⟩) := rfl
  obtain ⟨s, hs, hcall⟩ := Option.map_eq_some_iff.mp hrun
  obtain ⟨m, hm, hrecord, queues, hqueues, hall⟩ :=
    publish_confirmed (sample_reachable.exec hs) hcall
  exact ⟨s, hs, m, hm, hrecord, queues, hqueues, hall _ (by decide), hall _ (by decide)⟩

end RabbitPublisherService

end ScaleForge
