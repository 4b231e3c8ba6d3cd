import ScaleForge.HandlerProgress
import ScaleForge.RetryTermination

/-!
# The consumers drain

Once publishers are silent, no worker dies and nothing fails on its own account, the
queues of the consumers run empty: whatever is under way comes to its end, and one
message after another is delivered, or expires and comes back.  A message that its
handler can process is then processed, whatever its retry count, and everything else
ends as a dead letter.

## Main definitions

* `steady` — the steps in which nothing goes wrong.
* `ConsumersWorld.Quiet` — nothing is under way.
* `Processable` — the messages the handler of a consumer can process.

## Main results

* `exists_quiet` — what is under way comes to its end.
* `exists_processed` — a message that can be processed is.
* `consumers_drain` — **every message is handled or ends as a dead letter, and those that
  can be processed are handled.**
-/

namespace ScaleForge

open RabbitConsumersService Transition

variable {u : UuidSyntax}

/-! ### The steps -/

/-- Nothing is published, no worker dies, and nothing fails on its own account. -/
def steady (w : ConsumersWorld) (a : ConsumersAction) : Bool :=
  match a with
  | .environment (.publish _ _ _) => false
  | .environment (.expire _ _) => true
  | .environment (.effects a) => calm w.shared.effects a
  | .request _ _ => true
  | .advance _ c => !c.crashes && !c.fails

/-- The runs in which nothing goes wrong. -/
abbrev steadySystem (u : UuidSyntax) : Sys ConsumersWorld ConsumersAction :=
  (consumersSystem u).restrict steady

/-- A step that succeeds, at the position or under the number `n`. -/
def ConsumeChoice.steady (n : ℕ) : ConsumeChoice := ⟨false, n, false, [], false, .other⟩

/-- No handler call and no delivery is under way. -/
structure ConsumersWorld.Quiet (w : ConsumersWorld) : Prop where
  effects : w.shared.effects.Quiet
  idle : ∀ i r pc, w.calls i = some ⟨r, pc⟩ → pc.opened = none

/-- The state with other handler calls. -/
def ConsumersWorld.withEffects (w : ConsumersWorld) (e : EffectWorld) : ConsumersWorld :=
  { w with shared := { w.shared with effects := e } }

theorem step_effects {w : ConsumersWorld} {a : EffectAction} {e : EffectWorld}
    (ha : calm w.shared.effects a = true) (h : (effectSystem u).step w.shared.effects a = some e) :
    (steadySystem u).step w (.environment (.effects a)) = some (w.withEffects e) := by
  refine Sys.restrict_step_iff.mpr ⟨ha, ?_⟩
  cases a with
  | environment env => cases ha
  | request i r => cases ha
  | advance i c =>
    show ((((effectSystem u).step w.shared.effects (.advance i c)).map
      fun e => { w.shared with effects := e }).map fun d => { w with shared := d }) = _
    rw [h]
    rfl

/-- Statements of the handlers are steps of the consumers. -/
theorem exec_effects {w : ConsumersWorld} {as : List EffectAction} {e : EffectWorld}
    (h : ((effectSystem u).restrict calm).exec w.shared.effects as = some e) :
    (steadySystem u).exec w (as.map fun a => .environment (.effects a)) =
      some (w.withEffects e) := by
  have hsim := Sys.exec_sim (T := steadySystem u) (R := fun e v => v = w.withEffects e)
    (f := fun a => .environment (.effects a)) ?_ (rfl : w = w.withEffects _) h
  · obtain ⟨v, hrun, rfl⟩ := hsim
    exact hrun
  · rintro e a e' v - rfl hstep
    obtain ⟨ha, hplain⟩ := Sys.restrict_step_iff.mp hstep
    exact ⟨_, step_effects (w := w.withEffects e) ha hplain, rfl⟩

/-- A call that is enabled goes on. -/
theorem step_steady {w : ConsumersWorld} {i n : ℕ} {r : ConsumerName} {pc : ConsumePc}
    {q : ConsumersState × ConsumePc} (hcall : w.calls i = some ⟨r, pc⟩)
    (h : advanceConsume u w.shared (.steady n) r pc = some q) :
    (steadySystem u).step w (.advance i (.steady n)) = some (w.move i r q.1 q.2) :=
  Sys.restrict_step_iff.mpr ⟨rfl, Calls.step_advance hcall h⟩

/-! ### What is under way comes to its end -/

/-- The work left of a call, when its delivery may still be rejected. -/
def ConsumePc.load : ConsumePc → ℕ
  | unpublished _ m => 1 + fanout * mainWork m
  | pc => pc.work

/-- The work of the messages and of the calls with numbers in `I`. -/
def totalLoad (I : Finset ℕ) (w : ConsumersWorld) : ℕ :=
  backlog w.shared.broker + w.total ConsumePc.load I

theorem backlog_requeue {b : Broker Queue Message} {tag : ℕ} {r : ConsumerName} {m : Message}
    {how : Closing} (h : b.Unacked tag (.main r) m) :
    backlog (b.requeue tag how) ≤ backlog b + fanout * mainWork m := by
  rw [Broker.requeue_eq h.1]
  have hmain : ((b.close tag how).enqueue [.main r] m).load mainWork mainQueues ≤
      b.load mainWork mainQueues + fanout * mainWork m := Broker.load_enqueue_le
  have hretry : ((b.close tag how).enqueue [.main r] m).load retryWork retryQueues =
      b.load retryWork retryQueues := by
    refine Broker.load_enqueue_of_not fun q hq hmem => ?_
    exact not_main_of_retry hq r (List.mem_singleton.mp hmem)
  unfold backlog
  omega

/-- **A steady step of a call lowers the work left.** -/
theorem load_of_advance {s s' : ConsumersState} {c : ConsumeChoice} {r : ConsumerName}
    {pc pc' : ConsumePc} (h : ConsumeStep u s c r pc s' pc') (hcrash : c.crashes = false)
    (hfails : c.fails = false)
    (hunacked : ∀ tag m, pc.opened = some (tag, m) → s.broker.Unacked tag (.main r) m) :
    backlog s'.broker + pc'.load + 1 ≤ backlog s.broker + pc.load := by
  by_cases hpublished : ∃ tag m, pc = .unpublished tag m
  · obtain ⟨tag, m, rfl⟩ := hpublished
    cases h with
    | lost hlost _ =>
      rw [hcrash] at hlost
      cases hlost
    | nacked tag m =>
      have hbacklog : backlog (s.broker.requeue tag .nack) ≤ _ :=
        backlog_requeue (hunacked tag m rfl)
      simp only [ConsumePc.load, ConsumePc.work]
      omega
  · have hwork := work_of_advance h hcrash (fun _ _ _ _ => hfails)
      fun tag m heq => hpublished ⟨tag, m, heq⟩
    have hbefore : pc.load = pc.work := by
      cases pc with
      | unpublished tag m => exact absurd ⟨tag, m, rfl⟩ hpublished
      | _ => rfl
    have hafter : pc'.load = pc'.work := by
      cases h with
      | unpublished tag m error hfailed _ =>
        rw [hfails] at hfailed
        cases hfailed
      | _ => rfl
    rw [hbefore, hafter]
    exact hwork

/-- Some number is free for another handler call. -/
theorem exists_request {w : EffectWorld} (hw : (effectSystem u).Reachable w) (call : EffectCall) :
    ∃ j, (effectSystem u).step w (.request j call) = some (w.move j call w.shared .start) := by
  obtain ⟨j, hj⟩ := Calls.exists_fresh hw
  exact ⟨j, Calls.step_request hj⟩

/-- **Whatever is under way goes on**, once the handlers have come to their ends. -/
theorem exists_advance {w : ConsumersWorld} (hw : (consumersSystem u).Reachable w)
    (hquiet : w.shared.effects.Quiet) {i : ℕ} {r : ConsumerName} {pc : ConsumePc}
    (hcall : w.calls i = some ⟨r, pc⟩) (hopen : pc.opened ≠ none) :
    ∃ n q, advanceConsume u w.shared (.steady n) r pc = some q := by
  have henabled : ∀ n, (advanceConsume u w.shared (.steady n) r pc).isSome = true →
      ∃ n q, advanceConsume u w.shared (.steady n) r pc = some q :=
    fun n h => ⟨n, Option.isSome_iff_exists.mp h⟩
  cases pc with
  | delivered tag m =>
    cases hread : readEvent m .other with
    | error thrown =>
      refine henabled 0 ?_
      simp [advanceConsume, ConsumeChoice.steady, hread]
    | ok event =>
      cases hhandle : handle r event with
      | none =>
        refine henabled 0 ?_
        simp [advanceConsume, ConsumeChoice.steady, hread, hhandle]
      | some call =>
        obtain ⟨j, hj⟩ := exists_request (effects_reachable hw) call
        refine henabled j ?_
        simp [advanceConsume, ConsumeChoice.steady, hread, hhandle, hj]
  | handling tag m j =>
    -- the handler has returned or thrown
    obtain ⟨event, call, -, -, pc', hj⟩ := consume_ok hw hcall
    have hfinished := hquiet.calls j call pc' hj
    refine henabled 0 ?_
    cases pc' with
    | returned result =>
      cases result with
      | audited fresh => simp [advanceConsume, ConsumeChoice.steady, hj]
      | delivery id => cases id <;> simp [advanceConsume, ConsumeChoice.steady, hj]
    | thrown => simp [advanceConsume, ConsumeChoice.steady, hj]
    | _ => cases hfinished
  | waiting => exact absurd rfl hopen
  | done m outcome => exact absurd rfl hopen
  | _ => exact henabled 0 (by simp [advanceConsume, ConsumeChoice.steady])

/-- Every message is still in the queue it was in. -/
def ConsumersWorld.Keeps (w w' : ConsumersWorld) : Prop :=
  ∀ q, w.shared.broker.queues q ⊆ w'.shared.broker.queues q

theorem keeps_of_advance {s s' : ConsumersState} {c : ConsumeChoice} {r : ConsumerName}
    {pc pc' : ConsumePc} (h : ConsumeStep u s c r pc s' pc') (hopen : pc.opened ≠ none) :
    ∀ q, s.broker.queues q ⊆ s'.broker.queues q := by
  have hrequeue : ∀ tag how q, s.broker.queues q ⊆ (s.broker.requeue tag how).queues q := by
    intro tag how q m hm
    unfold Broker.requeue
    split
    · exact hm
    · exact Broker.mem_enqueue_of_mem hm
  intro q
  cases h with
  | lost hcrash hlost => exact hrequeue _ _ q
  | delivered hm => exact absurd rfl hopen
  | unpublished tag m error hfails hqs => exact fun m hm => Broker.mem_enqueue_of_mem hm
  | published tag m error => exact fun m hm => Broker.mem_enqueue_of_mem hm
  | nacked tag m => exact hrequeue _ _ q
  | _ => exact List.Subset.refl _

/-- The delivery of a call whose load is not zero is open. -/
theorem opened_of_load {pc : ConsumePc} (h : pc.load ≠ 0) : pc.opened ≠ none := by
  cases pc with
  | waiting => exact absurd rfl h
  | done m outcome => exact absurd rfl h
  | _ => nofun

theorem load_of_opened {pc : ConsumePc} (h : pc.opened ≠ none) : pc.load ≠ 0 := by
  cases pc with
  | waiting => exact absurd rfl h
  | done m outcome => exact absurd rfl h
  | _ => simp [ConsumePc.load, ConsumePc.work]

theorem quiet_of_total {w : ConsumersWorld} {I : Finset ℕ} (heffects : w.shared.effects.Quiet)
    (hI : ∀ i, w.calls i ≠ none → i ∈ I) (h : w.total ConsumePc.load I = 0) : w.Quiet := by
  refine ⟨heffects, fun i r pc hcall => ?_⟩
  by_contra hopen
  have hi : i ∈ I := hI i (by rw [hcall]; exact Option.some_ne_none _)
  exact load_of_opened hopen (Calls.eq_zero_of_total h hi hcall)

/-- A call goes on, and the handlers come to their ends. -/
theorem exists_lower {w : ConsumersWorld} (hw : (consumersSystem u).Reachable w)
    (hquiet : w.shared.effects.Quiet) {I : Finset ℕ} (hI : ∀ i, w.calls i ≠ none → i ∈ I)
    (hload : w.total ConsumePc.load I ≠ 0) :
    ∃ as w', (steadySystem u).exec w as = some w' ∧ w'.shared.effects.Quiet ∧ w.Keeps w' ∧
      (∀ i, w.calls i = none ↔ w'.calls i = none) ∧ totalLoad I w' < totalLoad I w := by
  obtain ⟨i, r, pc, hcall, hpc⟩ := Calls.exists_of_total_ne_zero hload
  have hopen := opened_of_load hpc
  obtain ⟨n, ⟨s', pc'⟩, hadv⟩ := exists_advance hw hquiet hcall hopen
  have hmoved : ConsumeStep u w.shared (.steady n) r pc s' pc' := consumeStep_of_advance hadv
  have hkeeps : ∀ q, w.shared.broker.queues q ⊆ s'.broker.queues q := keeps_of_advance hmoved hopen
  have hstep := step_steady hcall hadv
  set v := w.move i r s' pc' with hv
  have hv' : (consumersSystem u).Reachable v := hw.step (Sys.restrict_step_iff.mp hstep).2
  obtain ⟨as, e, hrun, he, -⟩ := exists_calm_run (effects_reachable hv')
  refine ⟨.advance i (.steady n) :: as.map fun a => .environment (.effects a),
    ConsumersWorld.withEffects v e, ?_, he, hkeeps, fun j => ?_, ?_⟩
  · rw [Sys.exec_cons, hstep, Option.bind_some, exec_effects hrun]
  · show _ ↔ (w.move i r s' pc').calls j = none
    by_cases hj : j = i
    · rw [hj, Calls.move_calls_self, hcall]
      simp
    · rw [Calls.move_calls_of_ne w hj]
  · have hlower := load_of_advance hmoved rfl rfl fun tag m h => unacked_of_opened hw hcall h
    have hi : i ∈ I := hI i (by rw [hcall]; exact Option.some_ne_none _)
    have htotal := Calls.total_move hi ConsumePc.load r s' pc' (s := w)
    rw [hcall, Option.elim_some] at htotal
    show backlog s'.broker + v.total ConsumePc.load I < _
    unfold totalLoad
    rw [← hv] at htotal
    dsimp only at hlower htotal
    omega

/-- A run from `w` has come to `v`: no handler call is under way, no message has left its queue,
no worker has arrived, and the load is `n`. -/
structure ConsumersWorld.Settles (u : UuidSyntax) (w : ConsumersWorld) (I : Finset ℕ)
    (v : ConsumersWorld) (n : ℕ) : Prop where
  reachable : (consumersSystem u).Reachable v
  effects : v.shared.effects.Quiet
  keeps : w.Keeps v
  calls : ∀ i, w.calls i = none ↔ v.calls i = none
  load : totalLoad I v = n
  le : n ≤ totalLoad I w

section Settles

variable {w v : ConsumersWorld} {I : Finset ℕ} {n : ℕ}

theorem ConsumersWorld.Settles.cover (h : w.Settles u I v n)
    (hI : ∀ i, w.calls i ≠ none → i ∈ I) (i : ℕ) (hi : v.calls i ≠ none) : i ∈ I :=
  hI i fun hnone => hi ((h.calls i).mp hnone)

theorem ConsumersWorld.Settles.step (h : w.Settles u I v n)
    (hI : ∀ i, w.calls i ≠ none → i ∈ I) : v.total ConsumePc.load I = 0 ∨
      ∃ as v' m, (steadySystem u).exec v as = some v' ∧ m < n ∧ w.Settles u I v' m := by
  refine or_iff_not_imp_left.mpr fun hload => ?_
  obtain ⟨as, v', hrun, hquiet, hkeeps, hsame, hlt⟩ :=
    exists_lower h.reachable h.effects (h.cover hI) hload
  rw [h.load] at hlt
  exact ⟨as, v', _, hrun, hlt, h.reachable.exec (Sys.exec_of_restrict hrun), hquiet,
    fun q _ hm => hkeeps q (h.keeps q hm), fun i => (h.calls i).trans (hsame i), rfl,
    hlt.le.trans h.le⟩

end Settles

/-- **What is under way comes to its end**, and no message leaves its queue. -/
theorem exists_quiet {w : ConsumersWorld} (hw : (consumersSystem u).Reachable w) {I : Finset ℕ}
    (hI : ∀ i, w.calls i ≠ none → i ∈ I) :
    ∃ as w', (steadySystem u).exec w as = some w' ∧ w'.Quiet ∧ w.Keeps w' ∧
      backlog w'.shared.broker ≤ totalLoad I w := by
  -- the handlers first
  obtain ⟨as, e, hrun, he, -⟩ := exists_calm_run (effects_reachable hw)
  have hfirst := exec_effects hrun
  have hstart : w.Settles u I (w.withEffects e) (totalLoad I w) :=
    ⟨hw.exec (Sys.exec_of_restrict hfirst), he, fun _ => List.Subset.refl _, fun _ => Iff.rfl, rfl,
      Nat.le_refl _⟩
  obtain ⟨bs, w', n, hrun', hdone, hw'⟩ :=
    Sys.exists_exec (fun v n (h : w.Settles u I v n) => h.step hI) hstart
  refine ⟨as.map (fun a => .environment (.effects a)) ++ bs, w', ?_,
    quiet_of_total hw'.effects (hw'.cover hI) hdone, hw'.keeps, ?_⟩
  · rw [Sys.exec_append, hfirst, Option.bind_some, hrun']
  · have hload := hw'.load
    have hle := hw'.le
    unfold totalLoad at hload hle ⊢
    omega

/-! ### One message -/

/-- The handler of the consumer can process the message: it holds an event, and if the
handler inserts a row for it, then the identifier and the values fit. -/
def Processable (u : UuidSyntax) (c : ConsumerName) (m : Message) : Prop :=
  ∃ event, m.content = some event ∧ wellFormed event = true ∧
    ∀ call, handle c event = some call → ∃ e, call.HasId u e ∧ call.Fits u

theorem Processable.copy {c : ConsumerName} {m m' : Message} (h : Processable u c m)
    (hcopy : m'.CopyOf m) : Processable u c m' := by
  obtain ⟨event, hcontent, hrest⟩ := h
  exact ⟨event, hcopy.2.trans hcontent, hrest⟩

/-- The last attempt is as good as the first. -/
example : Processable .sample .audit
    ⟨0, some sampleEvent, "order.created", some 3, none, none⟩ := by
  refine ⟨sampleEvent, rfl, by decide, fun call hcall => ?_⟩
  cases hcall
  refine ⟨Uuid.repeated 7, ?_, fun id now => rfl⟩
  show UuidSyntax.sample.ofJson _ = _
  decide

theorem readEvent_of_wellFormed {m : Message} {event : Json} {thrown : Thrown}
    (hcontent : m.content = some event) (h : wellFormed event = true) :
    readEvent m thrown = .ok event := by
  unfold readEvent
  rw [hcontent]
  cases event with
  | null => cases h
  | _ => simp [h]

/-- Only this call may have an open delivery. -/
def ConsumersWorld.Alone (w : ConsumersWorld) (i : ℕ) : Prop :=
  w.shared.effects.Quiet ∧ ∀ j r pc, j ≠ i → w.calls j = some ⟨r, pc⟩ → pc.opened = none

/-- From here the call handles the message, and nothing else happens. -/
def ConsumersWorld.Handles (u : UuidSyntax) (w : ConsumersWorld) (i : ℕ) (c : ConsumerName)
    (m : Message) : Prop :=
  ∃ as w', (steadySystem u).exec w as = some w' ∧ w'.Quiet ∧
    w'.calls i = some ⟨c, .done m .handled⟩ ∧
    w'.shared.broker.queues = w.shared.broker.queues

section Handles

variable {w : ConsumersWorld} {i : ℕ} {c : ConsumerName} {m : Message} {tag : ℕ}

theorem ConsumersWorld.Alone.move (h : w.Alone i) {s : ConsumersState}
    (hs : s.effects = w.shared.effects) (r : ConsumerName) (pc : ConsumePc) :
    ConsumersWorld.Alone (w.move i r s pc) i := by
  refine ⟨?_, fun j r' pc' hj hcall => ?_⟩
  · show s.effects.Quiet
    rw [hs]
    exact h.1
  · rw [Calls.move_calls_of_ne w hj] at hcall
    exact h.2 j r' pc' hj hcall

/-- A step of the call that leaves the queues alone. -/
theorem ConsumersWorld.Handles.step {s : ConsumersState} {pc pc' : ConsumePc} (n : ℕ)
    (hcall : w.calls i = some ⟨c, pc⟩)
    (hadv : advanceConsume u w.shared (.steady n) c pc = some (s, pc'))
    (hqueues : s.broker.queues = w.shared.broker.queues)
    (h : ConsumersWorld.Handles u (w.move i c s pc') i c m) : w.Handles u i c m := by
  obtain ⟨as, w', hrun, hquiet, hdone, hsame⟩ := h
  refine ⟨.advance i (.steady n) :: as, w', ?_, hquiet, hdone, hsame.trans hqueues⟩
  rw [Sys.exec_cons, step_steady hcall hadv, Option.bind_some, hrun]

theorem handles_of_done (h : w.Alone i) (hcall : w.calls i = some ⟨c, .done m .handled⟩) :
    w.Handles u i c m := by
  refine ⟨[], w, rfl, ⟨h.1, fun j r pc hj => ?_⟩, hcall, rfl⟩
  by_cases hij : j = i
  · rw [hij, hcall] at hj
    cases hj
    rfl
  · exact h.2 j r pc hij hj

theorem handles_of_succeeded (h : w.Alone i) (hcall : w.calls i = some ⟨c, .succeeded tag m⟩) :
    w.Handles u i c m :=
  .step 0 hcall rfl rfl (handles_of_done (h.move rfl c _) (Calls.move_calls_self _ _ _ _ _))

theorem handles_of_enqueueing {id : Uuid} (h : w.Alone i)
    (hcall : w.calls i = some ⟨c, .enqueueing tag m id⟩) : w.Handles u i c m :=
  .step 0 hcall rfl rfl (handles_of_succeeded (h.move rfl c _) (Calls.move_calls_self _ _ _ _ _))

/-- The handler has returned. -/
theorem handles_of_returned {j : ℕ} {call : EffectCall} {result : EffectResult} (h : w.Alone i)
    (hcall : w.calls i = some ⟨c, .handling tag m j⟩)
    (hj : w.shared.effects.calls j = some ⟨call, .returned result⟩) : w.Handles u i c m := by
  have hnext : ∃ pc, advanceConsume u w.shared (.steady 0) c (.handling tag m j) =
      some (w.shared, pc) ∧ (pc = .succeeded tag m ∨ ∃ id, pc = .enqueueing tag m id) := by
    cases result with
    | audited fresh => exact ⟨_, by simp [advanceConsume, ConsumeChoice.steady, hj], Or.inl rfl⟩
    | delivery id =>
      cases id with
      | none => exact ⟨_, by simp [advanceConsume, ConsumeChoice.steady, hj], Or.inl rfl⟩
      | some id =>
        exact ⟨_, by simp [advanceConsume, ConsumeChoice.steady, hj], Or.inr ⟨id, rfl⟩⟩
  obtain ⟨pc, hadv, rfl | ⟨id, rfl⟩⟩ := hnext
  · exact .step 0 hcall hadv rfl
      (handles_of_succeeded (h.move rfl c _) (Calls.move_calls_self _ _ _ _ _))
  · exact .step 0 hcall hadv rfl
      (handles_of_enqueueing (h.move rfl c _) (Calls.move_calls_self _ _ _ _ _))

/-- The handler has been called, and runs on its own. -/
theorem handles_of_called (hw : (consumersSystem u).Reachable w) {j : ℕ} {call : EffectCall}
    {e : Uuid} (hid : call.HasId u e) (hfits : call.Fits u)
    (hlocked : w.shared.effects.shared.locked = [])
    (hstart : w.shared.effects.calls j = some ⟨call, .start⟩)
    (hothers : ∀ k r pc, k ≠ j → w.shared.effects.calls k = some ⟨r, pc⟩ → pc.finished)
    (hidle : ∀ k r pc, k ≠ i → w.calls k = some ⟨r, pc⟩ → pc.opened = none)
    (hcall : w.calls i = some ⟨c, .handling tag m j⟩) : w.Handles u i c m := by
  obtain ⟨as, effects, result, hrun, hquiet, hreturned⟩ :=
    exists_returned (effects_reachable hw) hid hfits hlocked hstart hothers
  have hhandles : (w.withEffects effects).Handles u i c m :=
    handles_of_returned (u := u) ⟨hquiet, hidle⟩ hcall hreturned
  obtain ⟨bs, w', hrun', hdone⟩ := hhandles
  refine ⟨as.map (fun a => .environment (.effects a)) ++ bs, w', ?_, hdone⟩
  rw [Sys.exec_append, exec_effects hrun, Option.bind_some, hrun']

/-- **A message that can be processed is**, once it has been delivered. -/
theorem handles_of_delivered (hw : (consumersSystem u).Reachable w) (h : w.Alone i)
    (hcall : w.calls i = some ⟨c, .delivered tag m⟩) (hm : Processable u c m) :
    w.Handles u i c m := by
  obtain ⟨event, hcontent, hwell, hfits⟩ := hm
  have hread : readEvent m .other = .ok event := readEvent_of_wellFormed hcontent hwell
  cases hhandle : handle c event with
  | none =>
    have hadv : advanceConsume u w.shared (.steady 0) c (.delivered tag m) =
        some (w.shared, .succeeded tag m) := by
      simp [advanceConsume, ConsumeChoice.steady, hread, hhandle]
    exact .step 0 hcall hadv rfl
      (handles_of_succeeded (h.move rfl c _) (Calls.move_calls_self _ _ _ _ _))
  | some call =>
    obtain ⟨e, hid, hfit⟩ := hfits call hhandle
    obtain ⟨j, hrequest⟩ := exists_request (effects_reachable hw) call
    set effects := w.shared.effects.move j call w.shared.effects.shared .start with heffects
    have hadv : advanceConsume u w.shared (.steady j) c (.delivered tag m) =
        some ({ w.shared with effects := effects }, .handling tag m j) := by
      simp [advanceConsume, ConsumeChoice.steady, hread, hhandle, hrequest]
    refine .step j hcall hadv rfl ?_
    have hv := hw.step (Sys.restrict_step_iff.mp (step_steady hcall hadv)).2
    refine handles_of_called hv hid hfit h.1.locked (Calls.move_calls_self _ _ _ _ _)
      (fun k r pc hk hcallk => ?_) (fun k r pc hk hcallk => ?_) (Calls.move_calls_self _ _ _ _ _)
    · exact h.1.calls k r pc ((Calls.move_calls_of_ne w.shared.effects hk _ _ _).symm.trans hcallk)
    · exact h.2 k r pc hk ((Calls.move_calls_of_ne w hk _ _ _).symm.trans hcallk)

end Handles

/-! ### One message after another -/

/-- A retry has a time to live. -/
theorem expires_of_reachable {w : ConsumersWorld} (hw : (consumersSystem u).Reachable w) :
    w.shared.broker.All fun q m => ∀ c, q = .retry c → m.expiration.isSome = true := by
  refine hw.invariant (I := fun w => w.shared.broker.All fun q m =>
    ∀ c, q = .retry c → m.expiration.isSome = true) ?_ ?_
  · rintro w ⟨⟨hbroker, -⟩, -⟩
    rw [hbroker]
    exact .empty
  · intro w a w' _ h hstep
    refine all_of_step hstep h ?_ ?_ ?_
    · rintro content key retryCount - q hq c rfl
      obtain ⟨c', hc', -⟩ := mem_route_events_iff.mp hq
      cases hc'
    · rintro c m - q hq c' rfl
      obtain ⟨c'', hc'', -⟩ := mem_route_events_iff.mp hq
      cases hc''
    · rintro i choice r tag m error - - q hstored c rfl
      have hq := choice.stores_subset _ hstored
      unfold replacementQueues replacement at hq
      unfold replacement
      split at hq
      · next hretry =>
        rw [if_pos hretry]
        rfl
      · cases mem_route_deadLetter_iff.mp hq

theorem backlog_congr {b b' : Broker Queue Message} (h : b'.queues = b.queues) :
    backlog b' = backlog b := by
  unfold backlog
  rw [Broker.load_congr fun q _ => congrFun h q, Broker.load_congr fun q _ => congrFun h q]

theorem total_of_quiet {w : ConsumersWorld} (h : w.Quiet) (I : Finset ℕ) :
    w.total ConsumePc.load I = 0 := by
  refine Finset.sum_eq_zero fun i _ => ?_
  cases hcall : w.calls i with
  | none => rfl
  | some call =>
    by_contra hload
    exact opened_of_load hload (h.idle i call.request call.pc hcall)

/-- A message is delivered to a worker that has got ready for it. -/
theorem exists_delivered {w : ConsumersWorld} (hw : (consumersSystem u).Reachable w)
    (hquiet : w.Quiet) {c : ConsumerName} {m : Message}
    (hm : (w.shared.broker.queues (.main c))[0]? = some m) :
    ∃ i as v I, (steadySystem u).exec w as = some v ∧ v.Alone i ∧
      v.calls i = some ⟨c, .delivered w.shared.broker.deliveries.length m⟩ ∧
      v.shared.broker.queues = (w.shared.broker.remove (.main c) 0).queues ∧
      (∀ j, v.calls j ≠ none → j ∈ I) ∧ totalLoad I v < backlog w.shared.broker := by
  obtain ⟨i, hi⟩ := Calls.exists_fresh hw
  have hready : (steadySystem u).step w (.request i c) =
      some (w.move i c w.shared .waiting) :=
    Sys.restrict_step_iff.mpr ⟨rfl, Calls.step_request hi⟩
  set w₁ := w.move i c w.shared .waiting with hw₁
  set s : ConsumersState := { w.shared with broker := w.shared.broker.deliver (.main c) 0 m }
    with hs
  set tag := w.shared.broker.deliveries.length with htag
  have hcall : w₁.calls i = some ⟨c, .waiting⟩ := Calls.move_calls_self _ _ _ _ _
  have hadv : advanceConsume u w₁.shared (.steady 0) c .waiting = some (s, .delivered tag m) := by
    simp [advanceConsume, ConsumeChoice.steady, hw₁, Calls.State.move, hm, hs, htag]
  have hdelivered := step_steady hcall hadv
  set v := w₁.move i c s (.delivered tag m) with hv
  obtain ⟨I, hI⟩ : ∃ I : Finset ℕ, ∀ j, v.calls j ≠ none → j ∈ I := by
    have hreach := (hw.step (Sys.restrict_step_iff.mp hready).2).step
      (Sys.restrict_step_iff.mp hdelivered).2
    exact ⟨(Calls.finite_calls hreach).toFinset, fun j hj => (Set.Finite.mem_toFinset _).mpr hj⟩
  refine ⟨i, [.request i c, .advance i (.steady 0)], v, I, ?_, ⟨hquiet.effects, ?_⟩,
    Calls.move_calls_self _ _ _ _ _, rfl, hI, ?_⟩
  · rw [Sys.exec_cons, hready, Option.bind_some, Sys.exec_singleton, hdelivered]
  · intro j r pc hj hcallj
    rw [hv, Calls.move_calls_of_ne w₁ hj, hw₁, Calls.move_calls_of_ne w hj] at hcallj
    exact hquiet.idle j r pc hcallj
  · have hmem : i ∈ I := hI i (by rw [hv, Calls.move_calls_self]; exact Option.some_ne_none _)
    have hfirst := Calls.total_move hmem ConsumePc.load c w.shared .waiting (s := w)
    have hsecond := Calls.total_move hmem ConsumePc.load c s (.delivered tag m) (s := w₁)
    have hbacklog := backlog_deliver hm
    rw [hi, ← hw₁, total_of_quiet hquiet] at hfirst
    rw [hcall, ← hv, Option.elim_some] at hsecond
    rw [mainWork_eq] at hbacklog
    simp only [Option.elim_none, ConsumePc.load, ConsumePc.work] at hfirst hsecond
    unfold totalLoad
    show backlog s.broker + _ < _
    rw [hs]
    dsimp only
    omega

/-- A copy of the message waits for the consumer, or a call of it has handled one. -/
def Served (w : ConsumersWorld) (c : ConsumerName) (m : Message) : Prop :=
  (∃ m', m'.CopyOf m ∧
    (m' ∈ w.shared.broker.queues (.main c) ∨ m' ∈ w.shared.broker.queues (.retry c))) ∨
  ∃ i m', m'.CopyOf m ∧ w.calls i = some ⟨c, .done m' .handled⟩

theorem done_of_exec {w w' : ConsumersWorld} {as : List ConsumersAction}
    (hw : (consumersSystem u).Reachable w) (h : (consumersSystem u).exec w as = some w') {i : ℕ}
    {c : ConsumerName} {m : Message} {outcome : Outcome}
    (hdone : w.calls i = some ⟨c, .done m outcome⟩) : w'.calls i = some ⟨c, .done m outcome⟩ := by
  refine Sys.exec_stable (I := fun w => w.calls i = some ⟨c, .done m outcome⟩) ?_ hw hdone h
  intro v a v' _ hdone hstep
  refine Calls.final_stable hstep hdone fun s choice => ?_
  show advanceConsume u s choice c (.done m outcome) = none
  unfold advanceConsume
  split <;> rfl

/-- What waits for a consumer still does, but for the message that is taken out. -/
theorem served_of_removed {w w' : ConsumersWorld} {as : List ConsumersAction}
    (hw : (consumersSystem u).Reachable w) (hrun : (steadySystem u).exec w as = some w')
    {q : Queue} {m₀ : Message} (hm₀ : (w.shared.broker.queues q)[0]? = some m₀)
    (hkept : ∀ q', (w.shared.broker.remove q 0).queues q' ⊆ w'.shared.broker.queues q')
    {c : ConsumerName} {m : Message} (hserved : Served w c m)
    (htaken : m₀.CopyOf m → q = .main c ∨ q = .retry c → Served w' c m) : Served w' c m := by
  rcases hserved with ⟨m', hcopy, hmem⟩ | ⟨i, m', hcopy, hdone⟩
  · have hcases : ∀ q', m' ∈ w.shared.broker.queues q' →
        m' ∈ w'.shared.broker.queues q' ∨ q' = q ∧ m' = m₀ := fun q' hin =>
      (Broker.mem_or_removed hin hm₀).imp_left fun hstays => hkept q' hstays
    rcases hmem with hmain | hretry
    · rcases hcases _ hmain with hstays | ⟨rfl, rfl⟩
      · exact Or.inl ⟨m', hcopy, Or.inl hstays⟩
      · exact htaken hcopy (Or.inl rfl)
    · rcases hcases _ hretry with hstays | ⟨rfl, rfl⟩
      · exact Or.inl ⟨m', hcopy, Or.inr hstays⟩
      · exact htaken hcopy (Or.inr rfl)
  · exact Or.inr ⟨i, m', hcopy, done_of_exec hw (Sys.exec_of_restrict hrun) hdone⟩

/-- The work left goes down, and what can be processed is served. -/
def ConsumersWorld.Serves (u : UuidSyntax) (w w' : ConsumersWorld) : Prop :=
  (∃ as, (steadySystem u).exec w as = some w') ∧ w'.Quiet ∧
    backlog w'.shared.broker < backlog w.shared.broker ∧
    ∀ c m, Processable u c m → Served w c m → Served w' c m

/-- **A message of a main queue is handled, or replaced.** -/
theorem exists_consumed {w : ConsumersWorld} (hw : (consumersSystem u).Reachable w)
    (hquiet : w.Quiet) {c₀ : ConsumerName} {m₀ : Message}
    (hm₀ : (w.shared.broker.queues (.main c₀))[0]? = some m₀) : ∃ w', w.Serves u w' := by
  obtain ⟨i, as, v, I, hrun, halone, hcall, hqueues, hI, hload⟩ := exists_delivered hw hquiet hm₀
  have hv : (consumersSystem u).Reachable v := hw.exec (Sys.exec_of_restrict hrun)
  by_cases hm : Processable u c₀ m₀
  · obtain ⟨bs, w', hrun', hquiet', hdone, hsame⟩ := handles_of_delivered hv halone hcall hm
    have hwhole : (steadySystem u).exec w (as ++ bs) = some w' := by
      rw [Sys.exec_append, hrun, Option.bind_some, hrun']
    refine ⟨w', ⟨_, hwhole⟩, hquiet', ?_, fun c m _ hserved => ?_⟩
    · have hbacklog := backlog_deliver hm₀
      have hleft : backlog w'.shared.broker = backlog (w.shared.broker.remove (.main c₀) 0) :=
        backlog_congr (hsame.trans hqueues)
      rw [hleft]
      have hpositive : 0 < mainWork m₀ := by
        rw [mainWork_eq]
        omega
      change backlog (w.shared.broker.remove _ _) + _ ≤ _ at hbacklog
      omega
    · refine served_of_removed hw hwhole hm₀ (fun q => ?_) hserved fun hcopy hq => ?_
      · rw [hsame, hqueues]
        exact List.Subset.refl _
      · rcases hq with hq | hq <;> cases hq
        exact Or.inr ⟨i, m₀, hcopy, hdone⟩
  · obtain ⟨bs, w', hrun', hquiet', hkeeps, hle⟩ := exists_quiet hv hI
    have hwhole : (steadySystem u).exec w (as ++ bs) = some w' := by
      rw [Sys.exec_append, hrun, Option.bind_some, hrun']
    refine ⟨w', ⟨_, hwhole⟩, hquiet', hle.trans_lt hload, fun c m hprocessable hserved => ?_⟩
    refine served_of_removed hw hwhole hm₀ (fun q => ?_) hserved fun hcopy hq => ?_
    · rw [← hqueues]
      exact hkeeps q
    · rcases hq with hq | hq <;> cases hq
      exact absurd (hprocessable.copy hcopy) hm

/-- **A message of a retry queue expires**, and is back in the main queue. -/
theorem exists_expired {w : ConsumersWorld} (hw : (consumersSystem u).Reachable w)
    (hquiet : w.Quiet) {c₀ : ConsumerName} {m₀ : Message}
    (hm₀ : (w.shared.broker.queues (.retry c₀))[0]? = some m₀) : ∃ w', w.Serves u w' := by
  have hmem := List.mem_of_getElem? hm₀
  have hexpires := (expires_of_reachable hw).queues _ m₀ hmem c₀ rfl
  have hbound : c₀.bound m₀.routingKey = true := (routed_of_reachable hw).queues _ m₀ hmem
  set b := (w.shared.broker.remove (.retry c₀) 0).enqueue (route .events m₀.routingKey)
    { m₀ with expiration := none } with hb
  have henv : consumersEnvironment u w.shared (.expire c₀ 0) =
      some { w.shared with broker := b } := by
    simp only [consumersEnvironment, deadLetterExchange_retry, hm₀, hexpires, if_true, hb]
  have hstep : (steadySystem u).step w (.environment (.expire c₀ 0)) =
      some { w with shared := { w.shared with broker := b } } := by
    refine Sys.restrict_step_iff.mpr ⟨rfl, ?_⟩
    show (consumersEnvironment u w.shared (.expire c₀ 0)).map _ = _
    rw [henv]
    rfl
  have hrun := (Sys.exec_singleton (steadySystem u) w _).trans hstep
  refine ⟨_, ⟨_, hrun⟩, ⟨hquiet.effects, hquiet.idle⟩, backlog_expire hm₀, fun c m _ hserved => ?_⟩
  refine served_of_removed hw hrun hm₀ (fun q m' hm' => Broker.mem_enqueue_of_mem hm') hserved
    fun hcopy hq => ?_
  rcases hq with hq | hq <;> cases hq
  exact Or.inl ⟨{ m₀ with expiration := none }, hcopy, Or.inl (Broker.mem_enqueue_iff.mpr
    (Or.inr ⟨mem_route_events_iff.mpr ⟨c₀, rfl, hbound⟩, rfl⟩))⟩

/-- Nothing waits for a consumer. -/
def ConsumersWorld.Drained (w : ConsumersWorld) : Prop :=
  ∀ c, w.shared.broker.queues (.main c) = [] ∧ w.shared.broker.queues (.retry c) = []

theorem exists_serves {w : ConsumersWorld} (hw : (consumersSystem u).Reachable w)
    (hquiet : w.Quiet) (h : ¬w.Drained) : ∃ w', w.Serves u w' := by
  unfold ConsumersWorld.Drained at h
  rw [not_forall] at h
  obtain ⟨c, hc⟩ := h
  by_cases hmain : w.shared.broker.queues (.main c) = []
  · have hretry : w.shared.broker.queues (.retry c) ≠ [] := fun hretry => hc ⟨hmain, hretry⟩
    obtain ⟨m, rest, hqueue⟩ := List.exists_cons_of_ne_nil hretry
    have hm : (w.shared.broker.queues (.retry c))[0]? = some m := by
      rw [hqueue]
      rfl
    exact exists_expired hw hquiet hm
  · obtain ⟨m, rest, hqueue⟩ := List.exists_cons_of_ne_nil hmain
    have hm : (w.shared.broker.queues (.main c))[0]? = some m := by
      rw [hqueue]
      rfl
    exact exists_consumed hw hquiet hm

/-- A run from `w` has come to `v`: nothing is under way, the backlog is `n`, and what can be
processed has been served. -/
structure ConsumersWorld.Drains (u : UuidSyntax) (w v : ConsumersWorld) (n : ℕ) : Prop where
  reachable : (consumersSystem u).Reachable v
  quiet : v.Quiet
  backlog : backlog v.shared.broker = n
  served : ∀ c m, Processable u c m → Served w c m → Served v c m

theorem ConsumersWorld.Drains.step {w v : ConsumersWorld} {n : ℕ} (h : w.Drains u v n) :
    v.Drained ∨ ∃ as v' m, (steadySystem u).exec v as = some v' ∧ m < n ∧ w.Drains u v' m := by
  refine or_iff_not_imp_left.mpr fun hleft => ?_
  obtain ⟨v', ⟨as, hrun⟩, hquiet, hlt, hserves⟩ := exists_serves h.reachable h.quiet hleft
  rw [h.backlog] at hlt
  exact ⟨as, v', _, hrun, hlt, h.reachable.exec (Sys.exec_of_restrict hrun), hquiet, rfl,
    fun c m hm hserved => hserves c m hm (h.served c m hm hserved)⟩

/-- **All of them**, when nothing is under way. -/
theorem exists_drained {w : ConsumersWorld} (hw : (consumersSystem u).Reachable w)
    (hquiet : w.Quiet) : ∃ as w', (steadySystem u).exec w as = some w' ∧ w'.Quiet ∧ w'.Drained ∧
      ∀ c m, Processable u c m → Served w c m → Served w' c m := by
  have hstart : w.Drains u w (backlog w.shared.broker) := ⟨hw, hquiet, rfl, fun _ _ _ h => h⟩
  obtain ⟨as, w', -, hrun, hdrained, -, hquiet', -, hserved⟩ :=
    Sys.exists_exec (fun v n (h : w.Drains u v n) => h.step) hstart
  exact ⟨as, w', hrun, hquiet', hdrained, hserved⟩

/-! ### The theorem -/

/-- A call of the consumer has handled a copy of the message, and its effect is there. -/
def HandledBy (u : UuidSyntax) (w : ConsumersWorld) (c : ConsumerName) (m : Message) : Prop :=
  ∃ i m', m'.CopyOf m ∧ w.calls i = some ⟨c, .done m' .handled⟩ ∧ Effected u w.shared c m'

theorem handledBy_of_done {w : ConsumersWorld} (hw : (consumersSystem u).Reachable w) {i : ℕ}
    {c : ConsumerName} {m m' : Message} (hcopy : m'.CopyOf m)
    (hdone : w.calls i = some ⟨c, .done m' .handled⟩) : HandledBy u w c m := by
  have hcompleted : Completed u w.shared c m' := consume_ok hw hdone
  exact ⟨i, m', hcopy, hdone, hcompleted.effected (once_of_reachable (effects_reachable hw))⟩

/-- **From every reachable state**, whatever is under way. -/
theorem exists_drained_run {w : ConsumersWorld} (hw : (consumersSystem u).Reachable w) :
    ∃ as w', (steadySystem u).exec w as = some w' ∧ w'.Quiet ∧ w'.Drained ∧
      ∀ c m, m ∈ w.shared.broker.queues (.main c) ∨ m ∈ w.shared.broker.queues (.retry c) →
        Processable u c m → HandledBy u w' c m := by
  have hfinite := Calls.finite_calls hw
  obtain ⟨as, v, hrun, hquiet, hkeeps, -⟩ :=
    exists_quiet hw fun i hi => (Set.Finite.mem_toFinset hfinite).mpr hi
  have hv : (consumersSystem u).Reachable v := hw.exec (Sys.exec_of_restrict hrun)
  obtain ⟨bs, w', hrun', hquiet', hdrained, hserved⟩ := exists_drained hv hquiet
  have hw' := hv.exec (Sys.exec_of_restrict hrun')
  refine ⟨as ++ bs, w', ?_, hquiet', hdrained, fun c m hm hprocessable => ?_⟩
  · rw [Sys.exec_append, hrun, Option.bind_some, hrun']
  · have hserved₀ : Served v c m :=
      Or.inl ⟨m, .refl m, hm.imp (fun h => hkeeps _ h) fun h => hkeeps _ h⟩
    rcases hserved c m hprocessable hserved₀ with ⟨m', -, hmain | hretry⟩ | ⟨i, m', hcopy, hdone⟩
    · rw [(hdrained c).1] at hmain
      cases hmain
    · rw [(hdrained c).2] at hretry
      cases hretry
    · exact handledBy_of_done hw' hcopy hdone

/-- Where nothing is under way and nothing waits, what is accounted for has been handled,
or is a dead letter. -/
theorem handled_or_dead {w : ConsumersWorld} (hw : (consumersSystem u).Reachable w)
    (hquiet : w.Quiet) (hdrained : w.Drained) {c : ConsumerName} {m : Message}
    (hacc : Accounted w c m) :
    HandledBy u w c m ∨ ∃ m' ∈ w.shared.broker.queues (.dead c), m'.CopyOf m := by
  rcases hacc with ⟨q, hq, m', hm', hcopy⟩ | ⟨i, pc, m', hi, hcopy, hholds | rfl⟩
  · subst hq
    cases q with
    | main c =>
      have hempty : w.shared.broker.queues (.main c) = [] := (hdrained c).1
      rw [hempty] at hm'
      cases hm'
    | retry c =>
      have hempty : w.shared.broker.queues (.retry c) = [] := (hdrained c).2
      rw [hempty] at hm'
      cases hm'
    | dead c => exact Or.inr ⟨m', hm', hcopy⟩
  · obtain ⟨tag, hopen⟩ := ConsumePc.opened_of_holds hholds
    rw [hquiet.idle i c pc hi] at hopen
    cases hopen
  · exact Or.inl (handledBy_of_done hw hcopy hi)

/-- What a consumer has to account for, it accounts for ever after. -/
theorem accounted_of_exec {w w' : ConsumersWorld} {as : List ConsumersAction}
    (hw : (consumersSystem u).Reachable w) (h : (consumersSystem u).exec w as = some w')
    {c : ConsumerName} {m : Message} (hacc : Accounted w c m) : Accounted w' c m :=
  Sys.exec_stable (I := fun w => Accounted w c m)
    (fun _ _ _ hv h hstep => accounted_step hv hstep h) hw hacc h

/-- **The consumers drain.**  From every reachable state, whatever the workers have left
behind, some steps in which nothing goes wrong empty the main and the retry queues and
leave nothing under way.  Then every message that was in one of these queues, and that the
consumer can process, has been handled with its effects in place, however often it had been
tried; and of every message the consumer had to account for, a copy has been handled or is
among its dead letters. -/
theorem consumers_drain {w : ConsumersWorld} (hw : (consumersSystem u).Reachable w) :
    ∃ as w', (steadySystem u).exec w as = some w' ∧ w'.Quiet ∧ w'.Drained ∧
      (∀ c m, m ∈ w.shared.broker.queues (.main c) ∨ m ∈ w.shared.broker.queues (.retry c) →
        Processable u c m → HandledBy u w' c m) ∧
      ∀ c m, Accounted w c m →
        HandledBy u w' c m ∨ ∃ m' ∈ w'.shared.broker.queues (.dead c), m'.CopyOf m := by
  obtain ⟨as, w', hrun, hquiet, hdrained, hhandled⟩ := exists_drained_run hw
  have hplain := Sys.exec_of_restrict hrun
  exact ⟨as, w', hrun, hquiet, hdrained, hhandled, fun c m hacc =>
    handled_or_dead (hw.exec hplain) hquiet hdrained (accounted_of_exec hw hplain hacc)⟩

/-- The notification consumer has failed on an `order.created` event. -/
theorem sample_consumers_drain : ∃ w,
    (consumersSystem .sample).exec ConsumersWorld.sample
      (samplePublication :: failedDelivery .notification 0) = some w ∧
    (w.shared.broker.queues (.retry .notification)).length = 1 ∧
    ∃ as w', (steadySystem .sample).exec w as = some w' ∧ w'.Quiet ∧ w'.Drained ∧
      (∀ c m, m ∈ w.shared.broker.queues (.main c) ∨ m ∈ w.shared.broker.queues (.retry c) →
        Processable .sample c m → HandledBy .sample w' c m) ∧
      ∀ c m, Accounted w c m →
        HandledBy .sample w' c m ∨ ∃ m' ∈ w'.shared.broker.queues (.dead c), m'.CopyOf m := by
  have hrun : ((consumersSystem .sample).exec ConsumersWorld.sample
      (samplePublication :: failedDelivery .notification 0)).map
        (fun w => (w.shared.broker.queues (.retry .notification)).length) = some 1 := by
    decide +kernel
  obtain ⟨w, hw, hlength⟩ := Option.map_eq_some_iff.mp hrun
  exact ⟨w, hw, hlength, consumers_drain (.exec (.init ConsumersWorld.sample_init) hw)⟩

end ScaleForge
