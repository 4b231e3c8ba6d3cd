import ScaleForge.Evolution

/-!
# The outbox is safe

Any number of pollers lease, publish, mark and defer rows, their leases expire
and are taken over, their statements fail with or without effect, and they
crash.  Two things carry every property of the table: a published row is
unlocked, so that no fenced write meets it and no lease picks it up again; and
every time a row can be waiting for lies at most sixty seconds ahead of its
last write.

## Main definitions

* `OutboxEvent.Safe` — the invariant of a row.
* `Poller.Safe` — the invariant of a poller: what it is about to write.

## Main results

* `safe_writes` — the three writes keep the invariant of the rows.
* `safe_of_reachable` — the invariant holds in every reachable state.
* `outbox_safe` — **published rows were confirmed and never change, a lock has
  an owner, and no unpublished row is stuck.**
-/

namespace ScaleForge

open OutboxPublisherService

/-! ### The invariant -/

/-- What holds of every row: a published one has been confirmed and is
unlocked, the two lock columns agree, and no time lies more than sixty seconds
ahead. -/
structure OutboxEvent.Safe (clock : ℕ) (confirmed : List Uuid) (e : OutboxEvent) : Prop where
  published : e.publishedAt.isSome = true → e.lockedBy = none ∧ e.id ∈ confirmed
  locked : e.lockedAt = none ↔ e.lockedBy = none
  nextAttemptAt : e.nextAttemptAt ≤ clock + 60000
  lockedAt : ∀ t, e.lockedAt = some t → t ≤ clock

/-- What a poller is about to write: it marks what has been confirmed, and
defers by at most sixty seconds. -/
def Poller.Safe (clock : ℕ) (confirmed : List Uuid) : Poller → Prop
  | .marking record _ _ => record.id ∈ confirmed
  | .deferring _ _ nextAttemptAt _ => nextAttemptAt ≤ clock + 60000
  | _ => True

theorem OutboxEvent.Safe.mono {clock clock' : ℕ} {confirmed confirmed' : List Uuid}
    {e : OutboxEvent} (h : e.Safe clock confirmed) (hc : clock ≤ clock')
    (hs : confirmed ⊆ confirmed') : e.Safe clock' confirmed' where
  published hp := ⟨(h.published hp).1, hs (h.published hp).2⟩
  locked := h.locked
  nextAttemptAt := h.nextAttemptAt.trans (by omega)
  lockedAt t ht := (h.lockedAt t ht).trans hc

theorem Poller.Safe.mono {clock clock' : ℕ} {confirmed confirmed' : List Uuid} {p : Poller}
    (h : p.Safe clock confirmed) (hc : clock ≤ clock') (hs : confirmed ⊆ confirmed') :
    p.Safe clock' confirmed' := by
  cases p with
  | marking record rest publishedAt => exact hs h
  | deferring record rest nextAttemptAt lastError =>
    exact Nat.le_trans h (Nat.add_le_add_right hc _)
  | _ => trivial

/-- A new row is safe. -/
theorem safe_new {id : Uuid} {type : EventType} {aggregateType aggregateId : String}
    {payload : Json} {correlationId : Option String} {now : ℕ} {confirmed : List Uuid} :
    (OutboxEvent.new id type aggregateType aggregateId payload correlationId now).Safe now
      confirmed where
  published hp := by cases hp
  locked := ⟨fun _ => rfl, fun _ => rfl⟩
  nextAttemptAt := Nat.le_add_right _ _
  lockedAt t ht := by cases ht

/-! ### One step of a poller -/

/-- What a picked row has met. -/
theorem of_mem_picked {limit now : ℕ} {skipped : List Uuid} {rows : List OutboxEvent}
    (hk : Table.UniqueOn OutboxEvent.id rows) {e : OutboxEvent} (he : e ∈ rows)
    (hp : e.id ∈ picked limit now skipped rows) : leasable now e = true ∧ e.id ∉ skipped := by
  obtain ⟨e', he', hid⟩ := List.mem_map.mp hp
  have hmem := List.mem_of_mem_take he'
  rw [List.mem_insertionSort, List.mem_filter] at hmem
  rw [← hk.eq_of_key hmem.1 he hid]
  simpa using hmem.2

/-- **The three writes keep the invariant of the rows.** -/
theorem safe_writes {j : ℕ} {clock : ℕ} {confirmed : List Uuid} {p : Poller}
    {rows rows' : List OutboxEvent} (h : Writes j clock p rows rows')
    (hk : Table.UniqueOn OutboxEvent.id rows) (hp : p.Safe clock confirmed)
    (hrows : ∀ e ∈ rows, e.Safe clock confirmed) : ∀ e ∈ rows', e.Safe clock confirmed := by
  intro e' he'
  cases h with
  | same => exact hrows e' he'
  | lease skipped =>
    obtain ⟨e, he, rfl⟩ := Table.mem_update.mp he'
    split
    · next hpick =>
      -- only an unpublished row is picked
      have hnone := publishedAt_of_leasable (of_mem_picked hk he (by simpa using hpick)).1
      refine ⟨?_, by simp [lock], (hrows e he).nextAttemptAt, ?_⟩
      · intro hpub
        simp [lock, hnone] at hpub
      · intro t ht
        cases ht
        exact Nat.le_refl _
    · exact hrows e he
  | mark record rest publishedAt =>
    obtain ⟨e, he, rfl⟩ := Table.mem_update.mp he'
    split
    · next hown =>
      simp only [owned, Bool.and_eq_true, decide_eq_true_eq] at hown
      refine ⟨fun _ => ⟨rfl, ?_⟩, by simp [publish], (hrows e he).nextAttemptAt, ?_⟩
      · have hid : e.id ∈ confirmed := by
          rw [hown.1]
          exact hp
        exact hid
      · intro t ht
        cases ht
    · exact hrows e he
  | defer record rest nextAttemptAt lastError =>
    obtain ⟨e, he, rfl⟩ := Table.mem_update.mp he'
    split
    · next hown =>
      simp only [owned, Bool.and_eq_true, decide_eq_true_eq] at hown
      refine ⟨?_, by simp [OutboxPublisherService.defer], hp, ?_⟩
      · intro hpub
        -- the row is locked, so it is not published
        have := ((hrows e he).published hpub).1
        rw [this] at hown
        simp at hown
      · intro t ht
        cases ht
    · exact hrows e he

/-- The next record of a batch. -/
theorem safe_next {clock : ℕ} {confirmed : List Uuid} (rest : List LeasedOutboxEvent) :
    (next rest).Safe clock confirmed := by
  cases rest <;> trivial

/-- The deferral of a record, by at most sixty seconds. -/
theorem safe_caught {clock : ℕ} {confirmed : List Uuid} (record : LeasedOutboxEvent)
    (rest : List LeasedOutboxEvent) (thrown : Thrown) :
    (caught clock record rest thrown).Safe clock confirmed := by
  have hdelay := delaySeconds_le (record.attempts + 1)
  simp only [caught, Poller.Safe]
  omega

/-- A poller is about to write only what it may. -/
theorem safe_of_polls {j : ℕ} {clock : ℕ} {confirmed : List Uuid} {p p' : Poller}
    {rows rows' : List OutboxEvent} {a : PollAction} {new : Option Uuid}
    (h : Polls j clock rows p a p' rows' new) (hp : p.Safe clock confirmed) :
    p'.Safe clock (confirmed ++ new.toList) := by
  cases h with
  | interval => trivial
  | leased => exact safe_next _
  | leaseFailed => trivial
  | confirmed record rest =>
    show record.id ∈ confirmed ++ [record.id]
    exact List.mem_append_right _ (List.mem_singleton.mpr rfl)
  | publishFailed record rest thrown => exact safe_caught record rest thrown
  | marked record rest => exact safe_next rest
  | markFailed record rest publishedAt thrown => exact safe_caught record rest thrown
  | deferred record rest => exact safe_next rest
  | deferFailed => trivial
  | crashed => trivial

/-! ### Every reachable state -/

/-- The invariant of the system. -/
structure World.OutboxSafe (w : World) : Prop where
  rows : ∀ e ∈ w.db.outboxEvents, e.Safe w.clock w.confirmed
  pollers : ∀ j, (w.pollers j).Safe w.clock w.confirmed

/-- A change writes the outbox as some poller does, or adds a new row. -/
theorem Change.outbox {w : World} {db' : Db} (h : Change w db') :
    (∃ j, Writes j w.clock (w.pollers j) w.db.outboxEvents db'.outboxEvents) ∨
      ∃ id type aggregateType aggregateId payload correlationId,
        db'.outboxEvents = w.db.outboxEvents ++ [OutboxEvent.new id type aggregateType
          aggregateId payload correlationId w.clock] := by
  cases h with
  | catalog => exact Or.inl ⟨0, .same _ _⟩
  | created hcall h =>
    obtain ⟨-, -, -, -, rfl⟩ := OrdersRepository.createWrite_commits h
    exact Or.inr ⟨_, _, _, _, _, _, rfl⟩
  | updated hcall h =>
    obtain ⟨-, -, -, -, rfl⟩ := OrdersRepository.updateStatus_commits h
    exact Or.inl ⟨0, .same _ _⟩
  | paid hcall h =>
    obtain ⟨order, -, -, -, -, -, -, -, -, rfl⟩ := PaymentsRepository.complete_commits h
    exact Or.inr ⟨_, _, _, _, _, _, rfl⟩
  | polled h => exact Or.inl ⟨_, h⟩

/-- The clock and the confirmations only grow. -/
theorem World.step_mono {w w' : World} {a : Action} (h : w.step a = some w') :
    w.clock ≤ w'.clock ∧ w.confirmed ⊆ w'.confirmed := by
  cases a with
  | tick ms => cases h; exact ⟨Nat.le_add_right _ _, List.Subset.refl _⟩
  | request i r correlationId =>
    obtain ⟨-, rfl⟩ := World.step_request h
    exact ⟨Nat.le_refl _, List.Subset.refl _⟩
  | advance i c =>
    obtain ⟨call, db', pc', -, -, rfl⟩ := World.step_advance h
    exact ⟨Nat.le_refl _, List.Subset.refl _⟩
  | poll j a =>
    obtain ⟨p, rows, confirmed, -, rfl⟩ := World.step_poll h
    exact ⟨Nat.le_refl _, List.subset_append_left _ _⟩
  | _ => cases h; exact ⟨Nat.le_refl _, List.Subset.refl _⟩

/-- **The invariant holds in every reachable state.** -/
theorem safe_of_reachable {w : World} (hw : system.Reachable w) : w.OutboxSafe := by
  refine hw.invariant (I := World.OutboxSafe) ?_ ?_
  · rintro w ⟨-, -, -, -, hrows, -, hpollers, -⟩
    refine ⟨?_, ?_⟩
    · intro e he
      rw [hrows] at he
      cases he
    · intro j
      rw [hpollers j]
      trivial
  · intro w a w' hw ih hstep
    obtain ⟨hclock, hconf⟩ := World.step_mono hstep
    refine ⟨?_, ?_⟩
    · intro e he
      suffices hsafe : e.Safe w.clock w.confirmed from hsafe.mono hclock hconf
      rcases (change_of_step hstep).outbox with ⟨j, hwrites⟩ | ⟨id, type, at', ai, pl, ci, hnew⟩
      · exact safe_writes hwrites (keys_of_reachable hw).outboxEvents (ih.pollers j) ih.rows e he
      · rw [hnew, List.mem_append, List.mem_singleton] at he
        rcases he with he | rfl
        · exact ih.rows e he
        · exact safe_new
    · intro j
      have hkept := (ih.pollers j).mono hclock hconf
      rcases polls_of_step hstep with ⟨i, b, p, rows, new, rfl, hpolls, rfl⟩ | ⟨-, -, hsame⟩
      · by_cases hij : j = i
        · subst hij
          rw [World.polled_pollers_self]
          exact safe_of_polls hpolls (ih.pollers j)
        · rw [World.polled_pollers_of_ne w hij]
          exact hkept
      · rw [hsame]
        exact hkept

/-! ### The properties of the table -/

/-- A published row is not met by any write of a poller. -/
theorem mem_of_writes {j : ℕ} {clock : ℕ} {p : Poller} {rows rows' : List OutboxEvent}
    (h : Writes j clock p rows rows') (hk : Table.UniqueOn OutboxEvent.id rows) {e : OutboxEvent}
    (he : e ∈ rows) (hpub : e.publishedAt.isSome = true) (hlock : e.lockedBy = none) :
    e ∈ rows' := by
  have howned : ∀ id, owned j id e = false := by
    intro id
    simp [owned, hlock]
  cases h with
  | same => exact he
  | lease skipped =>
    apply Table.mem_update_of_neg he
    simp only [decide_eq_false_iff_not]
    intro hpick
    rw [publishedAt_of_leasable (of_mem_picked hk he hpick).1] at hpub
    cases hpub
  | mark record rest publishedAt => exact Table.mem_update_of_neg he (howned record.id)
  | defer record rest nextAttemptAt lastError =>
    exact Table.mem_update_of_neg he (howned record.id)

/-- A published row stays as it is. -/
theorem published_of_step {w w' : World} {a : Action} (hw : system.Reachable w)
    (h : w.step a = some w') {e : OutboxEvent} (he : e ∈ w.db.outboxEvents)
    (hpub : e.publishedAt.isSome = true) : e ∈ w'.db.outboxEvents := by
  rcases (change_of_step h).outbox with ⟨j, hwrites⟩ | ⟨id, type, at', ai, pl, ci, hnew⟩
  · exact mem_of_writes hwrites (keys_of_reachable hw).outboxEvents he hpub
      (((safe_of_reachable hw).rows e he).published hpub).1
  · rw [hnew]
    exact List.mem_append_left _ he

/-- A row that is unpublished at a state is leasable at every time more than
sixty seconds later, as long as it stays what it is. -/
theorem OutboxEvent.Safe.leasable {clock now : ℕ} {confirmed : List Uuid} {e : OutboxEvent}
    (h : e.Safe clock confirmed) (hpub : e.publishedAt = none) (hnow : clock + 60000 < now) :
    leasable now e = true := by
  have hnext := h.nextAttemptAt
  have hlocked := h.lockedAt
  simp only [ScaleForge.leasable, hpub, Option.isNone_none, Bool.true_and, Bool.and_eq_true,
    decide_eq_true_eq]
  refine ⟨by omega, ?_⟩
  cases hl : e.lockedAt with
  | none => rfl
  | some t =>
    have := hlocked t hl
    simp only [Option.all_some, decide_eq_true_eq]
    omega

/-- **The outbox is safe.**  In every reachable state a published row has had a
publish confirmed by the broker; from then on no step of any run changes it;
a row has a lock time exactly when it has a lock owner; and an unpublished row
that has not been written for more than sixty seconds is leasable. -/
theorem outbox_safe {w : World} (hw : system.Reachable w) :
    (∀ e ∈ w.db.outboxEvents, e.publishedAt.isSome = true → e.id ∈ w.confirmed) ∧
    (∀ as w', system.exec w as = some w' →
      ∀ e ∈ w.db.outboxEvents, e.publishedAt.isSome = true →
        e ∈ w'.db.outboxEvents ∧ ∀ e' ∈ w'.db.outboxEvents, e'.id = e.id → e' = e) ∧
    (∀ e ∈ w.db.outboxEvents, e.lockedAt = none ↔ e.lockedBy = none) ∧
    ∀ as w', system.exec w as = some w' →
      ∀ e ∈ w.db.outboxEvents, e ∈ w'.db.outboxEvents → e.publishedAt = none →
        w.clock + 60000 < w'.clock → leasable w'.clock e = true := by
  have hsafe := safe_of_reachable hw
  refine ⟨?_, ?_, ?_, ?_⟩
  · intro e he hpub
    exact ((hsafe.rows e he).published hpub).2
  · intro as w' hexec e he hpub
    have hmem : e ∈ w'.db.outboxEvents :=
      Transition.Sys.exec_stable (I := fun v => e ∈ v.db.outboxEvents)
        (fun v a v' hv he hstep => published_of_step hv hstep he hpub) hw he hexec
    refine ⟨hmem, ?_⟩
    intro e' he' hid
    exact (keys_of_reachable (hw.exec hexec)).outboxEvents.eq_of_key he' hmem hid
  · intro e he
    exact (hsafe.rows e he).locked
  · intro as w' hexec e he he' hpub hclock
    exact (hsafe.rows e he).leasable hpub hclock

/-- A poller publishes the event of a new order. -/
def publishSample : List Action :=
  Action.sampleOrder ++
    [.poll 0 .interval, .poll 0 (.lease [] .none), .poll 0 .confirm, .poll 0 (.mark .none .other)]

/-- In that run the row is marked, and it has been confirmed. -/
theorem sample_published_confirmed :
    ∃ w, system.exec World.sample publishSample = some w ∧
      (w.db.outboxEvents.map fun e => (e.id, e.publishedAt)) = [(Uuid.repeated 3, some 0)] ∧
      ∀ e ∈ w.db.outboxEvents, e.publishedAt.isSome = true → e.id ∈ w.confirmed := by
  have hrun : (system.exec World.sample publishSample).map
      (fun w => w.db.outboxEvents.map fun e => (e.id, e.publishedAt)) =
        some [(Uuid.repeated 3, some 0)] := by decide
  obtain ⟨w, hw, hst⟩ := Option.map_eq_some_iff.mp hrun
  exact ⟨w, hw, hst, (outbox_safe (World.sample_reachable.exec hw)).1⟩

end ScaleForge
