import ScaleForge.OutboxSafety

/-!
# Who holds a lease

A lease covers a whole batch, whose rows are published one after another, and it
lasts thirty seconds however long that takes.  While no lease query picks a row
that its lessee is still working on, every row of an unfinished batch is locked by
the poller that holds the batch: two batches never share a row, and a row goes to
the broker only from its lessee.  A lease that has run out under a slow poller
breaks both.

## Main definitions

* `World.Unfinished` — the row is one a poller has leased and not yet dealt with.
* `leasesInTime` — no lease query picks a row its lessee still works on.
* `Poller.Owns` — the invariant of a poller.

## Main results

* `owns_of_reachable` — the invariant holds in every state of such a run.
* `leases_exclusive` — **in such a run no two pollers work on one row, and a row
  is sent only by the poller that holds its lease.**
* `lease_shared` — a slow poller and an expired lease: two pollers work on a row,
  and the one that lost the lease sends it.
-/

namespace ScaleForge

open OutboxPublisherService

/-- The row is in the batch of the instance, and is not marked published. -/
def World.Unfinished (w : World) (id : Uuid) (j : ℕ) : Prop :=
  id ∈ (w.pollers j).batch.map LeasedOutboxEvent.id ∧
    ∃ e ∈ w.db.outboxEvents, e.id = id ∧ e.publishedAt = none

/-- The instance that locked the row still has it in its batch. -/
def World.heldByLessee (w : World) (e : OutboxEvent) : Bool :=
  e.lockedBy.any fun j => e.id ∈ (w.pollers j).batch.map LeasedOutboxEvent.id

/-- No lease query that is executed picks a row whose lessee still works on it. -/
def leasesInTime (w : World) : Action → Bool
  | .poll _ (.lease skipped fault) => fault = .notExecuted || w.db.outboxEvents.all fun e =>
      !(e.id ∈ picked 25 w.clock skipped w.db.outboxEvents && w.heldByLessee e)
  | _ => true

/-! ### The invariant -/

/-- The row of the record is locked by the instance. -/
def Leased (j : ℕ) (rows : List OutboxEvent) (record : LeasedOutboxEvent) : Prop :=
  ∃ e ∈ rows, e.id = record.id ∧ e.lockedBy = some j

/-- The row of the record is locked by the instance, unless it is published. -/
def LeasedOrPublished (j : ℕ) (rows : List OutboxEvent) (record : LeasedOutboxEvent) : Prop :=
  ∃ e ∈ rows, e.id = record.id ∧ (e.publishedAt = none → e.lockedBy = some j)

/-- What an instance holds: its batch lists distinct rows, and it has locked them.
The row at hand may already be published when it comes to be deferred. -/
def Poller.Owns (j : ℕ) (rows : List OutboxEvent) (p : Poller) : Prop :=
  (p.batch.map LeasedOutboxEvent.id).Nodup ∧
    match p with
    | .publishing record rest => ∀ r ∈ record :: rest, Leased j rows r
    | .marking record rest _ => ∀ r ∈ record :: rest, Leased j rows r
    | .deferring record rest _ _ =>
      (∀ r ∈ rest, Leased j rows r) ∧ LeasedOrPublished j rows record
    | _ => True

section Owns

variable {j : ℕ} {rows rows' : List OutboxEvent} {p : Poller}

theorem Leased.weaken {r : LeasedOutboxEvent} (h : Leased j rows r) :
    LeasedOrPublished j rows r := by
  obtain ⟨e, he, hid, hlock⟩ := h
  exact ⟨e, he, hid, fun _ => hlock⟩

/-- Every record of the batch has a row the instance has locked, unless it is
published. -/
theorem Poller.Owns.row (h : p.Owns j rows) {r : LeasedOutboxEvent} (hr : r ∈ p.batch) :
    LeasedOrPublished j rows r := by
  obtain ⟨-, h⟩ := h
  cases p with
  | publishing record rest => exact (h r hr).weaken
  | marking record rest publishedAt => exact (h r hr).weaken
  | deferring record rest nextAttemptAt lastError =>
    rcases List.mem_cons.mp hr with rfl | hr
    · exact h.2
    · exact (h.1 r hr).weaken
  | _ => cases hr

/-- An instance keeps what it holds when the rows of its batch stay. -/
theorem Poller.Owns.mono (h : p.Owns j rows)
    (hkeep : ∀ e ∈ rows, e.id ∈ p.batch.map LeasedOutboxEvent.id →
      (e.publishedAt = none → e.lockedBy = some j) → e ∈ rows') : p.Owns j rows' := by
  have hleased : ∀ r ∈ p.batch, Leased j rows r → Leased j rows' r := by
    rintro r hr ⟨e, he, hid, hlock⟩
    exact ⟨e, hkeep e he (hid ▸ List.mem_map_of_mem hr) fun _ => hlock, hid, hlock⟩
  obtain ⟨hnodup, h⟩ := h
  refine ⟨hnodup, ?_⟩
  cases p with
  | publishing record rest => exact fun r hr => hleased r hr (h r hr)
  | marking record rest publishedAt => exact fun r hr => hleased r hr (h r hr)
  | deferring record rest nextAttemptAt lastError =>
    obtain ⟨hrest, e, he, hid, hlock⟩ := h
    refine ⟨fun r hr => hleased r (List.mem_cons_of_mem _ hr) (hrest r hr), e, ?_, hid, hlock⟩
    exact hkeep e he (hid ▸ List.mem_map_of_mem List.mem_cons_self) hlock
  | _ => trivial

/-- The next record of a batch whose rows are all locked. -/
theorem owns_next {rest : List LeasedOutboxEvent}
    (hnodup : (rest.map LeasedOutboxEvent.id).Nodup) (h : ∀ r ∈ rest, Leased j rows r) :
    (next rest).Owns j rows := by
  cases rest with
  | nil => exact ⟨List.nodup_nil, trivial⟩
  | cons record rest => exact ⟨hnodup, h⟩

end Owns

/-! ### One step of a poller -/

/-- A row that a write passes over outlives the statement, whatever its fault. -/
theorem mem_effect {fault : Fault} {write : List OutboxEvent → List OutboxEvent}
    {rows : List OutboxEvent} {e : OutboxEvent} (he : e ∈ rows)
    (hw : fault ≠ .notExecuted → e ∈ write rows) : e ∈ effect fault write rows := by
  cases fault with
  | notExecuted => exact he
  | none => exact hw (by decide)
  | replyLost => exact hw (by decide)

section Step

variable {j i clock : ℕ} {confirmed : List Uuid} {rows rows' : List OutboxEvent}
  {p p' : Poller} {a : PollAction} {new : Option Uuid}

/-- **A row that is published, or locked by another instance and not picked, is not
touched by a step of an instance.** -/
theorem mem_of_polls (h : Polls i clock rows p a p' rows' new) (hij : i ≠ j)
    {e : OutboxEvent} (he : e ∈ rows) (hsafe : e.Safe clock confirmed)
    (hlock : e.publishedAt = none → e.lockedBy = some j)
    (hlease : ∀ skipped fault, a = .lease skipped fault → fault ≠ .notExecuted →
      e.id ∉ picked 25 clock skipped rows) : e ∈ rows' := by
  have howned : ∀ id, owned i id e = false := by
    intro id
    rw [owned, Bool.and_eq_false_iff]
    right
    rw [decide_eq_false_iff_not]
    intro hi
    cases hpub : e.publishedAt with
    | none =>
      rw [hlock hpub, Option.some.injEq] at hi
      exact hij hi.symm
    | some t =>
      rw [(hsafe.published (by rw [hpub]; rfl)).1] at hi
      cases hi
  have hkept : ∀ skipped fault, a = .lease skipped fault → fault ≠ .notExecuted →
      e ∈ lease 25 i clock skipped rows := by
    intro skipped fault ha hexecuted
    apply Table.mem_update_of_neg he
    rw [decide_eq_false_iff_not]
    exact hlease skipped fault ha hexecuted
  cases h with
  | leased skipped => exact hkept skipped _ rfl (by decide)
  | leaseFailed skipped hfault => exact mem_effect he (hkept skipped _ rfl)
  | marked record rest publishedAt thrown =>
    exact Table.mem_update_of_neg he (howned record.id)
  | markFailed record rest publishedAt thrown hfault =>
    exact mem_effect he fun _ => Table.mem_update_of_neg he (howned record.id)
  | deferred record rest nextAttemptAt lastError =>
    exact Table.mem_update_of_neg he (howned record.id)
  | deferFailed record rest nextAttemptAt lastError hfault =>
    exact mem_effect he fun _ => Table.mem_update_of_neg he (howned record.id)
  | _ => exact he

/-- The records the lease query returns have just been locked. -/
theorem owns_leased (hk : Table.UniqueOn OutboxEvent.id rows) (skipped : List Uuid) :
    (next (leasedRecords 25 j clock skipped rows)).Owns j (lease 25 j clock skipped rows) := by
  have huniq : Table.UniqueOn OutboxEvent.id (lease 25 j clock skipped rows) :=
    Table.uniqueOn_update hk fun _ _ _ => rfl
  refine owns_next ?_ ?_
  · have hids : (leasedRecords 25 j clock skipped rows).map LeasedOutboxEvent.id =
        ((lease 25 j clock skipped rows).filter fun e =>
          e.id ∈ picked 25 clock skipped rows).map OutboxEvent.id := by
      rw [leasedRecords, List.map_map]
      rfl
    rw [hids]
    exact (List.filter_sublist.map OutboxEvent.id).nodup huniq
  · intro r hr
    obtain ⟨e, he, rfl⟩ := List.mem_map.mp hr
    obtain ⟨hmem, hpick⟩ := List.mem_filter.mp he
    refine ⟨e, hmem, rfl, ?_⟩
    obtain ⟨e₀, -, rfl⟩ := Table.mem_update.mp hmem
    split
    · rfl
    · next hnot =>
      rw [if_neg hnot] at hpick
      exact absurd hpick hnot

/-- The other rows of a batch outlive the write about the one at hand. -/
theorem leased_rest {record : LeasedOutboxEvent} {rest : List LeasedOutboxEvent}
    {f : OutboxEvent → OutboxEvent}
    (hnodup : ((record :: rest).map LeasedOutboxEvent.id).Nodup)
    (h : ∀ r ∈ rest, Leased j rows r) :
    ∀ r ∈ rest, Leased j (Table.update (owned j record.id) f rows) r := by
  intro r hr
  obtain ⟨e, he, hid, hlock⟩ := h r hr
  have hne : record.id ≠ r.id := by
    intro heq
    exact (List.nodup_cons.mp hnodup).1 (heq ▸ List.mem_map_of_mem hr)
  have hnot : owned j record.id e = false := by
    simp [owned, hid, hne.symm]
  exact ⟨e, Table.mem_update_of_neg he hnot, hid, hlock⟩

/-- **A step of an instance keeps what it holds.** -/
theorem owns_of_polls (h : Polls j clock rows p a p' rows' new)
    (hk : Table.UniqueOn OutboxEvent.id rows) (hown : p.Owns j rows) : p'.Owns j rows' := by
  cases h with
  | interval => exact ⟨List.nodup_nil, trivial⟩
  | leased skipped => exact owns_leased hk skipped
  | leaseFailed => exact ⟨List.nodup_nil, trivial⟩
  | confirmed record rest => exact hown
  | publishFailed record rest thrown =>
    obtain ⟨hnodup, hall⟩ := hown
    exact ⟨hnodup, fun r hr => hall r (List.mem_cons_of_mem _ hr),
      (hall record List.mem_cons_self).weaken⟩
  | marked record rest publishedAt thrown =>
    obtain ⟨hnodup, hall⟩ := hown
    exact owns_next (List.nodup_cons.mp hnodup).2
      (leased_rest hnodup fun r hr => hall r (List.mem_cons_of_mem _ hr))
  | @markFailed record rest publishedAt thrown fault hfault =>
    obtain ⟨hnodup, hall⟩ := hown
    refine ⟨hnodup, ?_⟩
    have hrest : ∀ r ∈ rest, Leased j rows r := fun r hr => hall r (List.mem_cons_of_mem _ hr)
    cases fault with
    | none => exact absurd rfl hfault
    | notExecuted => exact ⟨hrest, (hall record List.mem_cons_self).weaken⟩
    | replyLost =>
      -- the write took effect, and the row at hand is published
      obtain ⟨e, he, hid, hlock⟩ := hall record List.mem_cons_self
      refine ⟨leased_rest hnodup hrest, publish publishedAt e, ?_, hid, nofun⟩
      exact Table.mem_update_of_pos he (by simp [owned, hid, hlock])
  | deferred record rest nextAttemptAt lastError =>
    obtain ⟨hnodup, hrest, -⟩ := hown
    exact owns_next (List.nodup_cons.mp hnodup).2 (leased_rest hnodup hrest)
  | deferFailed => exact ⟨List.nodup_nil, trivial⟩
  | crashed => exact ⟨List.nodup_nil, trivial⟩

end Step

/-! ### Every state of such a run -/

/-- A row that its lessee works on is picked by no lease query. -/
theorem not_picked {w : World} {i j : ℕ} {skipped : List Uuid} {fault : Fault}
    (hguard : leasesInTime w (.poll i (.lease skipped fault)) = true)
    (hexecuted : fault ≠ .notExecuted) {e : OutboxEvent} (he : e ∈ w.db.outboxEvents)
    (hlock : e.lockedBy = some j) (hmem : e.id ∈ (w.pollers j).batch.map LeasedOutboxEvent.id) :
    e.id ∉ picked 25 w.clock skipped w.db.outboxEvents := by
  intro hpicked
  simp only [leasesInTime, hexecuted, decide_false, Bool.false_or] at hguard
  have hall := List.all_eq_true.mp hguard e he
  simp only [hpicked, decide_true, World.heldByLessee, hlock, Option.any_some, hmem,
    Bool.and_self, Bool.not_true, Bool.false_eq_true] at hall

/-- **In a run whose leases are in time, every instance has locked its batch.** -/
theorem owns_of_reachable {w : World} (hw : (system.restrict leasesInTime).Reachable w) (j : ℕ) :
    (w.pollers j).Owns j w.db.outboxEvents := by
  refine hw.invariant (I := fun w => ∀ j, (w.pollers j).Owns j w.db.outboxEvents) ?_ ?_ j
  · rintro w ⟨-, -, -, -, -, -, hpollers, -⟩ j
    rw [hpollers j]
    exact ⟨List.nodup_nil, trivial⟩
  intro w a w' hw ih hstep j
  obtain ⟨hguard, hstep⟩ := Transition.Sys.restrict_step_iff.mp hstep
  have hreach := hw.of_restrict
  have hk := (keys_of_reachable hreach).outboxEvents
  rcases polls_of_step hstep with ⟨i, b, p, rows, new, rfl, hpolls, rfl⟩ | ⟨-, hkeep, hsame⟩
  · by_cases hij : i = j
    · subst hij
      rw [World.polled_pollers_self]
      exact owns_of_polls hpolls hk (ih i)
    · -- the rows in the batch of `j` are out of reach for `i`
      rw [World.polled_pollers_of_ne w (Ne.symm hij)]
      refine (ih j).mono fun e he hbatch hlock => ?_
      refine mem_of_polls hpolls hij he ((safe_of_reachable hreach).rows e he) hlock ?_
      rintro skipped fault rfl hexecuted hpicked
      -- a row that is picked is not published
      have hpub := publishedAt_of_leasable (of_mem_picked hk he hpicked).1
      exact not_picked hguard hexecuted he (hlock hpub) hbatch hpicked
  · rw [hsame]
    exact (ih j).mono fun e he _ _ => hkeep he

/-- **Leases are exclusive.**  In every state of a run in which no lease query picks
a row whose lessee still works on it, an unfinished row is in the batch of one
instance only, and an instance that sends a row to the broker holds its lease. -/
theorem leases_exclusive {w : World} (hw : (system.restrict leasesInTime).Reachable w) :
    (∀ id j j', w.Unfinished id j → w.Unfinished id j' → j = j') ∧
    ∀ j record, (w.pollers j).sending = some record →
      ∃ e ∈ w.db.outboxEvents, e.id = record.id ∧ e.lockedBy = some j := by
  have hk := (keys_of_reachable hw.of_restrict).outboxEvents
  -- the lock column of an unfinished row names the instance that works on it
  have hlessee : ∀ id j, w.Unfinished id j →
      ∀ e ∈ w.db.outboxEvents, e.id = id → e.lockedBy = some j := by
    rintro id j ⟨hbatch, e', he', hid', hpub⟩ e he hid
    obtain ⟨r, hr, hrid⟩ := List.mem_map.mp hbatch
    obtain ⟨e₀, he₀, hid₀, hlock⟩ := (owns_of_reachable hw j).row hr
    have hsame' : e₀ = e' := hk.eq_of_key he₀ he' (by rw [hid₀, hrid, hid'])
    have hsame : e = e' := hk.eq_of_key he he' (by rw [hid, hid'])
    rw [hsame, ← hsame']
    exact hlock (hsame' ▸ hpub)
  refine ⟨?_, ?_⟩
  · intro id j j' h h'
    have ⟨_, e, he, hid, _⟩ := h
    have hj := hlessee id j h e he hid
    have hj' := hlessee id j' h' e he hid
    rw [hj, Option.some.injEq] at hj'
    exact hj'
  · intro j record hsending
    have howns := owns_of_reachable hw j
    cases hp : w.pollers j with
    | publishing record' rest =>
      rw [hp] at hsending howns
      cases hsending
      exact howns.2 record List.mem_cons_self
    | _ =>
      rw [hp] at hsending
      cases hsending

/-! ### Two instances -/

/-- The first of two instances leases the events of an order and of its payment,
and waits for the broker; more than thirty seconds pass. -/
def leaseSample : List Action :=
  Action.sampleOrder ++ Action.samplePayment 1 (Uuid.repeated 3).text "first-payment-key" 4 ++
    [.poll 0 .interval, .poll 0 (.lease [] .none), .tick 30001]

/-- The second instance leases both rows. -/
def secondLease : List Action := [.poll 1 .interval, .poll 1 (.lease [] .none)]

/-- The columns of the outbox that tell who works on a row. -/
def World.outboxLocks (w : World) : List (Uuid × Option ℕ × Option ℕ) :=
  w.db.outboxEvents.map fun e => (e.id, e.publishedAt, e.lockedBy)

/-- A row whose columns are listed. -/
theorem exists_of_outboxLocks {w : World} {id : Uuid} {publishedAt lockedBy : Option ℕ}
    (h : (id, publishedAt, lockedBy) ∈ w.outboxLocks) :
    ∃ e ∈ w.db.outboxEvents, e.id = id ∧ e.publishedAt = publishedAt ∧ e.lockedBy = lockedBy := by
  obtain ⟨e, he, hcols⟩ := List.mem_map.mp h
  simp only [Prod.mk.injEq] at hcols
  exact ⟨e, he, hcols⟩

/-- Once the first instance has died, the second leases its rows, and works on
them alone. -/
theorem sample_lease_taken_over :
    ∃ w, (system.restrict leasesInTime).exec World.sample
        (leaseSample ++ .poll 0 .crash :: secondLease) = some w ∧
      (w.pollers 1).batch.map LeasedOutboxEvent.id = [Uuid.repeated 3, Uuid.repeated 4] ∧
      ∀ j, w.Unfinished (Uuid.repeated 3) j → j = 1 := by
  have hrun : ((system.restrict leasesInTime).exec World.sample
      (leaseSample ++ .poll 0 .crash :: secondLease)).map
        (fun w => ((w.pollers 1).batch.map LeasedOutboxEvent.id, w.outboxLocks)) =
      some ([Uuid.repeated 3, Uuid.repeated 4],
        [(Uuid.repeated 3, none, some 1), (Uuid.repeated 4, none, some 1)]) := by decide
  obtain ⟨w, hw, hrun⟩ := Option.map_eq_some_iff.mp hrun
  obtain ⟨hbatch, hlocks⟩ := Prod.mk.inj hrun
  have hrow : (Uuid.repeated 3, none, some 1) ∈ w.outboxLocks := by
    rw [hlocks]
    exact List.mem_cons_self
  obtain ⟨e, he, hid, hpub, -⟩ := exists_of_outboxLocks hrow
  refine ⟨w, hw, hbatch, fun j hj => ?_⟩
  refine (leases_exclusive (Transition.Sys.Reachable.exec (.init World.sample_initial) hw)).1
    (Uuid.repeated 3) j 1 hj ⟨?_, e, he, hid, hpub⟩
  rw [hbatch]
  exact List.mem_cons_self

/-- **A lease that runs out under a slow instance is shared.**  The first instance
is still waiting for the broker when the second leases both rows, and then goes
on with its batch: the second row is in both batches, and the first instance
sends it although the second holds its lease. -/
theorem lease_shared :
    ∃ w, system.exec World.sample (leaseSample ++ secondLease ++
        [.poll 0 .confirm, .poll 0 (.mark .none .other)]) = some w ∧
      w.Unfinished (Uuid.repeated 4) 0 ∧ w.Unfinished (Uuid.repeated 4) 1 ∧
      (w.pollers 0).sending.map LeasedOutboxEvent.id = some (Uuid.repeated 4) ∧
      ∀ e ∈ w.db.outboxEvents, e.lockedBy = some 1 := by
  have hrun : (system.exec World.sample (leaseSample ++ secondLease ++
      [.poll 0 .confirm, .poll 0 (.mark .none .other)])).map
        (fun w => ([0, 1].map fun j => (w.pollers j).batch.map LeasedOutboxEvent.id,
          (w.pollers 0).sending.map LeasedOutboxEvent.id, w.outboxLocks)) =
      some ([[Uuid.repeated 4], [Uuid.repeated 3, Uuid.repeated 4]], some (Uuid.repeated 4),
        [(Uuid.repeated 3, none, some 1), (Uuid.repeated 4, none, some 1)]) := rfl
  obtain ⟨w, hw, hrun⟩ := Option.map_eq_some_iff.mp hrun
  simp only [List.map_cons, List.map_nil, Prod.mk.injEq, List.cons.injEq, and_true] at hrun
  obtain ⟨⟨hfirst, hsecond⟩, hsending, hlocks⟩ := hrun
  have hrow : (Uuid.repeated 4, none, some 1) ∈ w.outboxLocks := by
    rw [hlocks]
    exact List.mem_cons_of_mem _ List.mem_cons_self
  obtain ⟨e, he, hid, hpub, -⟩ := exists_of_outboxLocks hrow
  refine ⟨w, hw, ⟨?_, e, he, hid, hpub⟩, ⟨?_, e, he, hid, hpub⟩, hsending, ?_⟩
  · rw [hfirst]
    exact List.mem_cons_self
  · rw [hsecond]
    exact List.mem_cons_of_mem _ List.mem_cons_self
  · intro e he
    have hmem : (e.id, e.publishedAt, e.lockedBy) ∈ w.outboxLocks := List.mem_map_of_mem he
    rw [hlocks] at hmem
    simp only [List.mem_cons, Prod.mk.injEq, List.not_mem_nil, or_false] at hmem
    rcases hmem with ⟨-, -, hlock⟩ | ⟨-, -, hlock⟩
    · exact hlock
    · exact hlock

end ScaleForge
