import ScaleForge.OutboxSafety

/-!
# Deferrals are fenced

An instance writes about a row of its batch where `lockedBy` still names the instance;
no number tells one lease from another.  None is needed: an instance leases only when it
has no batch, so a row of its batch that names it has not been leased again, and every
other write clears the lock or names somebody else.  The row is the row that was leased,
and the record in memory has its attempts.

## Main definitions

* `HeldSince` — the row has not changed since the instance leased it with this record.
* `IssuedAt` — the time at which an instance sent the deferral it awaits.
* `FencedWrite` — what a write of an instance finds and leaves behind.
* `defers` — a deferral of a row takes effect.

## Main results

* `heldSince_of_run` — a row of a batch that still names the instance is the row it leased.
* `attempts_eq_count` — the attempts of a row are its deferrals.
* `deferral_fenced` — **fenced deferral.**
-/

namespace ScaleForge

open OutboxPublisherService Transition

/-! ### What a write meets -/

/-- The instance leased the row with this record, in the run `as`, and it has been what
that lease made of it ever since. -/
def HeldSince (w₀ : World) (as : List Action) (j : ℕ) (record : LeasedOutboxEvent)
    (e : OutboxEvent) : Prop :=
  ∃ bs skipped cs t, as = bs ++ .poll j (.lease skipped .none) :: cs ∧
    system.exec w₀ bs = some t ∧ t.pollers j = .leasing ∧
    record ∈ leasedRecords 25 j t.clock skipped t.db.outboxEvents ∧
    e.leased = record ∧ e.lockedAt = some t.clock ∧
    ∀ ds, ds <+: cs → ∀ u,
      system.exec w₀ (bs ++ .poll j (.lease skipped .none) :: ds) = some u →
        e ∈ u.db.outboxEvents

/-- The instance came to the deferral it awaits, in the run `as`, at this time. -/
def IssuedAt (w₀ : World) (as : List Action) (j now : ℕ) : Prop :=
  ∃ bs a cs t, as = bs ++ .poll j a :: cs ∧ system.exec w₀ bs = some t ∧ t.clock = now ∧
    (∀ b, .poll j b ∉ cs) ∧
    ((∃ thrown, a = .publishFails thrown) ∨ ∃ fault thrown, a = .mark fault thrown)

/-- What a step `a` of the instance finds, `e`, and leaves behind, `e'`, when it writes about
a row of its batch. -/
structure FencedWrite (w₀ : World) (as : List Action) (j : ℕ) (a : PollAction)
    (record : LeasedOutboxEvent) (e e' : OutboxEvent) : Prop where
  /-- The row is the one the record was read from. -/
  id : e.id = record.id
  /-- The instance is its lessee. -/
  lessee : e.lockedBy = some j
  /-- It is so under the lease that returned the record. -/
  since : HeldSince w₀ as j record e
  /-- The record knows how often the row has been deferred. -/
  attempts : record.attempts = e.attempts
  /-- The write releases the lease. -/
  released : e'.lockedAt = none ∧ e'.lockedBy = none
  /-- The row is published, or it is deferred once more: it waits for as long as its
  attempts say, from the time the instance sent the write. -/
  effect : (∃ fault thrown publishedAt, a = .mark fault thrown ∧ e' = publish publishedAt e) ∨
    ∃ fault now lastError, a = .defer fault ∧ IssuedAt w₀ as j now ∧
      e'.attempts = e.attempts + 1 ∧
      e' = OutboxPublisherService.defer (now + min 60 (2 ^ min e'.attempts 6) * 1000) lastError e

/-- The step is a deferral of the row that takes effect. -/
def defers (id : Uuid) (w : World) (a : Action) (_ : World) : Bool :=
  match a with
  | .poll j (.defer fault) =>
    match w.pollers j with
    | .deferring record _ _ _ => fault ≠ .notExecuted && record.id = id &&
        w.db.outboxEvents.any (owned j id)
    | _ => false
  | _ => false

/-! ### The row a batch was leased with -/

/-- A write of a poller leaves a lock alone, clears it, or is the lease that sets it. -/
theorem mem_or_leasing_of_writes {i j now : ℕ} {p : Poller} {rows rows' : List OutboxEvent}
    (h : Writes i now p rows rows') {e' : OutboxEvent} (he' : e' ∈ rows')
    (hlock : e'.lockedBy = some j) : e' ∈ rows ∨ i = j ∧ p = .leasing := by
  cases h with
  | same => exact Or.inl he'
  | lease skipped =>
    obtain ⟨e, he, rfl⟩ := Table.mem_update.mp he'
    split at hlock
    · exact Or.inr ⟨Option.some.inj hlock, rfl⟩
    · next hnot =>
      rw [if_neg hnot]
      exact Or.inl he
  | mark record rest publishedAt =>
    obtain ⟨e, he, rfl⟩ := Table.mem_update.mp he'
    split at hlock
    · cases hlock
    · next hnot =>
      rw [if_neg hnot]
      exact Or.inl he
  | defer record rest nextAttemptAt lastError =>
    obtain ⟨e, he, rfl⟩ := Table.mem_update.mp he'
    split at hlock
    · cases hlock
    · next hnot =>
      rw [if_neg hnot]
      exact Or.inl he

section Step

variable {w w' : World} {a : Action} {j : ℕ}

/-- **A row that names an instance after a step did so before**, unless the instance was
leasing. -/
theorem mem_of_lockedBy (h : w.step a = some w') (hj : w.pollers j ≠ .leasing)
    {e : OutboxEvent} (he : e ∈ w'.db.outboxEvents) (hlock : e.lockedBy = some j) :
    e ∈ w.db.outboxEvents := by
  rcases (change_of_step h).outbox with ⟨i, hwrites⟩ | ⟨id, type, at', ai, pl, ci, hnew⟩
  · rcases mem_or_leasing_of_writes hwrites he hlock with hmem | ⟨rfl, hleasing⟩
    · exact hmem
    · exact absurd hleasing hj
  · rw [hnew] at he
    rcases List.mem_append.mp he with hmem | hrow
    · exact hmem
    · rw [List.mem_singleton.mp hrow] at hlock
      cases hlock

/-- **A record of a batch was there before the step, or the step leased it.** -/
theorem mem_batch_of_step (h : w.step a = some w') {r : LeasedOutboxEvent}
    (hr : r ∈ (w'.pollers j).batch) :
    r ∈ (w.pollers j).batch ∨ ∃ skipped, a = .poll j (.lease skipped .none) ∧
      w.pollers j = .leasing ∧
      r ∈ leasedRecords 25 j w.clock skipped w.db.outboxEvents ∧
      w'.db.outboxEvents = lease 25 j w.clock skipped w.db.outboxEvents := by
  rcases polls_of_step h with ⟨i, b, p, rows, new, rfl, hpolls, rfl⟩ | ⟨-, -, hsame⟩
  · by_cases hij : j = i
    · subst hij
      rw [World.polled_pollers_self] at hr
      rcases mem_batch_of_polls hpolls hr with hold | ⟨skipped, rfl, hleasing, hrec, hrows⟩
      · exact Or.inl hold
      · exact Or.inr ⟨skipped, rfl, hleasing, hrec, hrows⟩
    · rw [World.polled_pollers_of_ne w hij] at hr
      exact Or.inl hr
  · rw [hsame] at hr
    exact Or.inl hr

/-- The row of a record that has just been leased. -/
theorem of_leasedRecords {rows : List OutboxEvent} (hk : Table.UniqueOn OutboxEvent.id rows)
    {now : ℕ} {skipped : List Uuid} {r : LeasedOutboxEvent}
    (hr : r ∈ leasedRecords 25 j now skipped rows) {e : OutboxEvent}
    (he : e ∈ lease 25 j now skipped rows) (hid : e.id = r.id) :
    e.leased = r ∧ e.lockedAt = some now := by
  have huniq : Table.UniqueOn OutboxEvent.id (lease 25 j now skipped rows) :=
    Table.uniqueOn_update hk fun _ _ _ => rfl
  obtain ⟨e', he', rfl⟩ := List.mem_map.mp hr
  obtain ⟨hmem, hpick⟩ := List.mem_filter.mp he'
  rw [huniq.eq_of_key he hmem hid]
  refine ⟨rfl, ?_⟩
  obtain ⟨e₀, -, rfl⟩ := Table.mem_update.mp hmem
  split
  · rfl
  · next hnot =>
    rw [if_neg hnot] at hpick
    exact absurd hpick hnot

end Step

section Run

variable {w₀ w w' : World} {as : List Action} {j : ℕ}

/-- A row that a step leaves alone is held on. -/
theorem HeldSince.step {a : Action} {r : LeasedOutboxEvent} {e : OutboxEvent}
    (h : HeldSince w₀ as j r e) (hrun : system.exec w₀ as = some w) (hstep : w.step a = some w')
    (he : e ∈ w'.db.outboxEvents) : HeldSince w₀ (as ++ [a]) j r e := by
  obtain ⟨bs, skipped, cs, t, rfl, hbs, hj, hr, hleased, hlocked, hkeep⟩ := h
  refine ⟨bs, skipped, cs ++ [a], t, by simp, hbs, hj, hr, hleased, hlocked, fun ds hds u hu => ?_⟩
  rcases List.prefix_concat_iff.mp hds with rfl | hprefix
  · have hlast : system.exec w₀ (bs ++ .poll j (.lease skipped .none) :: (cs ++ [a])) =
        some w' := by
      rw [← List.cons_append, ← List.append_assoc, Sys.exec_append, hrun, Option.bind_some,
        Sys.exec_singleton]
      exact hstep
    rw [hlast, Option.some.injEq] at hu
    rwa [← hu]
  · exact hkeep ds hprefix u hu

/-- **A row of a batch that still names the instance is the row it leased**, and has not
changed since. -/
theorem heldSince_of_run (h0 : system.init w₀) (h : system.exec w₀ as = some w) :
    ∀ j r e, r ∈ (w.pollers j).batch → e ∈ w.db.outboxEvents → e.id = r.id →
      e.lockedBy = some j → HeldSince w₀ as j r e := by
  refine Sys.run_invariant (I := fun as w => ∀ j r e, r ∈ (w.pollers j).batch →
    e ∈ w.db.outboxEvents → e.id = r.id → e.lockedBy = some j → HeldSince w₀ as j r e) ?_ ?_ h
  · intro j r e hr
    rw [h0.2.2.2.2.2.2.1 j] at hr
    cases hr
  intro bs v a v' hrun ih hstep j r e hr he hid hlock
  have hv : system.Reachable v := Sys.Reachable.exec (.init h0) hrun
  rcases mem_batch_of_step hstep hr with hold | ⟨skipped, rfl, hj, hrec, hrows⟩
  · have hbusy : v.pollers j ≠ .leasing := by
      intro hj
      rw [hj] at hold
      cases hold
    exact (ih j r e hold (mem_of_lockedBy hstep hbusy he hlock) hid hlock).step hrun hstep he
  · have hrow := he
    rw [hrows] at hrow
    obtain ⟨hleased, hlocked⟩ := of_leasedRecords (keys_of_reachable hv).outboxEvents hrec hrow hid
    refine ⟨bs, skipped, [], v, rfl, hrun, hj, hrec, hleased, hlocked, fun ds hds u hu => ?_⟩
    rw [List.prefix_nil.mp hds, Sys.exec_append, hrun, Option.bind_some, Sys.exec_singleton] at hu
    rw [show system.step v (.poll j (.lease skipped .none)) = some v' from hstep,
      Option.some.injEq] at hu
    rwa [← hu]

/-- **An instance that awaits a deferral has computed it when it came there.** -/
theorem issuedAt_of_run (h0 : system.init w₀) (h : system.exec w₀ as = some w) :
    ∀ j record rest nextAttemptAt lastError,
      w.pollers j = .deferring record rest nextAttemptAt lastError →
        ∃ now, IssuedAt w₀ as j now ∧
          nextAttemptAt = now + delaySeconds (record.attempts + 1) * 1000 := by
  refine Sys.run_invariant (I := fun as w => ∀ j record rest nextAttemptAt lastError,
    w.pollers j = .deferring record rest nextAttemptAt lastError →
      ∃ now, IssuedAt w₀ as j now ∧
        nextAttemptAt = now + delaySeconds (record.attempts + 1) * 1000) ?_ ?_ h
  · intro j record rest nextAttemptAt lastError hj
    rw [h0.2.2.2.2.2.2.1 j] at hj
    cases hj
  intro bs v a v' hrun ih hstep j record rest nextAttemptAt lastError hj
  -- the instance was there already, and something else has moved
  have hkeep : v'.pollers j = v.pollers j → (∀ b, a ≠ .poll j b) →
      ∃ now, IssuedAt w₀ (bs ++ [a]) j now ∧
        nextAttemptAt = now + delaySeconds (record.attempts + 1) * 1000 := by
    intro hsame ha
    obtain ⟨now, ⟨cs, b, ds, t, rfl, ht, hnow, hothers, hkind⟩, hnext⟩ :=
      ih j record rest nextAttemptAt lastError (hsame ▸ hj)
    refine ⟨now, ⟨cs, b, ds ++ [a], t, by simp, ht, hnow, fun b' hb' => ?_, hkind⟩, hnext⟩
    rcases List.mem_append.mp hb' with hold | hlast
    · exact hothers b' hold
    · exact ha b' (List.mem_singleton.mp hlast).symm
  rcases polls_of_step hstep with ⟨i, b, p, rows, new, rfl, hpolls, rfl⟩ | ⟨hother, -, hsame⟩
  · by_cases hij : j = i
    · subst hij
      rw [World.polled_pollers_self] at hj
      subst hj
      generalize hq : v.pollers j = q at hpolls
      generalize hp : Poller.deferring record rest nextAttemptAt lastError = p at hpolls
      cases hpolls with
      | publishFailed record' rest' thrown =>
        cases hp
        exact ⟨v.clock, ⟨bs, _, [], v, rfl, hrun, rfl, fun _ => List.not_mem_nil,
          Or.inl ⟨thrown, rfl⟩⟩, rfl⟩
      | @markFailed record' rest' publishedAt thrown fault hfault =>
        cases hp
        exact ⟨v.clock, ⟨bs, _, [], v, rfl, hrun, rfl, fun _ => List.not_mem_nil,
          Or.inr ⟨fault, thrown, rfl⟩⟩, rfl⟩
      | leased skipped =>
        generalize leasedRecords 25 j v.clock skipped v.db.outboxEvents = records at hp
        cases records <;> cases hp
      | marked record' rest' publishedAt thrown => cases rest' <;> cases hp
      | deferred record' rest' nextAttemptAt' lastError' => cases rest' <;> cases hp
      | _ => cases hp
    · refine hkeep (World.polled_pollers_of_ne v hij p rows new) fun b' hb' => hij ?_
      cases hb'
      rfl
  · exact hkeep (congrFun hsame j) fun b => hother j b

end Run

/-! ### The attempts of a row -/

/-- The attempts of the row with an id, or zero before there is one. -/
def attemptsOf (id : Uuid) (rows : List OutboxEvent) : ℕ :=
  (Table.find OutboxEvent.id id rows).elim 0 OutboxEvent.attempts

/-- A write that keeps the attempts of every row. -/
theorem attemptsOf_update {id : Uuid} {p : OutboxEvent → Bool} {f : OutboxEvent → OutboxEvent}
    (rows : List OutboxEvent) (hid : ∀ e, (f e).id = e.id)
    (hf : ∀ e, (f e).attempts = e.attempts) :
    attemptsOf id (Table.update p f rows) = attemptsOf id rows := by
  unfold attemptsOf
  rw [Table.find_update hid]
  cases Table.find OutboxEvent.id id rows with
  | none => rfl
  | some e =>
    show (if p e then f e else e).attempts = e.attempts
    split
    · exact hf e
    · rfl

/-- A deferral raises the attempts of its row, if the row names the instance. -/
theorem attemptsOf_deferral {j : ℕ} {id recordId : Uuid} {nextAttemptAt : ℕ} {lastError : String}
    {rows : List OutboxEvent} (hk : Table.UniqueOn OutboxEvent.id rows) :
    attemptsOf id (deferral j recordId nextAttemptAt lastError rows) =
      attemptsOf id rows + if recordId = id ∧ rows.any (owned j id) then 1 else 0 := by
  have hkey : ∀ e, (OutboxPublisherService.defer nextAttemptAt lastError e).id = e.id :=
    fun _ => rfl
  unfold attemptsOf deferral
  rw [Table.find_update hkey]
  cases hrow : Table.find OutboxEvent.id id rows with
  | none =>
    have hnone : rows.any (owned j id) = false := by
      rw [List.any_eq_false]
      intro e he howned
      simp only [owned, Bool.and_eq_true, decide_eq_true_eq] at howned
      exact Table.find_eq_none_iff.mp hrow e he howned.1
    rw [hnone]
    simp
  | some e =>
    obtain ⟨he, hid⟩ := Table.find_mem hrow
    have hany : rows.any (owned j id) = true ↔ e.lockedBy = some j := by
      rw [List.any_eq_true]
      constructor
      · rintro ⟨e', he', howned⟩
        simp only [owned, Bool.and_eq_true, decide_eq_true_eq] at howned
        rw [hk.eq_of_key he he' (hid.trans howned.1.symm)]
        exact howned.2
      · intro hlock
        exact ⟨e, he, by simp [owned, hid, hlock]⟩
    have hmeets : owned j recordId e = true ↔ recordId = id ∧ rows.any (owned j id) = true := by
      rw [hany]
      simp only [owned, Bool.and_eq_true, decide_eq_true_eq, hid]
      rw [eq_comm]
    show (if owned j recordId e = true then _ else e).attempts = _
    by_cases hown : owned j recordId e = true
    · rw [if_pos hown, if_pos (hmeets.mp hown)]
      rfl
    · rw [if_neg hown, if_neg fun h => hown (hmeets.mpr h)]
      rfl

section Count

variable {w w' : World} {a : Action}

/-- A step that keeps the rows leaves the attempts alone: a row it adds has none. -/
theorem attemptsOf_of_subset (hw : system.Reachable w) (h : w.step a = some w')
    (hkeep : w.db.outboxEvents ⊆ w'.db.outboxEvents) (id : Uuid) :
    attemptsOf id w'.db.outboxEvents = attemptsOf id w.db.outboxEvents := by
  have hk' := (keys_of_reachable (hw.step h)).outboxEvents
  unfold attemptsOf
  cases hrow : Table.find OutboxEvent.id id w.db.outboxEvents with
  | some e =>
    obtain ⟨he, hid⟩ := Table.find_mem hrow
    rw [(Table.find_eq_some_iff hk').mpr ⟨hkeep he, hid⟩]
  | none =>
    rcases (change_of_step h).outbox with ⟨i, hwrites⟩ | ⟨id', type, at', ai, pl, ci, hnew⟩
    · obtain ⟨q, f, hrows, hf⟩ := hwrites.eq_update
      have hkey : ∀ e, (f e).id = e.id := fun e => congrArg LeasedOutboxEvent.id (hf e)
      rw [hrows, Table.find_update hkey, hrow]
      rfl
    · rw [hnew] at hk' ⊢
      rw [Table.find_append_singleton (Table.uniqueOn_append_singleton.mp hk').2, hrow]
      split
      · rfl
      · rfl

/-- **A step raises the attempts of a row by one when it is a deferral of the row that
takes effect, and otherwise leaves them alone.** -/
theorem attemptsOf_of_step (hw : system.Reachable w) (h : w.step a = some w') (id : Uuid) :
    attemptsOf id w'.db.outboxEvents =
      attemptsOf id w.db.outboxEvents + if defers id w a w' then 1 else 0 := by
  rcases polls_of_step h with ⟨i, b, p, rows, new, rfl, hpolls, rfl⟩ | ⟨hother, hkeep, -⟩
  · show attemptsOf id rows = _
    have hk := (keys_of_reachable hw).outboxEvents
    generalize hq : w.pollers i = q at hpolls
    cases hpolls with
    | leased skipped => exact attemptsOf_update _ (fun _ => rfl) fun _ => rfl
    | marked record rest publishedAt thrown =>
      exact attemptsOf_update _ (fun _ => rfl) fun _ => rfl
    | @leaseFailed skipped fault hfault =>
      cases fault with
      | notExecuted => rfl
      | _ => exact attemptsOf_update _ (fun _ => rfl) fun _ => rfl
    | @markFailed record rest publishedAt thrown fault hfault =>
      cases fault with
      | notExecuted => rfl
      | _ => exact attemptsOf_update _ (fun _ => rfl) fun _ => rfl
    | deferred record rest nextAttemptAt lastError =>
      rw [attemptsOf_deferral hk]
      simp [defers, hq]
    | @deferFailed record rest nextAttemptAt lastError fault hfault =>
      cases fault with
      | none => exact absurd rfl hfault
      | notExecuted => simp [defers, hq, OutboxPublisherService.effect]
      | replyLost =>
        show attemptsOf id (deferral i record.id nextAttemptAt lastError _) = _
        rw [attemptsOf_deferral hk]
        simp [defers, hq]
    | _ => rfl
  · rw [attemptsOf_of_subset hw h hkeep id]
    cases a with
    | poll i b => exact absurd rfl (hother i b)
    | _ => rfl

/-- **The attempts of a row are its deferrals.** -/
theorem attempts_eq_count {w₀ : World} {as : List Action} (h0 : system.init w₀)
    (h : system.exec w₀ as = some w) (id : Uuid) :
    attemptsOf id w.db.outboxEvents = system.count (defers id) w₀ as := by
  have hbalance := Sys.count_balance (S := system) (p := defers id)
    (f := fun w => attemptsOf id w.db.outboxEvents) (g := fun _ => 0)
    (fun s a s' hs hstep => attemptsOf_of_step hs hstep id) (.init h0) h
  have hzero : attemptsOf id w₀.db.outboxEvents = 0 := by
    rw [h0.2.2.2.2.1]
    rfl
  simpa [hzero] using hbalance

end Count

/-! ### The writes of a batch -/

/-- A row that a fenced statement changes named the instance, and is now what the
statement makes of it. -/
theorem owned_of_effect {j : ℕ} {id : Uuid} {fault : Fault} {f : OutboxEvent → OutboxEvent}
    {rows : List OutboxEvent} (hk : Table.UniqueOn OutboxEvent.id rows)
    (hf : ∀ e, (f e).id = e.id) {e e' : OutboxEvent} (he : e ∈ rows)
    (he' : e' ∈ effect fault (Table.update (owned j id) f) rows) (hid : e'.id = e.id)
    (hne : e' ≠ e) : e.id = id ∧ e.lockedBy = some j ∧ e' = f e := by
  have hupdate : e' ∈ Table.update (owned j id) f rows := by
    cases fault with
    | notExecuted => exact absurd (hk.eq_of_key he' he hid) hne
    | none => exact he'
    | replyLost => exact he'
  have heq := hk.eq_of_mem_update he hupdate hid hf
  split at heq
  · next howned =>
    simp only [owned, Bool.and_eq_true, decide_eq_true_eq] at howned
    exact ⟨howned.1, howned.2, heq⟩
  · exact absurd heq hne

section Fenced

variable {w₀ w : World} {as : List Action} {j : ℕ} {record : LeasedOutboxEvent}
  {rest : List LeasedOutboxEvent} {fault : Fault} {e e' : OutboxEvent}

/-- A row that a write meets is the row the instance leased, and the record knows it. -/
theorem attempts_of_batch (h0 : system.init w₀) (h : system.exec w₀ as = some w)
    (hbatch : (w.pollers j).batch = record :: rest) (he : e ∈ w.db.outboxEvents)
    (hid : e.id = record.id) (hlock : e.lockedBy = some j) :
    HeldSince w₀ as j record e ∧ record.attempts = e.attempts := by
  have hmem : record ∈ (w.pollers j).batch := by
    rw [hbatch]
    exact List.mem_cons_self
  have hsince := heldSince_of_run h0 h j record e hmem he hid hlock
  refine ⟨hsince, ?_⟩
  obtain ⟨bs, skipped, cs, t, -, -, -, -, hleased, -⟩ := hsince
  rw [← hleased]
  rfl

/-- What a mark changes. -/
theorem fenced_mark {publishedAt : ℕ} {thrown : Thrown} (h0 : system.init w₀)
    (h : system.exec w₀ as = some w) (hj : w.pollers j = .marking record rest publishedAt)
    (he : e ∈ w.db.outboxEvents)
    (he' : e' ∈ effect fault (markPublished j record.id publishedAt) w.db.outboxEvents)
    (hid : e'.id = e.id) (hne : e' ≠ e) :
    FencedWrite w₀ as j (.mark fault thrown) record e e' := by
  have hk := (keys_of_reachable (Sys.Reachable.exec (.init h0) h)).outboxEvents
  obtain ⟨hrecord, hlock, rfl⟩ :=
    owned_of_effect (f := publish publishedAt) hk (fun _ => rfl) he he' hid hne
  obtain ⟨hsince, hattempts⟩ := attempts_of_batch h0 h (by rw [hj]; rfl) he hrecord hlock
  exact ⟨hrecord, hlock, hsince, hattempts, ⟨rfl, rfl⟩,
    Or.inl ⟨fault, thrown, publishedAt, rfl, rfl⟩⟩

/-- What a deferral changes. -/
theorem fenced_defer {nextAttemptAt : ℕ} {lastError : String} (h0 : system.init w₀)
    (h : system.exec w₀ as = some w)
    (hj : w.pollers j = .deferring record rest nextAttemptAt lastError)
    (he : e ∈ w.db.outboxEvents)
    (he' : e' ∈ effect fault (deferral j record.id nextAttemptAt lastError) w.db.outboxEvents)
    (hid : e'.id = e.id) (hne : e' ≠ e) :
    FencedWrite w₀ as j (.defer fault) record e e' := by
  have hk := (keys_of_reachable (Sys.Reachable.exec (.init h0) h)).outboxEvents
  obtain ⟨hrecord, hlock, rfl⟩ :=
    owned_of_effect (f := OutboxPublisherService.defer nextAttemptAt lastError) hk
      (fun _ => rfl) he he' hid hne
  obtain ⟨hsince, hattempts⟩ := attempts_of_batch h0 h (by rw [hj]; rfl) he hrecord hlock
  obtain ⟨now, hnow, rfl⟩ := issuedAt_of_run h0 h j record rest nextAttemptAt lastError hj
  refine ⟨hrecord, hlock, hsince, hattempts, ⟨rfl, rfl⟩,
    Or.inr ⟨fault, now, lastError, rfl, hnow, rfl, ?_⟩⟩
  rw [hattempts]
  rfl

/-- **Fenced deferral.**  In every run the attempts of a row are the deferrals of it that
took effect; and whatever step of an instance but a lease changes a row, the row is still
under the lease that returned the record the instance is at. -/
theorem deferral_fenced (h0 : system.init w₀) (h : system.exec w₀ as = some w) :
    (∀ e ∈ w.db.outboxEvents, e.attempts = system.count (defers e.id) w₀ as) ∧
    ∀ j a w', w.step (.poll j a) = some w' → (∀ skipped fault, a ≠ .lease skipped fault) →
      ∀ e ∈ w.db.outboxEvents, ∀ e' ∈ w'.db.outboxEvents, e'.id = e.id → e' ≠ e →
        ∃ record, (w.pollers j).batch.head? = some record ∧
          FencedWrite w₀ as j a record e e' := by
  have hk := (keys_of_reachable (Sys.Reachable.exec (.init h0) h)).outboxEvents
  refine ⟨fun e he => ?_, fun j a w' hstep hlease e he e' he' hid hne => ?_⟩
  · rw [← attempts_eq_count h0 h, attemptsOf, (Table.find_eq_some_iff hk).mpr ⟨he, rfl⟩]
    rfl
  have hsame : e' ∉ w.db.outboxEvents := fun hmem => hne (hk.eq_of_key hmem he hid)
  obtain ⟨p, rows, new, hpoll, rfl⟩ := World.step_poll hstep
  have hrows : e' ∈ rows := he'
  generalize hq : w.pollers j = q at hpoll
  cases step_cases hpoll with
  | leased skipped => exact absurd rfl (hlease skipped _)
  | leaseFailed skipped hfault => exact absurd rfl (hlease skipped _)
  | marked record rest publishedAt thrown =>
    exact ⟨record, rfl, fenced_mark h0 h hq he
      (show e' ∈ effect .none (markPublished j record.id publishedAt) _ from hrows) hid hne⟩
  | markFailed record rest publishedAt thrown hfault =>
    exact ⟨record, rfl, fenced_mark h0 h hq he hrows hid hne⟩
  | deferred record rest nextAttemptAt lastError =>
    exact ⟨record, rfl, fenced_defer h0 h hq he
      (show e' ∈ effect .none (deferral j record.id nextAttemptAt lastError) _ from hrows) hid hne⟩
  | deferFailed record rest nextAttemptAt lastError hfault =>
    exact ⟨record, rfl, fenced_defer h0 h hq he hrows hid hne⟩
  | _ => exact absurd hrows hsame

end Fenced

/-- An instance publishes the event of a new order, and the publish fails. -/
def failSample : List Action :=
  Action.sampleOrder ++
    [.poll 0 .interval, .poll 0 (.lease [] .none), .tick 10, .poll 0 (.publishFails .other)]

/-- Its deferral finds the row under its lease, and the row waits for two seconds. -/
theorem sample_deferral_fenced :
    ∃ w w', system.exec World.sample failSample = some w ∧
      w.step (.poll 0 (.defer .none)) = some w' ∧
      (w'.db.outboxEvents.map fun e => (e.attempts, e.nextAttemptAt)) = [(1, 2010)] ∧
      ∀ e ∈ w.db.outboxEvents, ∀ e' ∈ w'.db.outboxEvents, e'.id = e.id → e' ≠ e →
        ∃ record, (w.pollers 0).batch.head? = some record ∧
          FencedWrite World.sample failSample 0 (.defer .none) record e e' := by
  have hrun : ((system.exec World.sample failSample).bind fun w =>
      w.step (.poll 0 (.defer .none))).map
        (fun w' => w'.db.outboxEvents.map fun e => (e.attempts, e.nextAttemptAt)) =
          some [(1, 2010)] := by decide
  obtain ⟨w', hw', hst⟩ := Option.map_eq_some_iff.mp hrun
  obtain ⟨w, hw, hstep⟩ := Option.bind_eq_some_iff.mp hw'
  exact ⟨w, w', hw, hstep, hst,
    (deferral_fenced World.sample_initial hw).2 0 _ w' hstep (fun _ _ => PollAction.noConfusion)⟩

end ScaleForge
