import ScaleForge.DeferralFencing
import Mathlib.Algebra.BigOperators.Group.Finset.Basic

/-!
# How often an event is sent

A row goes to the broker again when a publish or a mark has failed, or when an instance
has been too slow for its lease.  Nothing else sends it twice.  An instance sends the rows
of a batch once each, a batch is a lease, and a lease finds its row unlocked or takes it
over; and once a row has been leased only a deferral unlocks it for another, so every lease
but the first is paid for by a deferral or is a takeover.

## Main definitions

* `sends` — an instance begins to publish a row.
* `takesOver` — a lease takes effect on a row whose lease has run out.
* `World.sendsLeft` — the sends that have been paid for.

## Main results

* `sends_bounded` — **a row is sent at most once more than it has been deferred and taken
  over.**
-/

namespace ScaleForge

open OutboxPublisherService Transition

/-! ### Sends and leases -/

/-- The step is one in which an instance begins to publish the row. -/
def sends (id : Uuid) (_ : World) (a : Action) (w' : World) : Bool :=
  match a with
  | .poll j _ => (w'.pollers j).sending.any fun record => record.id = id
  | _ => false

/-- The row is among those that a lease query picks, and it is locked. -/
def leases (id : Uuid) (w : World) (a : Action) (_ : World) : Bool :=
  match a with
  | .poll _ (.lease skipped fault) =>
    fault ≠ .notExecuted && id ∈ picked 25 w.clock skipped w.db.outboxEvents
  | _ => false

/-- The row was locked already: its lease has run out. -/
def takesOver (id : Uuid) (w : World) (a : Action) (w' : World) : Bool :=
  leases id w a w' && w.db.outboxEvents.any fun e => e.id = id && e.lockedAt.isSome

/-! ### What a batch still sends -/

/-- How often an instance is still to begin publishing the row in this batch. -/
def Poller.toSend (id : Uuid) (p : Poller) : ℕ :=
  (p.batch.tail.map LeasedOutboxEvent.id).count id

/-- Moving on to the next record is sending it. -/
theorem toSend_next (id : Uuid) (records : List LeasedOutboxEvent) :
    (next records).toSend id +
        (if (next records).sending.any fun record => record.id = id then 1 else 0) =
      (records.map LeasedOutboxEvent.id).count id := by
  cases records with
  | nil => rfl
  | cons record rest => simp [next, Poller.toSend, Poller.batch, Poller.sending, List.count_cons]

/-- A batch that has just been leased lists a row once, if the lease has picked it. -/
theorem count_leasedRecords_le {j now : ℕ} {skipped : List Uuid} {rows : List OutboxEvent}
    (hk : Table.UniqueOn OutboxEvent.id rows) (id : Uuid) :
    ((leasedRecords 25 j now skipped rows).map LeasedOutboxEvent.id).count id ≤
      if id ∈ picked 25 now skipped rows then 1 else 0 := by
  have huniq : Table.UniqueOn OutboxEvent.id (lease 25 j now skipped rows) :=
    Table.uniqueOn_update hk fun _ _ _ => rfl
  have hids : (leasedRecords 25 j now skipped rows).map LeasedOutboxEvent.id =
      ((lease 25 j now skipped rows).filter fun e =>
        e.id ∈ picked 25 now skipped rows).map OutboxEvent.id := by
    rw [leasedRecords, List.map_map]
    rfl
  rw [hids]
  split
  · exact List.nodup_iff_count_le_one.mp ((List.filter_sublist.map OutboxEvent.id).nodup huniq) id
  · next hnot =>
    refine Nat.le_of_eq (List.count_eq_zero_of_not_mem fun hmem => hnot ?_)
    obtain ⟨e, he, rfl⟩ := List.mem_map.mp hmem
    simpa using (List.mem_filter.mp he).2

/-- **A step of an instance sends what it has left to send**, and a lease adds a row to it at
most once. -/
theorem toSend_of_step {w w' : World} {i : ℕ} {b : PollAction} (hw : system.Reachable w)
    (h : w.step (.poll i b) = some w') (id : Uuid) :
    (w'.pollers i).toSend id + (if sends id w (.poll i b) w' then 1 else 0) ≤
      (w.pollers i).toSend id + if leases id w (.poll i b) w' then 1 else 0 := by
  have hk := (keys_of_reachable hw).outboxEvents
  obtain ⟨p, rows, new, hpoll, rfl⟩ := World.step_poll h
  unfold sends
  simp only [World.polled_pollers_self]
  generalize hq : w.pollers i = q at hpoll
  cases step_cases hpoll with
  | leased skipped =>
    rw [toSend_next]
    refine (count_leasedRecords_le hk id).trans (Nat.le_trans ?_ (Nat.le_add_left _ _))
    simp [leases]
  | marked record rest publishedAt thrown =>
    rw [toSend_next]
    exact Nat.le_add_right _ _
  | deferred record rest nextAttemptAt lastError =>
    rw [toSend_next]
    exact Nat.le_add_right _ _
  | confirmed record rest => exact Nat.le_add_right _ _
  | publishFailed record rest thrown => exact Nat.le_add_right _ _
  | markFailed record rest publishedAt thrown hfault => exact Nat.le_add_right _ _
  | _ => exact Nat.zero_le _

/-! ### What a lease costs -/

/-- No instance has locked the row, and it is unpublished: the next lease of it is free. -/
def free (id : Uuid) (rows : List OutboxEvent) : Bool :=
  rows.all fun e => e.id ≠ id || (e.publishedAt.isNone && e.lockedAt.isNone)

theorem free_iff {id : Uuid} {rows : List OutboxEvent} :
    free id rows = true ↔ ∀ e ∈ rows, e.id = id → e.publishedAt = none ∧ e.lockedAt = none := by
  simp only [free, List.all_eq_true, Bool.or_eq_true, decide_eq_true_eq, Bool.and_eq_true,
    Option.isNone_iff_eq_none, ne_eq, or_iff_not_imp_left, not_not]

/-- A write that frees no row that was not free. -/
theorem free_of_update {id : Uuid} {p : OutboxEvent → Bool} {f : OutboxEvent → OutboxEvent}
    {rows : List OutboxEvent} (hid : ∀ e, (f e).id = e.id)
    (hf : ∀ e ∈ rows, e.id = id → p e = true →
      ¬((f e).publishedAt = none ∧ (f e).lockedAt = none))
    (h : free id (Table.update p f rows) = true) : free id rows = true := by
  rw [free_iff] at h ⊢
  intro e he heid
  by_cases hp : p e = true
  · exact absurd (h _ (Table.mem_update_of_pos he hp) ((hid e).trans heid)) (hf e he heid hp)
  · exact h e (Table.mem_update_of_neg he (Bool.eq_false_iff.mpr hp)) heid

theorem free_of_effect {id : Uuid} {fault : Fault} {p : OutboxEvent → Bool}
    {f : OutboxEvent → OutboxEvent} {rows : List OutboxEvent} (hid : ∀ e, (f e).id = e.id)
    (hf : ∀ e ∈ rows, e.id = id → p e = true →
      ¬((f e).publishedAt = none ∧ (f e).lockedAt = none))
    (h : free id (effect fault (Table.update p f) rows) = true) : free id rows = true := by
  cases fault with
  | notExecuted => exact h
  | _ => exact free_of_update hid hf h

/-- A lease that takes effect finds its row unlocked or takes it over, and locks it. -/
theorem free_lease {w : World} {i : ℕ} {skipped : List Uuid} (fault : Fault)
    (hk : Table.UniqueOn OutboxEvent.id w.db.outboxEvents) (w' : World) (id : Uuid) :
    (if free id (effect fault (lease 25 i w.clock skipped) w.db.outboxEvents) then 1 else 0) +
        (if leases id w (.poll i (.lease skipped fault)) w' then 1 else 0) ≤
      (if free id w.db.outboxEvents then 1 else 0) +
        if takesOver id w (.poll i (.lease skipped fault)) w' then 1 else 0 := by
  by_cases hleases : leases id w (.poll i (.lease skipped fault)) w' = true
  · have hleased := hleases
    simp only [leases, Bool.and_eq_true, decide_eq_true_eq] at hleased
    obtain ⟨hfault, hpick⟩ := hleased
    obtain ⟨e, hsorted, rfl⟩ := List.mem_map.mp hpick
    have he : e ∈ w.db.outboxEvents := by
      have hmem := List.mem_of_mem_take hsorted
      rw [List.mem_insertionSort] at hmem
      exact List.mem_of_mem_filter hmem
    -- the row is locked now
    have hlocked : free e.id (effect fault (lease 25 i w.clock skipped) w.db.outboxEvents) =
        false := by
      rw [Bool.eq_false_iff]
      intro hfree
      have hmem : lock i w.clock e ∈
          effect fault (lease 25 i w.clock skipped) w.db.outboxEvents := by
        cases fault with
        | notExecuted => exact absurd rfl hfault
        | _ => exact Table.mem_update_of_pos he (decide_eq_true hpick)
      cases (free_iff.mp hfree _ hmem rfl).2
    rw [hlocked, hleases]
    cases hlock : e.lockedAt with
    | none =>
      have hnone := publishedAt_of_leasable (of_mem_picked hk he hpick).1
      have hfree : free e.id w.db.outboxEvents = true := by
        rw [free_iff]
        intro e' he' hid
        rw [hk.eq_of_key he' he hid]
        exact ⟨hnone, hlock⟩
      rw [hfree]
      exact Nat.le_add_right _ _
    | some t =>
      have hover : takesOver e.id w (.poll i (.lease skipped fault)) w' = true := by
        rw [takesOver, hleases, Bool.true_and, List.any_eq_true]
        exact ⟨e, he, by simp [hlock]⟩
      rw [hover]
      exact Nat.le_add_left _ _
  · -- the row stays as it is
    have hsame : free id (effect fault (lease 25 i w.clock skipped) w.db.outboxEvents) = true →
        free id w.db.outboxEvents = true := by
      cases hfault : fault with
      | notExecuted => exact fun h => h
      | _ =>
        refine free_of_update (f := lock i w.clock) (fun _ => rfl) fun e _ hid hpick => ?_
        have hnot : ¬leases id w (.poll i (.lease skipped fault)) w' = true := hleases
        rw [← hid, hfault] at hnot
        exact absurd (by simpa [leases] using hpick) hnot
    rw [if_neg hleases]
    split
    · next hfree =>
      rw [if_pos (hsame hfree)]
      exact Nat.le_add_right _ _
    · exact Nat.zero_le _

/-- A deferral frees its row, or nothing. -/
theorem free_deferral {w : World} {i : ℕ} {record : LeasedOutboxEvent}
    {rest : List LeasedOutboxEvent} {nextAttemptAt : ℕ} {lastError : String} (fault : Fault)
    (hi : w.pollers i = .deferring record rest nextAttemptAt lastError) (w' : World) (id : Uuid)
    (h : free id (effect fault (deferral i record.id nextAttemptAt lastError)
      w.db.outboxEvents) = true) :
    free id w.db.outboxEvents = true ∨ defers id w (.poll i (.defer fault)) w' = true := by
  by_cases hdefers : defers id w (.poll i (.defer fault)) w' = true
  · exact .inr hdefers
  refine .inl ?_
  cases hfault : fault with
  | notExecuted =>
    rw [hfault] at h
    exact h
  | _ =>
    rw [hfault] at h
    refine free_of_update (f := OutboxPublisherService.defer nextAttemptAt lastError)
      (fun _ => rfl) (fun e he hid howned => ?_) h
    -- the deferral is of this row after all
    refine absurd ?_ hdefers
    simp only [owned, Bool.and_eq_true, decide_eq_true_eq] at howned
    simp only [defers, hi, hfault, Bool.and_eq_true, decide_eq_true_eq, List.any_eq_true]
    refine ⟨⟨by decide, howned.1.symm.trans hid⟩, e, he, ?_⟩
    simp [owned, hid, howned.2]

/-- **A step leases a row for free, after a deferral, or by taking it over.** -/
theorem free_of_step {w w' : World} {a : Action} (hw : system.Reachable w)
    (h : w.step a = some w') (id : Uuid) :
    (if free id w'.db.outboxEvents then 1 else 0) + (if leases id w a w' then 1 else 0) ≤
      (if free id w.db.outboxEvents then 1 else 0) + (if defers id w a w' then 1 else 0) +
        if takesOver id w a w' then 1 else 0 := by
  -- a step that leases nothing
  have hquiet : leases id w a w' = false → (free id w'.db.outboxEvents = true →
      free id w.db.outboxEvents = true ∨ defers id w a w' = true) →
      (if free id w'.db.outboxEvents then 1 else 0) + (if leases id w a w' then 1 else 0) ≤
        (if free id w.db.outboxEvents then 1 else 0) + (if defers id w a w' then 1 else 0) +
          if takesOver id w a w' then 1 else 0 := by
    intro hleases hfree
    rw [hleases, if_neg Bool.false_ne_true]
    split
    · next hfree' =>
      rcases hfree hfree' with hold | hdefers
      · rw [if_pos hold]
        omega
      · rw [if_pos hdefers]
        omega
    · exact Nat.zero_le _
  rcases polls_of_step h with ⟨i, b, p, rows, new, rfl, hpolls, rfl⟩ | ⟨hother, hkeep, -⟩
  · have hk := (keys_of_reachable hw).outboxEvents
    generalize hq : w.pollers i = q at hpolls
    cases hpolls with
    | leased skipped =>
      exact (free_lease .none hk _ id).trans (by omega)
    | @leaseFailed skipped fault hfault => exact (free_lease fault hk _ id).trans (by omega)
    | marked record rest publishedAt thrown =>
      refine hquiet rfl fun hfree => .inl ?_
      refine free_of_update (f := publish publishedAt) (fun _ => rfl)
        (fun _ _ _ _ hnone => ?_) hfree
      cases hnone.1
    | markFailed record rest publishedAt thrown hfault =>
      refine hquiet rfl fun hfree => .inl ?_
      refine free_of_effect (f := publish publishedAt) (fun _ => rfl)
        (fun _ _ _ _ hnone => ?_) hfree
      cases hnone.1
    | deferred record rest nextAttemptAt lastError =>
      exact hquiet rfl (free_deferral .none hq _ id)
    | deferFailed record rest nextAttemptAt lastError hfault =>
      exact hquiet rfl (free_deferral _ hq _ id)
    | _ => exact hquiet rfl .inl
  · refine hquiet ?_ fun hfree => .inl ?_
    · cases a with
      | poll i b => exact absurd rfl (hother i b)
      | _ => rfl
    · rw [free_iff] at hfree ⊢
      exact fun e he => hfree e (hkeep he)

/-! ### Runs -/

/-- The instances that take a step of the run. -/
def instances (as : List Action) : Finset ℕ :=
  (as.filterMap fun
    | .poll j _ => some j
    | _ => none).toFinset

theorem mem_instances {as : List Action} {j : ℕ} {b : PollAction} (h : .poll j b ∈ as) :
    j ∈ instances as :=
  List.mem_toFinset.mpr (List.mem_filterMap.mpr ⟨_, h, rfl⟩)

/-- The sends that have been paid for: those of the batches, and the free lease. -/
def World.sendsLeft (js : Finset ℕ) (id : Uuid) (w : World) : ℕ :=
  (∑ j ∈ js, (w.pollers j).toSend id) + if free id w.db.outboxEvents then 1 else 0

/-- **Every send of a row is paid for by a deferral or a takeover of it**, but for the first
lease. -/
theorem sendsLeft_of_step {w w' : World} {a : Action} (hw : system.Reachable w)
    (h : w.step a = some w') {js : Finset ℕ} (hjs : ∀ j b, a = .poll j b → j ∈ js) (id : Uuid) :
    w'.sendsLeft js id + (if sends id w a w' then 1 else 0) ≤
      w.sendsLeft js id + (if defers id w a w' then 1 else 0) +
        if takesOver id w a w' then 1 else 0 := by
  have hfree := free_of_step hw h id
  unfold World.sendsLeft
  cases a with
  | poll i b =>
    have hsend := toSend_of_step hw h id
    have hothers : ∑ j ∈ js.erase i, (w'.pollers j).toSend id =
        ∑ j ∈ js.erase i, (w.pollers j).toSend id := by
      obtain ⟨p, rows, new, -, rfl⟩ := World.step_poll h
      refine Finset.sum_congr rfl fun j hj => ?_
      rw [World.polled_pollers_of_ne w (Finset.ne_of_mem_erase hj)]
    rw [← Finset.add_sum_erase js _ (hjs i b rfl), ← Finset.add_sum_erase js _ (hjs i b rfl),
      hothers]
    omega
  | _ =>
    have hsame : w'.pollers = w.pollers := by
      rcases polls_of_step h with ⟨i, b, p, rows, new, hpoll, -⟩ | ⟨-, -, hsame⟩
      · cases hpoll
      · exact hsame
    rw [hsame]
    simp only [sends, leases, Bool.false_eq_true, if_false] at hfree ⊢
    omega

/-- **A row is sent at most once more than it has been deferred and taken over.**  In every
run, with any number of instances that crash, lose replies and fall behind their leases, an
event whose row nobody had to take over goes to the broker at most once for every failed
attempt, and once besides; and whoever takes a row over finds it unpublished, under a lease
that ran out more than thirty seconds after it was given. -/
theorem sends_bounded {w₀ w : World} {as : List Action} (h0 : system.init w₀)
    (h : system.exec w₀ as = some w) :
    (∀ e ∈ w.db.outboxEvents, system.count (sends e.id) w₀ as ≤
      1 + e.attempts + system.count (takesOver e.id) w₀ as) ∧
    ∀ id v a v', system.Takes w₀ as v a v' → takesOver id v a v' = true →
      ∃ e ∈ v.db.outboxEvents, e.id = id ∧ e.publishedAt = none ∧
        ∃ t, e.lockedAt = some t ∧ t + 30000 < v.clock := by
  refine ⟨fun e he => ?_, fun id v a v' htakes hover => ?_⟩
  · have hk := (keys_of_reachable (Sys.Reachable.exec (.init h0) h)).outboxEvents
    have hattempts : e.attempts = system.count (defers e.id) w₀ as := by
      rw [← attempts_eq_count h0 h, attemptsOf, (Table.find_eq_some_iff hk).mpr ⟨he, rfl⟩]
      rfl
    have hpaid := Sys.add_count_le_add (S := system) (p := sends e.id) (q := defers e.id)
      (r := takesOver e.id) (f := World.sendsLeft (instances as) e.id)
      (fun v a v' htakes => sendsLeft_of_step (htakes.reachable (.init h0)) htakes.step
        (fun j b ha => mem_instances (ha ▸ htakes.mem)) e.id) h
    have hstart : w₀.sendsLeft (instances as) e.id ≤ 1 := by
      unfold World.sendsLeft
      rw [Finset.sum_eq_zero fun j _ => ?_]
      · split <;> omega
      · rw [h0.2.2.2.2.2.2.1 j]
        rfl
    omega
  · have hv := htakes.reachable (.init h0)
    have hk := (keys_of_reachable hv).outboxEvents
    rw [takesOver, Bool.and_eq_true, List.any_eq_true] at hover
    obtain ⟨hleases, e, he, hrow⟩ := hover
    simp only [Bool.and_eq_true, decide_eq_true_eq] at hrow
    obtain ⟨rfl, hlocked⟩ := hrow
    obtain ⟨t, ht⟩ := Option.isSome_iff_exists.mp hlocked
    cases a with
    | poll j b =>
      cases b with
      | lease skipped fault =>
        simp only [leases, Bool.and_eq_true, decide_eq_true_eq] at hleases
        have hdue := (of_mem_picked hk he hleases.2).1
        refine ⟨e, he, rfl, publishedAt_of_leasable hdue, t, ht, ?_⟩
        simp only [leasable, ht, Bool.and_eq_true, Option.all_some, decide_eq_true_eq] at hdue
        exact hdue.2
      | _ => cases hleases
    | _ => cases hleases

/-- The publish of a new order's event fails and is tried again three seconds later by another
instance, which is so slow that the first one takes the row over and sends it once more. -/
def sendAgain : List Action :=
  failSample ++ [.poll 0 (.defer .none), .tick 3000, .poll 1 .interval,
    .poll 1 (.lease [] .none), .tick 31000, .poll 0 .interval, .poll 0 (.lease [] .none)]

/-- Three sends: one deferral, one takeover and the first lease. -/
theorem sample_sends_bounded : ∃ w, system.exec World.sample sendAgain = some w ∧
    (w.db.outboxEvents.map fun e => (e.attempts, system.count (sends e.id) World.sample sendAgain,
      system.count (takesOver e.id) World.sample sendAgain)) = [(1, 3, 1)] ∧
    ∀ e ∈ w.db.outboxEvents, system.count (sends e.id) World.sample sendAgain ≤
      1 + e.attempts + system.count (takesOver e.id) World.sample sendAgain := by
  have hrun : (system.exec World.sample sendAgain).map (fun w => w.db.outboxEvents.map fun e =>
      (e.attempts, system.count (sends e.id) World.sample sendAgain,
        system.count (takesOver e.id) World.sample sendAgain)) = some [(1, 3, 1)] := by decide
  obtain ⟨w, hw, hcounts⟩ := Option.map_eq_some_iff.mp hrun
  exact ⟨w, hw, hcounts, (sends_bounded World.sample_initial hw).1⟩

end ScaleForge
