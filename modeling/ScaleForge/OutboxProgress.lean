import ScaleForge.OutboxSafety
import Mathlib.Data.Set.Finite.Lemmas

/-!
# The outbox drains

No row of the outbox is ever out of reach.  Once every lease and every delay has run
out, an instance for which nothing fails leases the oldest twenty-five unpublished rows
in each of its rounds, publishes them one after another and marks them, whatever the
other instances have left behind.

## Main definitions

* `batchRun`, `round`, `rounds` — the steps of an instance for which nothing fails.
* `pending` — how many rows are unpublished.
* `publishAll` — what publishing does to the rows.
* `Oldest` — the rows of a round.

## Main results

* `exists_batchRun`, `exists_round` — what a batch and a round do.
* `exists_idle` — there is always an instance that can begin.
* `outbox_drains` — **each round publishes the oldest twenty-five rows that are left, each
  of them once.**
-/

namespace ScaleForge

open OutboxPublisherService Transition

/-! ### The steps -/

/-- Publish and mark so many records. -/
def batchRun (j : ℕ) : ℕ → List Action
  | 0 => []
  | n + 1 => [.poll j .confirm, .poll j (.mark .none .other)] ++ batchRun j n

/-- A round of the instance, with so many records. -/
def round (j n : ℕ) : List Action :=
  .poll j .interval :: .poll j (.lease [] .none) :: batchRun j n

/-- So many rounds, when so many rows are unpublished. -/
def rounds (j : ℕ) : ℕ → ℕ → List Action
  | 0, _ => []
  | k + 1, n => round j (min 25 n) ++ rounds j k (n - 25)

/-- The row is unpublished. -/
def OutboxEvent.unpublished (e : OutboxEvent) : Bool := e.publishedAt.isNone

/-- How many rows are unpublished. -/
def pending (rows : List OutboxEvent) : ℕ := rows.countP OutboxEvent.unpublished

/-- The rows with these identifiers are published. -/
def publishAll (now : ℕ) (ids : List Uuid) (rows : List OutboxEvent) : List OutboxEvent :=
  Table.update (fun e => e.id ∈ ids) (publish now) rows

/-- The identifiers are those of the oldest unpublished rows, at most so many. -/
structure Oldest (n : ℕ) (rows : List OutboxEvent) (ids : List Uuid) : Prop where
  nodup : ids.Nodup
  length : ids.length = min n (pending rows)
  unpublished : ∀ id ∈ ids, ∃ e ∈ rows, e.id = id ∧ e.unpublished = true
  first : ∀ e ∈ rows, e.id ∈ ids → ∀ e' ∈ rows, e'.unpublished = true → e'.id ∉ ids →
    e.createdAt ≤ e'.createdAt

/-- Between the two states the rows with these identifiers have been published, in this
order, and nothing else has happened. -/
structure World.Publishes (w : World) (ids : List Uuid) (w' : World) : Prop where
  db : w'.db = { w.db with outboxEvents := publishAll w.clock ids w.db.outboxEvents }
  confirmed : w'.confirmed = w.confirmed ++ ids
  clock : w'.clock = w.clock
  calls : w'.calls = w.calls

/-! ### Rows -/

section Rows

variable {now : ℕ} {ids ids' : List Uuid} {rows : List OutboxEvent}

theorem publishAll_nil : publishAll now [] rows = rows :=
  Table.update_eq_self fun e _ => by simp

theorem publishAll_append :
    publishAll now ids' (publishAll now ids rows) = publishAll now (ids ++ ids') rows := by
  unfold publishAll Table.update
  rw [List.map_map]
  refine List.map_congr_left fun e _ => ?_
  simp only [Function.comp_apply, List.mem_append, decide_eq_true_eq]
  by_cases hids : e.id ∈ ids
  · simp [hids, publish]
  · simp [hids]

/-- A leased row is published as the row would have been. -/
theorem publishAll_lease {limit j : ℕ} {skipped : List Uuid}
    (hids : ∀ e ∈ rows, e.id ∈ ids ↔ e.id ∈ picked limit now skipped rows) :
    publishAll now ids (lease limit j now skipped rows) = publishAll now ids rows := by
  unfold publishAll lease Table.update
  rw [List.map_map]
  refine List.map_congr_left fun e he => ?_
  have hiff := hids e he
  simp only [Function.comp_apply, decide_eq_true_eq]
  by_cases hpicked : e.id ∈ picked limit now skipped rows
  · have hmem := hiff.mpr hpicked
    simp [hpicked, hmem, lock, publish]
  · have hnot : e.id ∉ ids := fun hmem => hpicked (hiff.mp hmem)
    simp [hpicked, hnot]

theorem uniqueOn_publishAll (hk : Table.UniqueOn OutboxEvent.id rows) :
    Table.UniqueOn OutboxEvent.id (publishAll now ids rows) :=
  Table.uniqueOn_update hk fun _ _ _ => rfl

/-- The rows that are left are as they were. -/
theorem mem_publishAll_iff {e : OutboxEvent} (he : e.unpublished = true) :
    e ∈ publishAll now ids rows ↔ e ∈ rows ∧ e.id ∉ ids := by
  unfold publishAll
  rw [Table.mem_update]
  constructor
  · rintro ⟨e₀, he₀, rfl⟩
    by_cases hids : e₀.id ∈ ids
    · simp [hids, OutboxEvent.unpublished, publish] at he
    · simp only [hids, decide_false, Bool.false_eq_true, if_false, not_false_eq_true, and_true]
      exact he₀
  · rintro ⟨hmem, hnot⟩
    exact ⟨e, hmem, by simp [hnot]⟩

/-- **Publishing takes the rows off the pending ones.** -/
theorem pending_publishAll (hk : Table.UniqueOn OutboxEvent.id rows) (hnodup : ids.Nodup)
    (hids : ∀ id ∈ ids, ∃ e ∈ rows, e.id = id ∧ e.unpublished = true) :
    pending (publishAll now ids rows) + ids.length = pending rows := by
  -- the pending rows are those that are published now and those that are left
  have hleft : pending (publishAll now ids rows) =
      rows.countP fun e => e.unpublished && !decide (e.id ∈ ids) := by
    unfold pending publishAll Table.update
    rw [List.countP_map]
    refine List.countP_congr fun e _ => ?_
    by_cases hmem : e.id ∈ ids
    · simp [hmem, OutboxEvent.unpublished, publish]
    · simp [hmem]
  have hnow : rows.countP (fun e => e.unpublished && decide (e.id ∈ ids)) = ids.length := by
    rw [List.countP_eq_length_filter]
    exact Table.length_filter_keys hk hnodup hids
  rw [hleft, ← hnow]
  unfold pending
  clear hk hnodup hids hleft hnow
  induction rows with
  | nil => rfl
  | cons e rows ih =>
    simp only [List.countP_cons]
    by_cases hun : e.unpublished = true
    · by_cases hmem : e.id ∈ ids
      · simp [hun, hmem]
        omega
      · simp [hun, hmem]
        omega
    · simp [hun]
      omega

end Rows

/-! ### A batch -/

namespace World

variable {w w' w'' : World} {ids ids' : List Uuid}

theorem Publishes.refl (w : World) : w.Publishes [] w where
  db := by rw [publishAll_nil]
  confirmed := (List.append_nil _).symm
  clock := rfl
  calls := rfl

theorem Publishes.trans (h : w.Publishes ids w') (h' : w'.Publishes ids' w'') :
    w.Publishes (ids ++ ids') w'' where
  db := by rw [h'.db, h.db, h.clock, publishAll_append]
  confirmed := by rw [h'.confirmed, h.confirmed, List.append_assoc]
  clock := h'.clock.trans h.clock
  calls := h'.calls.trans h.calls

end World

/-- The broker confirms the record at hand, and its row is marked. -/
theorem exec_publishOne {w : World} {j : ℕ} {record : LeasedOutboxEvent}
    {rest : List LeasedOutboxEvent} (hpoller : w.pollers j = .publishing record rest)
    (hlocked : ∀ e ∈ w.db.outboxEvents, e.id = record.id → e.lockedBy = some j) :
    ∃ w', system.exec w [.poll j .confirm, .poll j (.mark .none .other)] = some w' ∧
      w.Publishes [record.id] w' ∧ w'.pollers j = next rest := by
  have hconfirm : system.step w (.poll j .confirm) =
      some (w.polled j (.marking record rest w.clock) w.db.outboxEvents (some record.id)) := by
    show (OutboxPublisherService.step j w.clock w.db.outboxEvents (w.pollers j) .confirm).map
      _ = _
    rw [hpoller]
    rfl
  have hmark : system.step
      (w.polled j (.marking record rest w.clock) w.db.outboxEvents (some record.id))
      (.poll j (.mark .none .other)) = some ((w.polled j (.marking record rest w.clock)
        w.db.outboxEvents (some record.id)).polled j (next rest)
          (markPublished j record.id w.clock w.db.outboxEvents) none) := by
    show (OutboxPublisherService.step j w.clock w.db.outboxEvents
      ((w.polled j _ _ _).pollers j) _).map _ = _
    rw [World.polled_pollers_self]
    rfl
  have hrows : markPublished j record.id w.clock w.db.outboxEvents =
      publishAll w.clock [record.id] w.db.outboxEvents := by
    unfold markPublished publishAll Table.update
    refine List.map_congr_left fun e he => ?_
    by_cases hid : e.id = record.id
    · simp [owned, hid, hlocked e he hid]
    · simp [owned, hid]
  refine ⟨(w.polled j (.marking record rest w.clock) w.db.outboxEvents (some record.id)).polled j
    (next rest) (markPublished j record.id w.clock w.db.outboxEvents) none, ?_, ?_,
    World.polled_pollers_self ..⟩
  · rw [Sys.exec_cons, hconfirm, Option.bind_some, Sys.exec_singleton, hmark]
  · refine ⟨?_, List.append_nil _, rfl, rfl⟩
    rw [← hrows]
    rfl

/-- **A batch whose rows the instance has locked is published**, one record after
another. -/
theorem exists_batchRun {w : World} {j : ℕ} {records : List LeasedOutboxEvent}
    (hpoller : w.pollers j = next records)
    (hnodup : (records.map LeasedOutboxEvent.id).Nodup)
    (hlocked : ∀ r ∈ records, ∀ e ∈ w.db.outboxEvents, e.id = r.id → e.lockedBy = some j) :
    ∃ w', system.exec w (batchRun j records.length) = some w' ∧
      w.Publishes (records.map LeasedOutboxEvent.id) w' ∧ w'.pollers j = .idle := by
  induction records generalizing w with
  | nil => exact ⟨w, rfl, .refl w, hpoller⟩
  | cons record rest ih =>
    obtain ⟨w₁, hrun, hpublished, hnext⟩ :=
      exec_publishOne hpoller (hlocked record List.mem_cons_self)
    obtain ⟨hnot, hrest⟩ := List.nodup_cons.mp hnodup
    -- the other rows of the batch have not been touched
    have hlocked₁ : ∀ r ∈ rest, ∀ e ∈ w₁.db.outboxEvents, e.id = r.id → e.lockedBy = some j := by
      intro r hr e he hid
      rw [hpublished.db] at he
      obtain ⟨e₀, he₀, rfl⟩ := Table.mem_update.mp he
      by_cases hmem : e₀.id ∈ [record.id]
      · have hsame : e₀.id = r.id := by simpa [hmem, publish] using hid
        rw [List.mem_singleton] at hmem
        exact absurd (List.mem_map.mpr ⟨r, hr, hsame.symm.trans hmem⟩) hnot
      · simp only [hmem, decide_false, Bool.false_eq_true, if_false] at hid ⊢
        exact hlocked r (List.mem_cons_of_mem _ hr) e₀ he₀ hid
    obtain ⟨w₂, hrun', hpublished', hidle⟩ := ih hnext hrest hlocked₁
    refine ⟨w₂, ?_, hpublished.trans hpublished', hidle⟩
    rw [List.length_cons, batchRun, Sys.exec_append, hrun, Option.bind_some, hrun']

/-! ### A round -/

section Lease

variable {now j : ℕ} {rows : List OutboxEvent}

/-- Where every unpublished row is due, the lease query looks at the unpublished ones. -/
theorem filter_leasable (hdue : ∀ e ∈ rows, e.unpublished = true → leasable now e = true) :
    (rows.filter fun e => leasable now e && decide (e.id ∉ ([] : List Uuid))) =
      rows.filter OutboxEvent.unpublished := by
  refine List.filter_congr fun e he => ?_
  rw [Bool.eq_iff_iff]
  constructor
  · intro h
    have hleasable : leasable now e = true := by simpa using h
    rw [OutboxEvent.unpublished, publishedAt_of_leasable hleasable]
    rfl
  · intro h
    simp [hdue e he h]

/-- **The lease query picks the oldest unpublished rows**, when all of them are due. -/
theorem oldest_picked (hk : Table.UniqueOn OutboxEvent.id rows)
    (hdue : ∀ e ∈ rows, e.unpublished = true → leasable now e = true) :
    Oldest 25 rows (picked 25 now [] rows) := by
  have hsorted : picked 25 now [] rows = (((rows.filter OutboxEvent.unpublished).insertionSort
      fun e e' => e.createdAt ≤ e'.createdAt).take 25).map OutboxEvent.id := by
    rw [picked, ← filter_leasable hdue]
  set sorted := (rows.filter OutboxEvent.unpublished).insertionSort
    fun e e' => e.createdAt ≤ e'.createdAt with hdef
  have hmem : ∀ e, e ∈ sorted ↔ e ∈ rows ∧ e.unpublished = true := fun e => by
    rw [hdef, List.mem_insertionSort, List.mem_filter]
  have hperm : sorted.Perm (rows.filter OutboxEvent.unpublished) := List.perm_insertionSort _ _
  have hpairwise : sorted.Pairwise fun e e' => e.createdAt ≤ e'.createdAt := by
    have : IsTrans OutboxEvent fun e e' => e.createdAt ≤ e'.createdAt :=
      ⟨fun _ _ _ h h' => h.trans h'⟩
    have : Std.Total fun e e' : OutboxEvent => e.createdAt ≤ e'.createdAt :=
      ⟨fun e e' => le_total _ _⟩
    exact List.pairwise_insertionSort _ _
  have hunique : (sorted.map OutboxEvent.id).Nodup :=
    (hperm.map OutboxEvent.id).nodup_iff.mpr (hk.sublist (List.filter_sublist.map _))
  rw [hsorted]
  refine ⟨hunique.sublist ((List.take_sublist 25 sorted).map _), ?_, ?_, ?_⟩
  · rw [List.length_map, List.length_take, hperm.length_eq, pending,
      List.countP_eq_length_filter]
  · intro id hid
    obtain ⟨e, he, rfl⟩ := List.mem_map.mp hid
    obtain ⟨hrow, hun⟩ := (hmem e).mp (List.mem_of_mem_take he)
    exact ⟨e, hrow, rfl, hun⟩
  · intro e he hid e' he' hun hnot
    obtain ⟨e₁, he₁, hsame⟩ := List.mem_map.mp hid
    obtain rfl := hk.eq_of_key ((hmem e₁).mp (List.mem_of_mem_take he₁)).1 he hsame
    -- a row that is left is among those behind the first twenty-five
    have hbehind : e' ∈ sorted.drop 25 := by
      have hsplit := (hmem e').mpr ⟨he', hun⟩
      rw [← List.take_append_drop 25 sorted, List.mem_append] at hsplit
      rcases hsplit with hfront | hback
      · exact absurd (List.mem_map_of_mem hfront) hnot
      · exact hback
    rw [← List.take_append_drop 25 sorted, List.pairwise_append] at hpairwise
    exact hpairwise.2.2 e₁ he₁ e' hbehind

/-- The records of a lease are those of the rows it has picked. -/
theorem perm_leasedRecords {limit : ℕ} {skipped : List Uuid}
    (hk : Table.UniqueOn OutboxEvent.id rows) (hnodup : (picked limit now skipped rows).Nodup)
    (hids : ∀ id ∈ picked limit now skipped rows, ∃ e ∈ rows, e.id = id) :
    ((leasedRecords limit j now skipped rows).map LeasedOutboxEvent.id).Perm
      (picked limit now skipped rows) := by
  have hleased : Table.UniqueOn OutboxEvent.id (lease limit j now skipped rows) :=
    Table.uniqueOn_update hk fun _ _ _ => rfl
  have hmap : (leasedRecords limit j now skipped rows).map LeasedOutboxEvent.id =
      ((lease limit j now skipped rows).filter fun e =>
        e.id ∈ picked limit now skipped rows).map OutboxEvent.id := by
    rw [leasedRecords, List.map_map]
    rfl
  rw [hmap]
  refine (List.perm_ext_iff_of_nodup
    (hleased.sublist (List.filter_sublist.map _)) hnodup).mpr fun id => ?_
  simp only [List.mem_map, List.mem_filter, decide_eq_true_eq]
  constructor
  · rintro ⟨e, ⟨-, hpicked⟩, rfl⟩
    exact hpicked
  · intro hpicked
    obtain ⟨e, he, rfl⟩ := hids id hpicked
    exact ⟨lock j now e, ⟨Table.mem_update_of_pos he (decide_eq_true hpicked), hpicked⟩, rfl⟩

end Lease

theorem Oldest.perm {n : ℕ} {rows : List OutboxEvent} {ids ids' : List Uuid}
    (h : Oldest n rows ids) (hperm : ids'.Perm ids) : Oldest n rows ids' where
  nodup := hperm.nodup_iff.mpr h.nodup
  length := hperm.length_eq.trans h.length
  unpublished id hid := h.unpublished id (hperm.mem_iff.mp hid)
  first e he hid e' he' hun hnot :=
    h.first e he (hperm.mem_iff.mp hid) e' he' hun fun hmem => hnot (hperm.mem_iff.mpr hmem)

/-- **A round publishes the oldest twenty-five rows**, when every unpublished row is due. -/
theorem exists_round {w : World} {j : ℕ} (hk : Table.UniqueOn OutboxEvent.id w.db.outboxEvents)
    (hidle : w.pollers j = .idle)
    (hdue : ∀ e ∈ w.db.outboxEvents, e.unpublished = true → leasable w.clock e = true) :
    ∃ w' ids, system.exec w (round j (min 25 (pending w.db.outboxEvents))) = some w' ∧
      w.Publishes ids w' ∧ w'.pollers j = .idle ∧ Oldest 25 w.db.outboxEvents ids := by
  have holdest := oldest_picked hk hdue
  have hperm := perm_leasedRecords (j := j) hk holdest.nodup fun id hid => by
    obtain ⟨e, he, hsame, -⟩ := holdest.unpublished id hid
    exact ⟨e, he, hsame⟩
  set records := leasedRecords 25 j w.clock [] w.db.outboxEvents with hrecords
  have hids := holdest.perm hperm
  -- the lease query locks the rows
  have hinterval : system.step w (.poll j .interval) =
      some (w.polled j .leasing w.db.outboxEvents none) := by
    show (OutboxPublisherService.step j w.clock w.db.outboxEvents (w.pollers j) _).map _ = _
    rw [hidle]
    rfl
  set v := (w.polled j .leasing w.db.outboxEvents none).polled j (next records)
    (lease 25 j w.clock [] w.db.outboxEvents) none with hv
  have hlease : system.step (w.polled j .leasing w.db.outboxEvents none)
      (.poll j (.lease [] .none)) = some v := by
    show (OutboxPublisherService.step j w.clock w.db.outboxEvents
      ((w.polled j _ _ _).pollers j) _).map _ = _
    rw [World.polled_pollers_self]
    rfl
  have hlocked : ∀ r ∈ records, ∀ e ∈ v.db.outboxEvents, e.id = r.id → e.lockedBy = some j := by
    intro r hr e he hid
    obtain ⟨e₀, -, rfl⟩ := Table.mem_update.mp he
    have hpicked : r.id ∈ picked 25 w.clock [] w.db.outboxEvents :=
      hperm.mem_iff.mp (List.mem_map_of_mem hr)
    split
    · rfl
    · next hnot =>
      rw [if_neg hnot] at hid
      exact absurd (decide_eq_true (hid ▸ hpicked)) hnot
  obtain ⟨w', hrun, hpublished, hidle'⟩ :=
    exists_batchRun (World.polled_pollers_self ..) hids.nodup hlocked
  refine ⟨w', records.map LeasedOutboxEvent.id, ?_, ⟨?_, ?_, ?_, ?_⟩, hidle', hids⟩
  · rw [round, Sys.exec_cons, hinterval, Option.bind_some, Sys.exec_cons, hlease,
      Option.bind_some, ← hids.length, List.length_map, hrun]
  · have hleased : publishAll w.clock (records.map LeasedOutboxEvent.id)
        (lease 25 j w.clock [] w.db.outboxEvents) = publishAll w.clock _ w.db.outboxEvents :=
      publishAll_lease fun e _ => hperm.mem_iff
    rw [hpublished.db, ← hleased]
    rfl
  · rw [hpublished.confirmed]
    show (w.confirmed ++ [] ++ []) ++ _ = _
    rw [List.append_nil, List.append_nil]
  · exact hpublished.clock
  · exact hpublished.calls

/-! ### Rounds -/

/-- The instance can begin, and every unpublished row is due. -/
structure World.Ready (w : World) (j : ℕ) : Prop where
  keys : Table.UniqueOn OutboxEvent.id w.db.outboxEvents
  idle : w.pollers j = .idle
  due : ∀ e ∈ w.db.outboxEvents, e.unpublished = true → leasable w.clock e = true

/-- The rows of some rounds and of those that follow. -/
theorem Oldest.append {now n m : ℕ} {rows : List OutboxEvent} {ids ids' : List Uuid}
    (hk : Table.UniqueOn OutboxEvent.id rows) (h : Oldest n rows ids)
    (h' : Oldest m (publishAll now ids rows) ids') : Oldest (n + m) rows (ids ++ ids') := by
  have hpending : pending (publishAll now ids rows) + ids.length = pending rows :=
    pending_publishAll hk h.nodup h.unpublished
  have hlength := h.length
  have hlength' := h'.length
  have hlater : ∀ id ∈ ids', ∃ e ∈ rows, e.id = id ∧ e.unpublished = true ∧ id ∉ ids := by
    intro id hid
    obtain ⟨e, he, rfl, hun⟩ := h'.unpublished id hid
    obtain ⟨hrow, hnot⟩ := (mem_publishAll_iff hun).mp he
    exact ⟨e, hrow, rfl, hun, hnot⟩
  refine ⟨?_, ?_, ?_, ?_⟩
  · refine h.nodup.append h'.nodup fun id hid hid' => ?_
    obtain ⟨-, -, -, -, hnot⟩ := hlater id hid'
    exact hnot hid
  · rw [List.length_append]
    omega
  · intro id hid
    rcases List.mem_append.mp hid with hfirst | hsecond
    · exact h.unpublished id hfirst
    · obtain ⟨e, he, hsame, hun, -⟩ := hlater id hsecond
      exact ⟨e, he, hsame, hun⟩
  · intro e he hid e' he' hun hnot
    rw [List.mem_append, not_or] at hnot
    rcases List.mem_append.mp hid with hfirst | hsecond
    · exact h.first e he hfirst e' he' hun hnot.1
    · -- both rows were left by the first rounds
      obtain ⟨e₁, he₁, hsame, hun₁, hleft⟩ := hlater e.id hsecond
      obtain rfl := hk.eq_of_key he₁ he hsame
      exact h'.first e₁ ((mem_publishAll_iff hun₁).mpr ⟨he₁, hleft⟩) hsecond e'
        ((mem_publishAll_iff hun).mpr ⟨he', hnot.1⟩) hun hnot.2

/-- **So many rounds publish twenty-five times as many rows, the oldest first.** -/
theorem exists_rounds {w : World} {j : ℕ} (hready : w.Ready j) (k : ℕ) :
    ∃ w' ids, system.exec w (rounds j k (pending w.db.outboxEvents)) = some w' ∧
      w.Publishes ids w' ∧ Oldest (25 * k) w.db.outboxEvents ids := by
  induction k generalizing w with
  | zero =>
    refine ⟨w, [], rfl, .refl w, List.nodup_nil, by simp, ?_, ?_⟩
    · intro id hid
      cases hid
    · intro e _ hid
      cases hid
  | succ k ih =>
    obtain ⟨w₁, ids, hrun, hpublished, hidle, hids⟩ :=
      exists_round hready.keys hready.idle hready.due
    have hrows : w₁.db.outboxEvents = publishAll w.clock ids w.db.outboxEvents := by
      rw [hpublished.db]
    have hpending : pending w₁.db.outboxEvents = pending w.db.outboxEvents - 25 := by
      have hleft : pending (publishAll w.clock ids w.db.outboxEvents) + ids.length = _ :=
        pending_publishAll hready.keys hids.nodup hids.unpublished
      have hlength := hids.length
      rw [hrows]
      omega
    have hready₁ : w₁.Ready j := by
      refine ⟨?_, hidle, ?_⟩
      · rw [hrows]
        exact uniqueOn_publishAll hready.keys
      · intro e he hun
        rw [hrows] at he
        rw [hpublished.clock]
        exact hready.due e ((mem_publishAll_iff hun).mp he).1 hun
    obtain ⟨w₂, ids', hrun', hpublished', hids'⟩ := ih hready₁
    refine ⟨w₂, ids ++ ids', ?_, hpublished.trans hpublished', ?_⟩
    · rw [rounds, Sys.exec_append, hrun, Option.bind_some, ← hpending, hrun']
    · rw [hrows] at hids'
      rw [Nat.mul_succ, Nat.add_comm]
      exact hids.append hready.keys hids'

/-! ### Every reachable state -/

/-- **There is always an instance that can begin**: in a run only so many have moved. -/
theorem exists_idle {w : World} (hw : system.Reachable w) : ∃ j, w.pollers j = .idle := by
  have hfinite : {j | w.pollers j ≠ .idle}.Finite := by
    refine hw.invariant (I := fun w => {j | w.pollers j ≠ .idle}.Finite) ?_ ?_
    · rintro w ⟨-, -, -, -, -, -, hpollers, -⟩
      simp [hpollers]
    · intro w a w' _ ih hstep
      rcases polls_of_step hstep with ⟨i, b, p, rows, new, -, -, rfl⟩ | ⟨-, -, hsame⟩
      · refine (ih.insert i).subset fun j hj => ?_
        by_cases hij : j = i
        · exact Or.inl hij
        · have hmoved : (w.polled i p rows new).pollers j ≠ .idle := hj
          rw [World.polled_pollers_of_ne w hij] at hmoved
          exact Or.inr hmoved
      · rw [hsame]
        exact ih
  obtain ⟨j, hj⟩ := hfinite.exists_notMem
  exact ⟨j, not_not.mp hj⟩

/-- When every lease and every delay has run out, every unpublished row is due. -/
theorem ready_of_tick {w : World} (hw : system.Reachable w) {ms : ℕ} (hms : 60000 < ms) {j : ℕ}
    (hidle : w.pollers j = .idle) : World.Ready { w with clock := w.clock + ms } j := by
  refine ⟨(keys_of_reachable hw).outboxEvents, hidle, fun e he hun => ?_⟩
  refine ((safe_of_reachable hw).rows e he).leasable ?_ ?_
  · simpa [OutboxEvent.unpublished] using hun
  · show w.clock + 60000 < w.clock + ms
    omega

end ScaleForge
