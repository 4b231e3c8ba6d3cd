import ScaleForge.Notifications

/-!
# The life of a notification delivery

Three statements write a delivery, and one of them, the `DELIVERED` write, does not
look at the status it overwrites; the runs that issue them may be late.  Whatever the
order, a row only advances, and its columns say what the committed writes have done to
it.

## Main definitions

* `DeliveryRow.Advances` — how a row may change.
* `DeliveryRow.Lifecycle` — the columns agree with the writes.

## Main results

* `advances_of_step` — a row only advances.
* `lifecycles_of_reachable` — the invariant.
* `effects_of_step` — the workers are part of what surrounds the handlers.
* `delivery_lifecycle` — **attempts are committed claims, at most five; `PENDING` means
  none; an error is from after the last claim; and a delivered row stays as it is.**
-/

namespace ScaleForge

open Table NotificationsRepository

/-! ### Rows only advance -/

/-- The row may have become `d'`. -/
structure DeliveryRow.Advances (d d' : DeliveryRow) : Prop where
  id : d'.id = d.id
  attempts : d.attempts ≤ d'.attempts
  delivered : d.status = .delivered → d' = d

theorem DeliveryRow.Advances.refl (d : DeliveryRow) : d.Advances d := ⟨rfl, le_rfl, fun _ => rfl⟩

/-- An update that advances the rows it meets. -/
theorem advances_of_update {p : DeliveryRow → Bool} {f : DeliveryRow → DeliveryRow}
    (hf : ∀ d, p d = true → d.Advances (f d)) {rows : List DeliveryRow} :
    ∀ d ∈ rows, ∃ d' ∈ update p f rows, d.Advances d' := by
  intro d hd
  refine ⟨_, mem_update.mpr ⟨d, hd, rfl⟩, ?_⟩
  split
  · next hp => exact hf d hp
  · exact .refl d

theorem recoverable_iff {d : DeliveryRow} :
    recoverable d = true ↔ (d.status = .pending ∨ d.status = .failed) ∧ d.attempts < 5 := by
  simp [recoverable]

/-- **A run only advances the rows.** -/
theorem advances_of_deliveryStep {s s' : NotificationState} {id : Uuid} {pc pc' : NotificationPc}
    (h : DeliveryStep s id pc s' pc') :
    ∀ d ∈ s.deliveries, ∃ d' ∈ s'.deliveries, d.Advances d' := by
  cases h with
  | unwritten hdeliveries hwrites hclaim hknows =>
    intro d hd
    exact ⟨d, hdeliveries ▸ hd, .refl d⟩
  | claimed hwon hpc' =>
    apply advances_of_update
    intro d hp
    refine ⟨rfl, Nat.le_succ _, fun hdelivered => ?_⟩
    simp [recoverable, hdelivered] at hp
  | delivered hpc' =>
    apply advances_of_update
    intro d hp
    refine ⟨rfl, le_rfl, fun hdelivered => ?_⟩
    obtain ⟨⟨id, eventId, userId, channel, template, payload, status, attempts, lastError⟩, t⟩ := d
    cases hdelivered
    rfl
  | markedFailed lock claim lastError =>
    apply advances_of_update
    intro d hp
    refine ⟨rfl, le_rfl, fun hdelivered => ?_⟩
    simp [hdelivered] at hp

/-- **A row only advances.** -/
theorem advances_of_step {w w' : NotificationWorld} {a : NotificationAction}
    (h : NotificationStep w a w') :
    ∀ d ∈ w.shared.deliveries, ∃ d' ∈ w'.shared.deliveries, d.Advances d' := by
  intro d hd
  cases h with
  | unwritten hdeliveries hwrites hcalls => exact ⟨d, hdeliveries ▸ hd, .refl d⟩
  | created ha hfresh hdeliveries hwrites =>
    refine ⟨d, ?_, .refl d⟩
    show d ∈ NotificationState.deliveries _
    rw [hdeliveries]
    exact List.mem_append_left _ hd
  | run ha hcall hadvance hstep => exact advances_of_deliveryStep hstep d hd

/-- What a run knows of its row stays true. -/
theorem NotificationPc.Knows.mono {id : Uuid} {rows rows' : List DeliveryRow} {pc : NotificationPc}
    (h : pc.Knows id rows) (hrows : ∀ d ∈ rows, ∃ d' ∈ rows', d.Advances d') :
    pc.Knows id rows' := by
  cases pc with
  | delivering lock =>
    obtain ⟨d, hd, hid, hattempts⟩ := h
    obtain ⟨d', hd', hadvances⟩ := hrows d hd
    exact ⟨d', hd', hadvances.id.trans hid, lt_of_lt_of_le hattempts hadvances.attempts⟩
  | failing lock claim lastError =>
    cases claim with
    | closed =>
      obtain ⟨d, hd, hid, hdelivered⟩ := h
      obtain ⟨d', hd', hadvances⟩ := hrows d hd
      have hsame := hadvances.delivered hdelivered
      exact ⟨d', hd', hadvances.id.trans hid, by rw [hsame, hdelivered]⟩
    | _ => trivial
  | _ => trivial

/-! ### What the columns say -/

/-- The delivery has been marked `FAILED` since its last claim. -/
def MarkedSinceClaim (writes : List DeliveryWrite) (id : Uuid) : Prop :=
  ∃ before after, writes = before ++ .markedFailed id :: after ∧ DeliveryWrite.claimed id ∉ after

theorem MarkedSinceClaim.append {writes : List DeliveryWrite} {id : Uuid}
    (h : MarkedSinceClaim writes id) {new : List DeliveryWrite}
    (hnew : DeliveryWrite.claimed id ∉ new) : MarkedSinceClaim (writes ++ new) id := by
  obtain ⟨before, after, rfl, hafter⟩ := h
  refine ⟨before, after ++ new, by simp, ?_⟩
  intro hmem
  rcases List.mem_append.mp hmem with hmem | hmem
  · exact hafter hmem
  · exact hnew hmem

/-- The columns of the row agree with the writes. -/
structure DeliveryRow.Lifecycle (writes : List DeliveryWrite) (d : DeliveryRow) : Prop where
  attempts_le : d.attempts ≤ 5
  attempts_eq : d.attempts = writes.count (.claimed d.id)
  pending_iff : d.status = .pending ↔ d.attempts = 0
  lastError : d.lastError ≠ none → MarkedSinceClaim writes d.id

section Row

variable {writes : List DeliveryWrite} {d : DeliveryRow}

/-- Writes that claim other deliveries, or claim nothing, change nothing for the row. -/
theorem DeliveryRow.Lifecycle.append (h : d.Lifecycle writes) {new : List DeliveryWrite}
    (hnew : DeliveryWrite.claimed d.id ∉ new) : d.Lifecycle (writes ++ new) where
  attempts_le := h.attempts_le
  attempts_eq := by rw [List.count_append, List.count_eq_zero_of_not_mem hnew, ← h.attempts_eq]; rfl
  pending_iff := h.pending_iff
  lastError hne := (h.lastError hne).append hnew

theorem DeliveryRow.Lifecycle.claimed (h : d.Lifecycle writes) (hd : recoverable d = true) :
    DeliveryRow.Lifecycle (writes ++ [.claimed d.id]) { d with
      status := .processing, attempts := d.attempts + 1, lastError := none } where
  attempts_le := (recoverable_iff.mp hd).2
  attempts_eq := by
    rw [List.count_append, List.count_singleton_self, ← h.attempts_eq]
  pending_iff := by simp
  lastError hne := absurd rfl hne

theorem DeliveryRow.Lifecycle.delivered (h : d.Lifecycle writes) (hd : 0 < d.attempts) :
    DeliveryRow.Lifecycle (writes ++ [.delivered d.id]) { d with status := .delivered } where
  attempts_le := h.attempts_le
  attempts_eq := (h.append (by simp)).attempts_eq
  pending_iff := by
    simp
    omega
  lastError hne := (h.lastError hne).append (by simp)

theorem DeliveryRow.Lifecycle.markedFailed (h : d.Lifecycle writes)
    (hd : d.status = .processing) (lastError : String) :
    DeliveryRow.Lifecycle (writes ++ [.markedFailed d.id]) { d with
      status := .failed, lastError := some lastError } where
  attempts_le := h.attempts_le
  attempts_eq := (h.append (by simp)).attempts_eq
  pending_iff := by
    have hattempts : d.attempts ≠ 0 := fun hzero => by
      rw [h.pending_iff.mpr hzero] at hd
      cases hd
    simp [hattempts]
  lastError _ := ⟨writes, [], rfl, List.not_mem_nil⟩

end Row

/-- The columns of all rows agree with the writes. -/
structure NotificationState.Lifecycles (s : NotificationState) : Prop where
  unique : UniqueOn (fun d => d.id) s.deliveries
  rows : ∀ d ∈ s.deliveries, d.Lifecycle s.writes
  /-- Only deliveries that are there have been claimed. -/
  claimed : ∀ id, DeliveryWrite.claimed id ∈ s.writes → ∃ d ∈ s.deliveries, d.id = id

section Step

variable {s s' : NotificationState} {id : Uuid} {pc pc' : NotificationPc}

theorem claimable_iff {rows : List DeliveryRow} :
    claimable id rows = true ↔ ∃ d ∈ rows, d.id = id ∧ recoverable d = true := by
  simp [claimable]

theorem processing_iff {rows : List DeliveryRow} :
    processing id rows = true ↔ ∃ d ∈ rows, d.id = id ∧ d.status = .processing := by
  simp [processing]

theorem NotificationState.Lifecycles.of_eq (h : s.Lifecycles)
    (hdeliveries : s'.deliveries = s.deliveries) (hwrites : s'.writes = s.writes) :
    s'.Lifecycles where
  unique := hdeliveries ▸ h.unique
  rows d hd := hwrites ▸ h.rows d (hdeliveries ▸ hd)
  claimed id hid := hdeliveries ▸ h.claimed id (hwrites ▸ hid)

/-- A statement that updates one row, and is recorded, keeps the columns and the writes
in agreement when it does so for that row. -/
theorem NotificationState.Lifecycles.write (h : s.Lifecycles) {p : DeliveryRow → Bool}
    {f : DeliveryRow → DeliveryRow} {new : DeliveryWrite} {e : DeliveryRow}
    (hdeliveries : s'.deliveries = update p f s.deliveries)
    (hwrites : s'.writes = s.writes ++ [new]) (he : e ∈ s.deliveries) (hpe : p e = true)
    (hp : ∀ d, p d = true → d.id = e.id) (hf : ∀ d, (f d).id = d.id)
    (hnew : ∀ id, new = .claimed id → id = e.id)
    (hwritten : (f e).Lifecycle (s.writes ++ [new])) : s'.Lifecycles := by
  refine ⟨?_, ?_, ?_⟩
  · rw [hdeliveries]
    exact uniqueOn_update h.unique fun d _ _ => hf d
  · intro d' hd'
    rw [hdeliveries] at hd'
    obtain ⟨d, hd, rfl⟩ := mem_update.mp hd'
    rw [hwrites]
    by_cases hid : d.id = e.id
    · obtain rfl : d = e := h.unique.eq_of_key hd he hid
      rw [if_pos hpe]
      exact hwritten
    · rw [if_neg fun hpd => hid (hp d hpd)]
      refine (h.rows d hd).append fun hclaimed => ?_
      exact hid (hnew d.id (List.mem_singleton.mp hclaimed).symm)
  · intro id hclaimed
    rw [hwrites] at hclaimed
    have hold : ∃ d ∈ s.deliveries, d.id = id := by
      rcases List.mem_append.mp hclaimed with hold | hlast
      · exact h.claimed id hold
      · exact ⟨e, he, (hnew id (List.mem_singleton.mp hlast).symm).symm⟩
    obtain ⟨d, hd, rfl⟩ := hold
    rw [hdeliveries]
    refine ⟨_, mem_update.mpr ⟨d, hd, rfl⟩, ?_⟩
    split
    · exact hf d
    · rfl

/-- **A run keeps the columns and the writes in agreement.** -/
theorem NotificationState.Lifecycles.run (h : s.Lifecycles) (hknows : pc.Knows id s.deliveries)
    (hstep : DeliveryStep s id pc s' pc') : s'.Lifecycles := by
  cases hstep with
  | unwritten hdeliveries hwrites hclaim hknows => exact h.of_eq hdeliveries hwrites
  | claimed hwon hpc' =>
    -- the row of the delivery is the one that can be claimed
    obtain ⟨e, he, rfl, hrecoverable⟩ := claimable_iff.mp hwon
    have hwrites : (s.claim e.id).writes = s.writes ++ [.claimed e.id] := by
      simp [NotificationState.claim, hwon]
    refine h.write rfl hwrites he ?_ ?_ (fun _ => rfl) ?_ ?_
    · simp [hrecoverable]
    · simp +contextual
    · simp
    · exact (h.rows e he).claimed hrecoverable
  | delivered hpc' =>
    -- the run has claimed it
    obtain ⟨e, he, rfl, hattempts⟩ := hknows
    refine h.write rfl rfl he ?_ ?_ (fun _ => rfl) ?_ ?_
    · simp
    · simp
    · simp
    · exact (h.rows e he).delivered hattempts
  | markedFailed lock claim lastError =>
    cases hprocessing : processing id s.deliveries with
    | false =>
      have hsame : s.markFailed id lastError = s := by
        simp [NotificationState.markFailed, hprocessing, markFailed_of_not_processing hprocessing]
      rw [hsame]
      exact h
    | true =>
      obtain ⟨e, he, rfl, hstatus⟩ := processing_iff.mp hprocessing
      have hwrites : (s.markFailed e.id lastError).writes = s.writes ++ [.markedFailed e.id] := by
        simp [NotificationState.markFailed, hprocessing]
      refine h.write rfl hwrites he ?_ ?_ (fun _ => rfl) ?_ ?_
      · simp [hstatus]
      · simp +contextual
      · simp
      · exact (h.rows e he).markedFailed hstatus lastError

/-- **A run knows its row** where it goes on. -/
theorem knows_of_deliveryStep (hknows : pc.Knows id s.deliveries)
    (hstep : DeliveryStep s id pc s' pc') : pc'.Knows id s'.deliveries := by
  cases hstep with
  | unwritten hdeliveries hwrites hclaim hknows => exact hknows _
  | claimed hwon hpc' =>
    rcases hpc' with rfl | ⟨lastError, rfl⟩
    · obtain ⟨d, hd, hid, hrecoverable⟩ := claimable_iff.mp hwon
      exact ⟨_, mem_update_of_pos hd (by simp [hid, hrecoverable]), hid, Nat.succ_pos _⟩
    · trivial
  | delivered hpc' =>
    rcases hpc' with rfl | ⟨lastError, rfl⟩
    · trivial
    · obtain ⟨d, hd, hid, -⟩ := hknows
      exact ⟨_, mem_update_of_pos hd (by simp [hid]), hid, rfl⟩
  | markedFailed lock claim lastError => trivial

end Step

/-! ### Reachable states -/

section Reachable

variable {w w' : NotificationWorld} {a : NotificationAction}

/-- A new delivery has not been claimed. -/
theorem NotificationState.Lifecycles.created {s s' : NotificationState} (h : s.Lifecycles)
    {id eventId userId : Uuid} {payload : Json} {createdAt : ℕ}
    (hfresh : ∀ d ∈ s.deliveries, d.id ≠ id)
    (hdeliveries : s'.deliveries = s.deliveries ++
      [NotificationsRepository.created id eventId userId payload createdAt])
    (hwrites : s'.writes = s.writes) : s'.Lifecycles := by
  have hunclaimed : DeliveryWrite.claimed id ∉ s.writes := fun hclaimed => by
    obtain ⟨d, hd, hid⟩ := h.claimed id hclaimed
    exact hfresh d hd hid
  refine ⟨?_, ?_, ?_⟩
  · rw [hdeliveries]
    exact uniqueOn_append_singleton.mpr ⟨h.unique, hfresh⟩
  · intro d hd
    rw [hdeliveries] at hd
    rw [hwrites]
    rcases List.mem_append.mp hd with hold | hnew
    · exact h.rows d hold
    · rw [List.mem_singleton.mp hnew]
      exact ⟨Nat.zero_le 5, (List.count_eq_zero_of_not_mem hunclaimed).symm,
        ⟨fun _ => rfl, fun _ => rfl⟩, fun hne => absurd rfl hne⟩
  · intro id' hid'
    obtain ⟨d, hd, hid⟩ := h.claimed id' (hwrites ▸ hid')
    exact ⟨d, hdeliveries ▸ List.mem_append_left _ hd, hid⟩

/-- **The columns agree with the writes**, and the runs know their rows. -/
theorem lifecycles_of_reachable (hw : notificationSystem.Reachable w) :
    w.shared.Lifecycles ∧
      ∀ i id pc, w.calls i = some ⟨.process id, pc⟩ → pc.Knows id w.shared.deliveries := by
  refine hw.invariant (I := fun w => w.shared.Lifecycles ∧
    ∀ i id pc, w.calls i = some ⟨.process id, pc⟩ → pc.Knows id w.shared.deliveries) ?_ ?_
  · rintro w ⟨⟨hdeliveries, -, hwrites⟩, hcalls⟩
    refine ⟨⟨?_, ?_, ?_⟩, ?_⟩
    · rw [hdeliveries]
      exact uniqueOn_nil _
    · intro d hd
      rw [hdeliveries] at hd
      cases hd
    · intro id hid
      rw [hwrites] at hid
      cases hid
    · intro i id pc hcall
      rw [hcalls i] at hcall
      cases hcall
  rintro w a w' - ⟨hlife, hknows⟩ hstep
  have hstep := notificationStep_of_step hstep
  have hadvances := advances_of_step hstep
  -- the runs that do not move
  have hothers : ∀ j id pc, w'.calls j = some ⟨.process id, pc⟩ → (∀ c, a ≠ .advance j c) →
      pc.Knows id w'.shared.deliveries := by
    intro j id pc hj hother
    rcases run_of_step hstep hj hother with hold | rfl
    · exact (hknows j id pc hold).mono hadvances
    · trivial
  cases hstep with
  | unwritten hdeliveries hwrites hcalls =>
    refine ⟨hlife.of_eq hdeliveries hwrites, ?_⟩
    intro j id pc hj
    rcases hcalls j id pc hj with hold | rfl
    · exact (hknows j id pc hold).mono hadvances
    · trivial
  | created ha hfresh hdeliveries hwrites =>
    exact ⟨hlife.created hfresh hdeliveries hwrites,
      fun j id pc hj => (hknows j id pc hj).mono hadvances⟩
  | run ha hcall hadvance hrun =>
    have hknown := hknows _ _ _ hcall
    refine ⟨hlife.run hknown hrun, ?_⟩
    intro j id pc hj
    rcases Calls.move_calls_cases hj with ⟨rfl, heq, rfl⟩ | ⟨-, hold⟩
    · cases heq
      exact knows_of_deliveryStep hknown hrun
    · exact (hknows j id pc hold).mono hadvances

/-- **A delivered row stays as it is.** -/
theorem delivered_of_exec (hw : notificationSystem.Reachable w) {as : List NotificationAction}
    (h : notificationSystem.exec w as = some w') {d : DeliveryRow}
    (hd : d ∈ w.shared.deliveries) (hdelivered : d.status = .delivered) :
    d ∈ w'.shared.deliveries := by
  refine Transition.Sys.exec_stable (I := fun w => d ∈ w.shared.deliveries) ?_ hw hd h
  intro w a w' _ hd hstep
  obtain ⟨d', hd', hadvances⟩ := advances_of_step (notificationStep_of_step hstep) d hd
  exact hadvances.delivered hdelivered ▸ hd'

end Reachable

/-! ### What the handlers' side sees -/

/-- The rows, with the columns the handlers' transactions know. -/
def NotificationState.handled (s : NotificationState) : List NotificationDelivery :=
  s.deliveries.map fun d => d.toNotificationDelivery

/-- The row a worker finds is the one `processOrderCreated` wrote. -/
theorem created_of_deliveryData {u : UuidSyntax} {event : Json} {id eventId : Uuid}
    {row : NotificationDelivery} (h : deliveryData u event id eventId = some row)
    (createdAt : ℕ) :
    (created id eventId row.userId row.payload createdAt).toNotificationDelivery = row := by
  unfold deliveryData at h
  obtain ⟨userId, -, h⟩ := Option.bind_eq_some_iff.mp h
  obtain ⟨payload, -, h⟩ := Option.bind_eq_some_iff.mp h
  cases h
  rfl

/-- A write of the status columns of one delivery is a step of the handlers'
surroundings, or no step at all. -/
theorem handled_of_update {s s' : NotificationState} {id : Uuid} {p : DeliveryRow → Bool}
    {f : DeliveryRow → DeliveryRow} (hu : UniqueOn (fun d => d.id) s.deliveries)
    (hp : ∀ d, p d = true → d.id = id)
    (hf : ∀ d, (f d).toNotificationDelivery = { d.toNotificationDelivery with
      status := (f d).status, attempts := (f d).attempts, lastError := (f d).lastError })
    (hdeliveries : s'.deliveries = update p f s.deliveries) {e : EffectState}
    (he : e.db.notificationDeliveries = s.handled) :
    s'.handled = s.handled ∨ ∃ status attempts lastError e',
      effectEnvironment e (.deliveryStatus id status attempts lastError) = some e' ∧
        e'.db.notificationDeliveries = s'.handled := by
  by_cases hmet : ∃ d ∈ s.deliveries, p d = true
  · obtain ⟨d, hd, hpd⟩ := hmet
    refine Or.inr ⟨(f d).status, (f d).attempts, (f d).lastError, _, rfl, ?_⟩
    show update _ _ e.db.notificationDeliveries = s'.handled
    rw [he, NotificationState.handled, NotificationState.handled, hdeliveries, update, update,
      List.map_map, List.map_map]
    refine List.map_congr_left fun r hr => ?_
    simp only [Function.comp_apply]
    by_cases hid : r.id = id
    · obtain rfl : r = d := hu.eq_of_key hr hd (hid.trans (hp d hpd).symm)
      rw [if_pos (by simp [hid]), if_pos hpd, hf]
    · have hnot : ¬p r = true := fun hpr => hid (hp r hpr)
      rw [if_neg (by simp [hid]), if_neg hnot]
  · refine Or.inl ?_
    have hsame : update p f s.deliveries = s.deliveries :=
      update_eq_self fun d hd => Bool.eq_false_iff.mpr fun hpd => hmet ⟨d, hd, hpd⟩
    rw [NotificationState.handled, NotificationState.handled, hdeliveries, hsame]

/-- A step of a run writes the status columns of its delivery, or no row. -/
theorem update_of_deliveryStep {s s' : NotificationState} {id : Uuid} {pc pc' : NotificationPc}
    (h : DeliveryStep s id pc s' pc') :
    s'.deliveries = s.deliveries ∨ ∃ p f, s'.deliveries = update p f s.deliveries ∧
      (∀ d, p d = true → d.id = id) ∧
      ∀ d, (f d).toNotificationDelivery = { d.toNotificationDelivery with
        status := (f d).status, attempts := (f d).attempts, lastError := (f d).lastError } := by
  cases h with
  | unwritten hdeliveries hwrites hclaim hknows => exact Or.inl hdeliveries
  | claimed hwon hpc' =>
    refine Or.inr ⟨_, _, rfl, ?_, fun _ => rfl⟩
    simp +contextual
  | delivered hpc' =>
    refine Or.inr ⟨_, _, rfl, ?_, fun _ => rfl⟩
    simp
  | markedFailed lock claim lastError =>
    refine Or.inr ⟨_, _, rfl, ?_, fun _ => rfl⟩
    simp +contextual

/-- **The workers are what surrounds the handlers**: a step of the notification queue
leaves the rows alone, adds one as `processOrderCreated` does, or is a status write of
the handlers' surroundings. -/
theorem effects_of_step {w w' : NotificationWorld} {a : NotificationAction}
    (hw : notificationSystem.Reachable w) (h : notificationSystem.step w a = some w')
    {e : EffectState} (he : e.db.notificationDeliveries = w.shared.handled) :
    w'.shared.handled = w.shared.handled ∨
    (∃ id eventId userId payload createdAt, w'.shared.handled =
      w.shared.handled ++ [(created id eventId userId payload createdAt).toNotificationDelivery]) ∨
    ∃ id status attempts lastError e',
      effectEnvironment e (.deliveryStatus id status attempts lastError) = some e' ∧
        e'.db.notificationDeliveries = w'.shared.handled := by
  have hu := (lifecycles_of_reachable hw).1.unique
  cases notificationStep_of_step h with
  | unwritten hdeliveries hwrites hcalls =>
    exact Or.inl (by rw [NotificationState.handled, hdeliveries]; rfl)
  | @created id eventId userId payload createdAt s' ha hfresh hdeliveries hwrites =>
    refine Or.inr (Or.inl ⟨id, eventId, userId, payload, createdAt, ?_⟩)
    show s'.handled = _
    rw [NotificationState.handled, hdeliveries, List.map_append]
    rfl
  | @run i c id pc pc' s' ha hcall hadvance hrun =>
    have hwrite : s'.handled = w.shared.handled ∨ ∃ status attempts lastError e',
        effectEnvironment e (.deliveryStatus id status attempts lastError) = some e' ∧
          e'.db.notificationDeliveries = s'.handled := by
      rcases update_of_deliveryStep hrun with hdeliveries | ⟨p, f, hdeliveries, hp, hf⟩
      · exact Or.inl (by rw [NotificationState.handled, hdeliveries]; rfl)
      · exact handled_of_update hu hp hf hdeliveries he
    rcases hwrite with hsame | ⟨status, attempts, lastError, e', henv, he'⟩
    · exact Or.inl hsame
    · exact Or.inr (Or.inr ⟨id, status, attempts, lastError, e', henv, he'⟩)

/-! ### The theorem -/

/-- **The life of a delivery.**  In every reachable state the attempts of a delivery
are at most five and are its committed claims, it is `PENDING` exactly when there are
none, and its error is from after its last claim; and once `DELIVERED` its row stays
as it is in every run from there. -/
theorem delivery_lifecycle {w : NotificationWorld} (hw : notificationSystem.Reachable w)
    {d : DeliveryRow} (hd : d ∈ w.shared.deliveries) :
    d.attempts ≤ 5 ∧ d.attempts = w.shared.writes.count (.claimed d.id) ∧
      (d.status = .pending ↔ d.attempts = 0) ∧
      (d.lastError ≠ none → MarkedSinceClaim w.shared.writes d.id) ∧
      (d.status = .delivered → ∀ as w', notificationSystem.exec w as = some w' →
        ∃ d' ∈ w'.shared.deliveries, d'.id = d.id ∧ d'.status = .delivered ∧
          d'.attempts = d.attempts) := by
  obtain ⟨hle, heq, hpending, herror⟩ := (lifecycles_of_reachable hw).1.rows d hd
  refine ⟨hle, heq, hpending, herror, ?_⟩
  intro hdelivered as w' h
  exact ⟨d, delivered_of_exec hw h hd hdelivered, rfl, hdelivered, rfl⟩

/-- There are no rows, no jobs and no calls. -/
def NotificationWorld.sample : NotificationWorld := ⟨⟨0, [], [], 0, []⟩, fun _ => none⟩

theorem NotificationWorld.sample_init : notificationSystem.init NotificationWorld.sample :=
  ⟨⟨rfl, rfl, rfl⟩, fun _ => rfl⟩

/-- A step whose statement ends so. -/
def NotificationChoice.ends (fault : Fault) : NotificationChoice :=
  ⟨false, fault, .other, fun _ => 0⟩

/-- A delivery is created, and the consumer enqueues it. -/
def enqueuedDelivery : List NotificationAction :=
  [.environment
      (.processOrderCreated (Uuid.repeated 1) (Uuid.repeated 2) (Uuid.repeated 3) .null 0),
    .request 0 (.enqueue (Uuid.repeated 1)), .advance 0 (.ends .none), .advance 0 (.ends .none)]

/-- The run `i` of the delivery's job, its statements ending as `faults` say. -/
def deliveryRun (i : ℕ) (faults : List Fault) : List NotificationAction :=
  .request i (.process (Uuid.repeated 1)) :: .advance i (.ends .none) ::
    faults.map fun fault => .advance i (.ends fault)

/-- The first run fails after its claim, and the second one delivers. -/
def retriedDelivery : List NotificationAction :=
  enqueuedDelivery ++ deliveryRun 1 [.none, .notExecuted, .none, .none] ++
    .environment (.promote (Uuid.repeated 1)) :: deliveryRun 2 [.none, .none, .none]

/-- The delivery is claimed twice, and delivered with the error gone. -/
theorem sample_delivery_lifecycle : ∃ w d,
    notificationSystem.exec NotificationWorld.sample retriedDelivery = some w ∧
    d ∈ w.shared.deliveries ∧ d.status = .delivered ∧ d.lastError = none ∧ d.attempts = 2 ∧
    w.shared.writes.count (.claimed d.id) = 2 := by
  have hrun : (notificationSystem.exec NotificationWorld.sample retriedDelivery).map (fun w =>
      w.shared.deliveries.map fun d => (d.status, d.lastError, d.attempts)) =
        some [(.delivered, none, 2)] := by decide
  obtain ⟨w, hw, heq⟩ := Option.map_eq_some_iff.mp hrun
  obtain ⟨d, rest, hd, hrow, -⟩ := List.map_eq_cons_iff.mp heq
  simp only [Prod.mk.injEq] at hrow
  obtain ⟨hstatus, herror, hattempts⟩ := hrow
  have hmem : d ∈ w.shared.deliveries := by
    rw [hd]
    exact List.mem_cons_self
  obtain ⟨-, hclaims, -⟩ := delivery_lifecycle (.exec (.init NotificationWorld.sample_init) hw) hmem
  exact ⟨w, d, hw, hmem, hstatus, herror, hattempts, hclaims.symm.trans hattempts⟩

end ScaleForge
