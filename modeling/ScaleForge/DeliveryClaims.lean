import ScaleForge.DeliveryLifecycle

/-!
# Who has claimed a delivery

A run claims a delivery by making it `PROCESSING`, which only a `PENDING` or `FAILED`
delivery admits; but neither the `DELIVERED` write nor `markFailed` names the claimant.
The catch block of `process` runs `markFailed` also after a claim that failed itself,
and then what it finds `PROCESSING` has been claimed by another run.

## Main definitions

* `NotificationWorld.Holds` — the run is between its claim and its closing write.
* `ClaimExclusive` — one run at most is, and a run that has not claimed writes nothing.
* `failsOwnClaim` — no `markFailed` finds the claim of another run.

## Main results

* `held_of_reachable` — a delivery that a run holds is `PROCESSING`, and held by that run
  alone.
* `claim_exclusive_iff` — **claims are exclusive in exactly the runs whose steps all meet
  the condition.**
-/

namespace ScaleForge

open Table NotificationsRepository Transition

/-- The run `i` has claimed the delivery, and no closing write of its own has taken
effect. -/
def NotificationWorld.Holds (w : NotificationWorld) (i : ℕ) (id : Uuid) : Prop :=
  ∃ pc, w.calls i = some ⟨.process id, pc⟩ ∧ pc.claim = .held

/-- If the step is one of a run that has not claimed its delivery, it writes no row. -/
def UnclaimedKeeps (w : NotificationWorld) (a : NotificationAction) (w' : NotificationWorld) :
    Prop :=
  ∀ i c id pc, a = .advance i c → w'.calls i = some ⟨.process id, pc⟩ →
    pc.claim = .none → w'.shared.deliveries = w.shared.deliveries

/-- One run at most holds a delivery after the step, and a run that has not claimed
changes nothing in it. -/
structure ClaimExclusive (w : NotificationWorld) (a : NotificationAction)
    (w' : NotificationWorld) : Prop where
  one : ∀ i j id, w'.Holds i id → w'.Holds j id → i = j
  unclaimed : UnclaimedKeeps w a w'

/-- The step is not a `markFailed` of a run that has not claimed its delivery, on a row
that is `PROCESSING`. -/
def failsOwnClaim (w : NotificationWorld) : NotificationAction → Bool
  | .advance i c =>
    match w.calls i with
    | some ⟨.process id, .failing _ .none _⟩ =>
      c.crashes || c.fault = .notExecuted || !processing id w.shared.deliveries
    | _ => true
  | _ => true

/-- A delivery that a run holds is `PROCESSING`, and held by that run alone. -/
structure NotificationWorld.Held (w : NotificationWorld) : Prop where
  processing : ∀ i id, w.Holds i id → processing id w.shared.deliveries = true
  one : ∀ i j id, w.Holds i id → w.Holds j id → i = j

section Move

variable {w : NotificationWorld} {i : ℕ} {id : Uuid} {s : NotificationState}
  {pc pc' : NotificationPc}

/-- Who holds a delivery after a run has moved. -/
theorem holds_move_iff {j : ℕ} {id' : Uuid} :
    NotificationWorld.Holds (w.move i (.process id) s pc') j id' ↔
      (j = i ∧ id' = id ∧ pc'.claim = .held) ∨ (j ≠ i ∧ w.Holds j id') := by
  constructor
  · rintro ⟨pc, hj, hheld⟩
    rcases Calls.move_calls_cases hj with ⟨rfl, heq, rfl⟩ | ⟨hne, hold⟩
    · cases heq
      exact Or.inl ⟨rfl, rfl, hheld⟩
    · exact Or.inr ⟨hne, pc, hold, hheld⟩
  · rintro (⟨rfl, rfl, hheld⟩ | ⟨hne, pc, hold, hheld⟩)
    · exact ⟨pc', Calls.move_calls_self w j _ s pc', hheld⟩
    · exact ⟨pc, (Calls.move_calls_of_ne w hne _ _ _).trans hold, hheld⟩

/-- Writing the row of one delivery does not touch the others. -/
theorem processing_update_of_ne {rows : List DeliveryRow} {p : DeliveryRow → Bool}
    {f : DeliveryRow → DeliveryRow} (hp : ∀ d, p d = true → d.id = id)
    {id' : Uuid} (hne : id' ≠ id) (h : processing id' rows = true) :
    processing id' (update p f rows) = true := by
  obtain ⟨d, hd, hid, hstatus⟩ := processing_iff.mp h
  have hnot : p d = false :=
    Bool.eq_false_iff.mpr fun hpd => hne (hid.symm.trans (hp d hpd))
  exact processing_iff.mpr ⟨d, mem_update_of_neg hd hnot, hid, hstatus⟩

/-- A run that moves without writing a row or claiming keeps what is held. -/
theorem NotificationWorld.Held.move (h : w.Held) (hcall : w.calls i = some ⟨.process id, pc⟩)
    (hclaim : pc'.claim = .held → pc.claim = .held)
    (hdeliveries : s.deliveries = w.shared.deliveries) :
    NotificationWorld.Held (w.move i (.process id) s pc') := by
  have hback : ∀ j id', NotificationWorld.Holds (w.move i (.process id) s pc') j id' →
      w.Holds j id' := by
    intro j id' hj
    rcases holds_move_iff.mp hj with ⟨rfl, rfl, hheld⟩ | ⟨-, hold⟩
    · exact ⟨pc, hcall, hclaim hheld⟩
    · exact hold
  refine ⟨fun j id' hj => ?_, fun j k id' hj hk => h.one j k id' (hback j id' hj) (hback k id' hk)⟩
  show NotificationsRepository.processing id' s.deliveries = true
  rw [hdeliveries]
  exact h.processing j id' (hback j id' hj)

/-- **A run that lets its delivery go** leaves the claims of the others alone. -/
theorem NotificationWorld.Held.release (h : w.Held) (hold : w.Holds i id)
    (hclaim : pc'.claim ≠ .held) {p : DeliveryRow → Bool} {f : DeliveryRow → DeliveryRow}
    (hp : ∀ d, p d = true → d.id = id)
    (hdeliveries : s.deliveries = update p f w.shared.deliveries) :
    NotificationWorld.Held (w.move i (.process id) s pc') := by
  have hback : ∀ j id', NotificationWorld.Holds (w.move i (.process id) s pc') j id' →
      j ≠ i ∧ w.Holds j id' := by
    intro j id' hj
    rcases holds_move_iff.mp hj with ⟨-, -, hheld⟩ | hother
    · exact absurd hheld hclaim
    · exact hother
  refine ⟨fun j id' hj => ?_, fun j k id' hj hk =>
    h.one j k id' (hback j id' hj).2 (hback k id' hk).2⟩
  obtain ⟨hne, hother⟩ := hback j id' hj
  have hid : id' ≠ id := by
    rintro rfl
    exact hne (h.one j i id' hother hold)
  show NotificationsRepository.processing id' s.deliveries = true
  rw [hdeliveries]
  exact processing_update_of_ne hp hid (h.processing j id' hother)

/-- **A claim is only won when nobody holds the delivery.** -/
theorem NotificationWorld.Held.claim (h : w.Held)
    (hunique : UniqueOn (fun d => d.id) w.shared.deliveries)
    (hwon : claimable id w.shared.deliveries = true) :
    NotificationWorld.Held (w.move i (.process id) (w.shared.claim id) pc') := by
  obtain ⟨d, hd, hid, hrecoverable⟩ := claimable_iff.mp hwon
  have hfree : ∀ j, ¬w.Holds j id := by
    intro j hj
    obtain ⟨e, he, heid, hstatus⟩ := processing_iff.mp (h.processing j id hj)
    obtain rfl : e = d := hunique.eq_of_key he hd (heid.trans hid.symm)
    simp [recoverable, hstatus] at hrecoverable
  refine ⟨?_, ?_⟩
  · intro j id' hj
    rcases holds_move_iff.mp hj with ⟨-, rfl, -⟩ | ⟨-, hother⟩
    · exact processing_iff.mpr
        ⟨_, mem_update_of_pos hd (by simp [hid, hrecoverable]), hid, rfl⟩
    · have hne : id' ≠ id := by
        rintro rfl
        exact hfree j hother
      refine processing_update_of_ne ?_ hne (h.processing j id' hother)
      intro e he
      simp only [Bool.and_eq_true, decide_eq_true_eq] at he
      exact he.1
  · intro j k id' hj hk
    rcases holds_move_iff.mp hj with ⟨rfl, rfl, -⟩ | ⟨-, hj'⟩
    · rcases holds_move_iff.mp hk with ⟨rfl, -, -⟩ | ⟨-, hk'⟩
      · rfl
      · exact absurd hk' (hfree k)
    · rcases holds_move_iff.mp hk with ⟨-, rfl, -⟩ | ⟨-, hk'⟩
      · exact absurd hj' (hfree j)
      · exact h.one j k id' hj' hk'

end Move

/-! ### Runs that meet the condition -/

section Reachable

variable {w w' : NotificationWorld} {a : NotificationAction}

/-- A run whose closing write has taken effect finds nothing to mark as failed. -/
theorem not_processing_of_closed (hw : notificationSystem.Reachable w) {i : ℕ} {id : Uuid}
    {lock : ℕ} {lastError : String}
    (hcall : w.calls i = some ⟨.process id, .failing lock .closed lastError⟩) :
    processing id w.shared.deliveries = false := by
  obtain ⟨hlife, hknows⟩ := lifecycles_of_reachable hw
  obtain ⟨d, hd, hid, hdelivered⟩ := hknows i id _ hcall
  by_contra hprocessing
  rw [Bool.not_eq_false] at hprocessing
  obtain ⟨e, he, heid, hstatus⟩ := processing_iff.mp hprocessing
  obtain rfl : e = d := hlife.unique.eq_of_key he hd (heid.trans hid.symm)
  rw [hdelivered] at hstatus
  cases hstatus

theorem markFailed_eq_self {s : NotificationState} {id : Uuid} {lastError : String}
    (h : processing id s.deliveries = false) : s.markFailed id lastError = s := by
  simp [NotificationState.markFailed, h, markFailed_of_not_processing h]

/-- `markFailed` runs, unless its process dies or the statement is not executed. -/
theorem advance_failing {s : NotificationState} {c : NotificationChoice} {id : Uuid} {lock : ℕ}
    {claim : RunClaim} {lastError : String} (hcrashes : c.crashes = false)
    (hfault : c.fault ≠ .notExecuted) :
    advanceNotification s c (.process id) (.failing lock claim lastError) =
      some (s.markFailed id lastError, .finishing lock claim.close false) := by
  simp only [advanceNotification, NotificationPc.final, hcrashes, NotificationQueueService.advance]
  cases hends : c.fault with
  | notExecuted => exact absurd hends hfault
  | none => rfl
  | replyLost => rfl

/-- The condition, at a `markFailed` that runs. -/
theorem not_processing_of_failsOwnClaim {i : ℕ} {c : NotificationChoice} {id : Uuid} {lock : ℕ}
    {lastError : String} {s' : NotificationState} {claim : RunClaim}
    (hguard : failsOwnClaim w (.advance i c) = true)
    (hcall : w.calls i = some ⟨.process id, .failing lock .none lastError⟩)
    (hadvance : advanceNotification w.shared c (.process id) (.failing lock .none lastError) =
      some (s', .finishing lock claim false)) (hs' : s'.deliveries ≠ w.shared.deliveries) :
    processing id w.shared.deliveries = false := by
  simp only [failsOwnClaim, hcall, Bool.or_eq_true, decide_eq_true_eq, Bool.not_eq_true'] at hguard
  simp only [advanceNotification, NotificationPc.final,
    NotificationQueueService.advance] at hadvance
  rcases hguard with (hcrashes | hfault) | hprocessing
  · simp [hcrashes] at hadvance
  · simp only [hfault] at hadvance
    split at hadvance
    · cases hadvance
    split at hadvance
    · cases hadvance
    · cases hadvance
      exact absurd rfl hs'
  · exact hprocessing

/-- **A step of a run that meets the condition.** -/
theorem held_of_run (hw : notificationSystem.Reachable w) (h : w.Held) {i : ℕ}
    {c : NotificationChoice} {id : Uuid} {pc pc' : NotificationPc} {s' : NotificationState}
    (hguard : failsOwnClaim w (.advance i c) = true) (hcall : w.calls i = some ⟨.process id, pc⟩)
    (hadvance : advanceNotification w.shared c (.process id) pc = some (s', pc'))
    (hrun : DeliveryStep w.shared id pc s' pc') :
    NotificationWorld.Held (w.move i (.process id) s' pc') ∧
      UnclaimedKeeps w (.advance i c) (w.move i (.process id) s' pc') := by
  -- a step that writes no row, and does not claim
  have hkept : s'.deliveries = w.shared.deliveries → (pc'.claim = .held → pc.claim = .held) →
      NotificationWorld.Held (w.move i (.process id) s' pc') ∧
        UnclaimedKeeps w (.advance i c) (w.move i (.process id) s' pc') :=
    fun hdeliveries hclaim => ⟨h.move hcall hclaim hdeliveries, fun _ _ _ _ _ _ _ => hdeliveries⟩
  -- a step after which the run has claimed
  have hclaimed : pc'.claim ≠ .none →
      UnclaimedKeeps w (.advance i c) (w.move i (.process id) s' pc') := by
    intro hne i' c' id' pc'' heq hi' hnone
    cases heq
    rw [Calls.move_calls_self, Option.some.injEq, Calls.Call.mk.injEq] at hi'
    rw [hi'.2] at hne
    exact absurd hnone hne
  cases hrun with
  | unwritten hdeliveries hwrites hclaim hknows =>
    exact hkept hdeliveries fun hheld => hclaim ▸ hheld
  | claimed hwon hpc' =>
    refine ⟨h.claim (lifecycles_of_reachable hw).1.unique hwon, hclaimed ?_⟩
    rcases hpc' with rfl | ⟨lastError, rfl⟩ <;> exact nofun
  | delivered hpc' =>
    have hclosed : pc'.claim = .closed := by
      rcases hpc' with rfl | ⟨lastError, rfl⟩ <;> rfl
    refine ⟨h.release ⟨_, hcall, rfl⟩ (by simp [hclosed]) ?_ rfl, hclaimed (by simp [hclosed])⟩
    intro d hd
    exact of_decide_eq_true hd
  | markedFailed lock claim lastError =>
    cases claim with
    | none =>
      by_cases hsame : (w.shared.markFailed id lastError).deliveries = w.shared.deliveries
      · exact hkept hsame nofun
      · have hnot := not_processing_of_failsOwnClaim hguard hcall hadvance hsame
        exact absurd (congrArg _ (markFailed_eq_self hnot)) hsame
    | held =>
      refine ⟨h.release ⟨_, hcall, rfl⟩ nofun ?_ rfl, hclaimed nofun⟩
      intro d hd
      simp only [Bool.and_eq_true, decide_eq_true_eq] at hd
      exact hd.1
    | closed =>
      have hnot := not_processing_of_closed hw hcall
      refine hkept ?_ nofun
      rw [markFailed_eq_self hnot]

/-- **A step that meets the condition keeps the claims apart**, and writes no row when
it is the step of a run that has not claimed. -/
theorem held_of_step (hw : notificationSystem.Reachable w) (h : w.Held)
    (hguard : failsOwnClaim w a = true) (hstep : notificationSystem.step w a = some w') :
    w'.Held ∧ UnclaimedKeeps w a w' := by
  cases notificationStep_of_step hstep with
  | unwritten hdeliveries hwrites hcalls =>
    have hback : ∀ j id, w'.Holds j id → w.Holds j id := by
      rintro j id ⟨pc, hj, hheld⟩
      rcases hcalls j id pc hj with hold | rfl
      · exact ⟨pc, hold, hheld⟩
      · cases hheld
    refine ⟨⟨fun j id hj => ?_, fun j k id hj hk => h.one j k id (hback j id hj) (hback k id hk)⟩,
      fun _ _ _ _ _ _ _ => hdeliveries⟩
    rw [hdeliveries]
    exact h.processing j id (hback j id hj)
  | @created id eventId userId payload createdAt s' ha hfresh hdeliveries hwrites =>
    refine ⟨⟨fun j id' hj => ?_, h.one⟩, ?_⟩
    · obtain ⟨d, hd, hid, hstatus⟩ := processing_iff.mp (h.processing j id' hj)
      refine processing_iff.mpr ⟨d, ?_, hid, hstatus⟩
      show d ∈ s'.deliveries
      rw [hdeliveries]
      exact List.mem_append_left _ hd
    · rintro i c id' pc rfl
      obtain ⟨e, heq⟩ := ha
      cases heq
  | run ha hcall hadvance hrun =>
    subst ha
    exact held_of_run hw h hguard hcall hadvance hrun

/-- **A delivery that a run holds is `PROCESSING`, and held by that run alone**, while
the steps meet the condition. -/
theorem held_of_reachable (hw : (notificationSystem.restrict failsOwnClaim).Reachable w) :
    w.Held := by
  refine hw.invariant (I := NotificationWorld.Held) ?_ ?_
  · rintro w ⟨-, hcalls⟩
    have hnone : ∀ i id, ¬w.Holds i id := by
      rintro i id ⟨pc, hcall, -⟩
      rw [hcalls i] at hcall
      cases hcall
    exact ⟨fun i id hi => absurd hi (hnone i id), fun i j id hi => absurd hi (hnone i id)⟩
  · intro w a w' hw ih hstep
    obtain ⟨hguard, hstep⟩ := Sys.restrict_step_iff.mp hstep
    exact (held_of_step hw.of_restrict ih hguard hstep).1

theorem processing_markFailed (id : Uuid) (lastError : String) (rows : List DeliveryRow) :
    processing id (markFailed id lastError rows) = false := by
  by_contra hprocessing
  rw [Bool.not_eq_false] at hprocessing
  obtain ⟨d', hd', hid, hstatus⟩ := processing_iff.mp hprocessing
  obtain ⟨d, -, rfl⟩ := mem_update.mp hd'
  split at hstatus
  · cases hstatus
  · next hnot =>
    rw [if_neg hnot] at hid
    exact hnot (by simp [hid, hstatus])

/-- A step that does not meet the condition writes a row the run has not claimed. -/
theorem failsOwnClaim_of_claimExclusive (hstep : notificationSystem.step w a = some w')
    (h : ClaimExclusive w a w') : failsOwnClaim w a = true := by
  by_contra hguard
  rw [Bool.not_eq_true] at hguard
  unfold failsOwnClaim at hguard
  split at hguard
  · next i c =>
    split at hguard
    · next id lock lastError hcall =>
      simp only [Bool.or_eq_false_iff, decide_eq_false_iff_not, Bool.not_eq_false'] at hguard
      obtain ⟨⟨hcrashes, hfault⟩, hprocessing⟩ := hguard
      have hstep : Calls.step notificationMachine notificationEnvironment w (.advance i c) =
        some w' := hstep
      rcases Calls.step_cases hstep with ⟨_, _, ha, -⟩ | ⟨_, _, ha, -⟩ |
        ⟨j, c', r, pc, s', pc', ha, hcall', hadv, rfl⟩
      · cases ha
      · cases ha
      · cases ha
        rw [hcall, Option.some.injEq, Calls.Call.mk.injEq] at hcall'
        obtain ⟨rfl, rfl⟩ := hcall'
        have hruns : advanceNotification w.shared c (.process id)
            (.failing lock .none lastError) = some (w.shared.markFailed id lastError,
              .finishing lock .none false) := advance_failing hcrashes hfault
        obtain ⟨rfl, rfl⟩ := Prod.mk.inj (Option.some.inj (hruns.symm.trans hadv))
        have hsame := h.unclaimed i c id _ rfl (Calls.move_calls_self _ _ _ _ _) rfl
        -- the row is no longer `PROCESSING`
        have hnot := processing_markFailed id lastError w.shared.deliveries
        rw [show markFailed id lastError w.shared.deliveries = w.shared.deliveries from hsame,
          hprocessing] at hnot
        cases hnot
    · cases hguard
  · cases hguard

end Reachable

/-! ### The theorem -/

/-- **Claims are exclusive** in exactly the runs in which no run whose claim has not
taken effect gets to `markFailed` on a row that is `PROCESSING`. -/
theorem claim_exclusive_iff {w₀ w : NotificationWorld} {as : List NotificationAction}
    (h0 : notificationSystem.init w₀) (h : notificationSystem.exec w₀ as = some w) :
    (∀ v a v', notificationSystem.Takes w₀ as v a v' → ClaimExclusive v a v') ↔
      ∀ v a v', notificationSystem.Takes w₀ as v a v' → failsOwnClaim v a = true := by
  constructor
  · intro hall v a v' htakes
    exact failsOwnClaim_of_claimExclusive htakes.step (hall v a v' htakes)
  · intro hall v a v' htakes
    have hreach : (notificationSystem.restrict failsOwnClaim).Reachable w₀ := .init h0
    have hrestricted := htakes.restrict (Sys.exec_restrict hall h)
    have hv := hrestricted.reachable hreach
    obtain ⟨hheld, hunclaimed⟩ :=
      held_of_step hv.of_restrict (held_of_reachable hv) (hall v a v' htakes) htakes.step
    exact ⟨hheld.one, hunclaimed⟩

/-- The claims of the retried delivery are exclusive. -/
theorem sample_claim_exclusive : ∃ w,
    notificationSystem.exec NotificationWorld.sample retriedDelivery = some w ∧
    w.shared.writes = [.claimed (Uuid.repeated 1), .markedFailed (Uuid.repeated 1),
      .claimed (Uuid.repeated 1), .delivered (Uuid.repeated 1)] ∧
    ∀ v a v', notificationSystem.Takes NotificationWorld.sample retriedDelivery v a v' →
      ClaimExclusive v a v' := by
  have hrun : ((notificationSystem.restrict failsOwnClaim).exec NotificationWorld.sample
      retriedDelivery).map (fun w => w.shared.writes) = some [.claimed (Uuid.repeated 1),
        .markedFailed (Uuid.repeated 1), .claimed (Uuid.repeated 1),
        .delivered (Uuid.repeated 1)] := by decide
  obtain ⟨w, hw, hwrites⟩ := Option.map_eq_some_iff.mp hrun
  have hexec := Sys.exec_of_restrict hw
  refine ⟨w, hexec, hwrites, ?_⟩
  refine (claim_exclusive_iff NotificationWorld.sample_init hexec).mpr fun v a v' htakes => ?_
  exact (Sys.restrict_step_iff.mp (htakes.restrict hw).step).1

/-- The delivery whose `DELIVERED` write the run `i` awaits. -/
def NotificationWorld.delivering (w : NotificationWorld) (i : ℕ) : Option Uuid :=
  match w.calls i with
  | some ⟨.process id, .delivering _⟩ => some id
  | _ => none

theorem NotificationWorld.holds_of_delivering {w : NotificationWorld} {i : ℕ} {id : Uuid}
    (h : w.delivering i = some id) : w.Holds i id := by
  unfold delivering at h
  split at h
  · next id' lock hcall =>
    cases h
    exact ⟨_, hcall, rfl⟩
  · cases h

/-- The first run claims the delivery, and its job stalls.  The claim of the second run
fails, and `markFailed` writes; the third run takes the job. -/
def stalledDelivery : List NotificationAction :=
  enqueuedDelivery ++ deliveryRun 1 [.none] ++
    .environment (.stall (Uuid.repeated 1)) :: deliveryRun 2 [.notExecuted, .none, .none] ++
    .environment (.promote (Uuid.repeated 1)) :: deliveryRun 3 []

/-- **A run whose claim failed frees the claim of another**: then the third run claims
the delivery too, and both will record it as delivered. -/
theorem delivery_claimed_twice : ∃ w, notificationSystem.exec NotificationWorld.sample
      (stalledDelivery ++ [.advance 3 (.ends .none)]) = some w ∧
    w.delivering 1 = some (Uuid.repeated 1) ∧ w.delivering 3 = some (Uuid.repeated 1) ∧
    ¬∀ v a v', notificationSystem.Takes NotificationWorld.sample
      (stalledDelivery ++ [.advance 3 (.ends .none)]) v a v' → ClaimExclusive v a v' := by
  have hrun : (notificationSystem.exec NotificationWorld.sample
      (stalledDelivery ++ [.advance 3 (.ends .none)])).map
        (fun w => (w.delivering 1, w.delivering 3)) =
          some (some (Uuid.repeated 1), some (Uuid.repeated 1)) := by decide
  obtain ⟨w, hw, heq⟩ := Option.map_eq_some_iff.mp hrun
  obtain ⟨hfirst, hthird⟩ := Prod.mk.inj heq
  refine ⟨w, hw, hfirst, hthird, fun hall => ?_⟩
  -- the last step of the run
  have hlast := hw
  rw [Sys.exec_append, Option.bind_eq_some_iff] at hlast
  obtain ⟨v, hv, hstep⟩ := hlast
  rw [Sys.exec_singleton] at hstep
  have hexclusive := hall v _ w (Sys.takes_last hv hstep)
  have hsame := hexclusive.one 1 3 (Uuid.repeated 1) (NotificationWorld.holds_of_delivering hfirst)
    (NotificationWorld.holds_of_delivering hthird)
  cases hsame

end ScaleForge
