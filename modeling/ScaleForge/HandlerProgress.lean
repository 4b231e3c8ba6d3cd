import ScaleForge.EffectivelyOnce
import ScaleForge.Lib.Progress

/-!
# The handlers never deadlock

A transaction of a handler waits for at most two keys, one after the other: that of the
delivery and that of the marker.  Whoever holds the key of a delivery has inserted its
effect and comes to its marker, and whoever holds the key of a marker comes to its
commit, which waits for nothing.  So a transaction waits only for one that is closer to
its end, and whatever keys are locked, all of them come to an end.

## Main definitions

* `EffectPc.remaining` — the statements a call has left.
* `calm` — nothing fails on its own account, and no call arrives.
* `EffectWorld.Settles` — how far the calls have come.

## Main results

* `held_of_locked` — every locked key is held by a call.
* `free_or_waits` — what a call waits for.
* `exists_calm_run` — the calls that are there come to their ends.
* `handlers_finish` — **no deadlock, and every handler call comes to its end.**
-/

namespace ScaleForge

open Transition

variable {u : UuidSyntax}

/-! ### Locks -/

/-- **Every locked key is held by a call.** -/
theorem held_of_locked {w : EffectWorld} (hw : (effectSystem u).Reachable w) {k : IndexKey}
    (hk : k ∈ w.shared.locked) : ∃ i r pc, w.calls i = some ⟨r, pc⟩ ∧ k ∈ pc.held r := by
  refine Calls.lock_held (fun s k => k ∈ s.locked) (fun r pc k => k ∈ pc.held r) ?_ ?_ ?_ hw hk
  · rintro s k ⟨-, -, -, hlocked⟩ hk
    rw [hlocked] at hk
    cases hk
  · intro s e s' k h hk
    exact (environment_frame h).1 ▸ hk
  · intro s c r pc s' pc' k h hk
    have hstep := effectStep_of_machine h
    cases hstep with
    | throws =>
      obtain ⟨hlocked, hnot⟩ := List.mem_filter.mp hk
      exact Or.inr ⟨hlocked, of_decide_eq_true hnot⟩
    | delivered =>
      rcases List.mem_cons.mp hk with rfl | hk
      · exact Or.inl List.mem_cons_self
      · exact Or.inr ⟨hk, List.not_mem_nil⟩
    | @marking eventId effect =>
      by_cases hheld : k ∈ (EffectPc.commit eventId effect).held r
      · exact Or.inl hheld
      · have hnot := fun heq => hheld (List.mem_cons.mpr (Or.inl heq))
        rcases List.mem_cons.mp hk with heq | hk
        · exact absurd heq hnot
        · exact Or.inr ⟨hk, fun hmem => hheld (List.mem_cons_of_mem _ hmem)⟩
    | committed =>
      obtain ⟨hlocked, hnot⟩ := List.mem_filter.mp hk
      exact Or.inr ⟨hlocked, of_decide_eq_true hnot⟩
    | _ => exact Or.inr ⟨hk, List.not_mem_nil⟩

/-! ### What a call waits for -/

/-- The statements a call has left. -/
def EffectPc.remaining : EffectPc → ℕ
  | start => 4
  | lookup _ => 1
  | effect _ => 3
  | marker _ _ => 2
  | commit _ _ => 1
  | returned _ => 0
  | thrown => 0

/-- The call has returned or thrown. -/
def EffectPc.finished (pc : EffectPc) : Prop := pc.remaining = 0

/-- **A statement lowers what is left.** -/
theorem remaining_of_advance {s s' : EffectState} {c : EffectChoice} {r : EffectCall}
    {pc pc' : EffectPc} (h : (effectMachine u).advance s c r pc = some (s', pc')) :
    pc'.remaining < pc.remaining := by
  have hpc : pc.remaining ≠ 0 := by
    intro hleft
    have hnone : advanceEffect u s c r pc = none := by
      cases pc with
      | returned result => exact advanceEffect_returned u s c r result
      | thrown =>
        unfold advanceEffect
        split <;> rfl
      | _ => cases hleft
    have hsome : advanceEffect u s c r pc = some (s', pc') := h
    rw [hnone] at hsome
    cases hsome
  have hstep := effectStep_of_machine h
  cases hstep with
  | throws => exact Nat.pos_of_ne_zero hpc
  | _ => simp only [EffectPc.remaining]; omega

/-- Whoever holds the key of a delivery has inserted its effect. -/
theorem remaining_of_delivery {r : EffectCall} {pc : EffectPc} {e : Uuid}
    (h : IndexKey.delivery e ∈ pc.held r) : pc.remaining ≠ 0 ∧ pc.remaining < 3 := by
  cases pc with
  | marker e' effect => simp [EffectPc.remaining]
  | commit e' effect => simp [EffectPc.remaining]
  | _ => cases h

/-- Whoever holds the key of a marker comes to its commit. -/
theorem remaining_of_marker {r : EffectCall} {pc : EffectPc} {consumer : ConsumerName} {e : Uuid}
    (h : IndexKey.marker consumer e ∈ pc.held r) : pc.remaining ≠ 0 ∧ pc.remaining < 2 := by
  cases pc with
  | marker e' effect =>
    cases effect with
    | audit entry => cases h
    | delivery row => cases List.mem_singleton.mp h
  | commit e' effect => simp [EffectPc.remaining]
  | _ => cases h

theorem insertKey_isSome {s : EffectState} {r : EffectCall} {pc pc' : EffectPc} {k : IndexKey}
    (h : k ∉ s.locked) : (insertKey s r pc k pc').isSome = true := by
  unfold insertKey
  rw [if_neg h]
  split <;> rfl

/-- **What a call waits for**: a locked key, whose holder is closer to its end. -/
theorem free_or_waits (s : EffectState) (r : EffectCall) {pc : EffectPc} (hpc : pc.remaining ≠ 0) :
    (∀ c : EffectChoice, c.fails = false → (advanceEffect u s c r pc).isSome = true) ∨
      ∃ k ∈ s.locked, ∀ (r' : EffectCall) (pc' : EffectPc), k ∈ pc'.held r' →
        pc'.remaining ≠ 0 ∧ pc'.remaining < pc.remaining := by
  cases pc with
  | effect e =>
    by_cases hk : IndexKey.delivery e ∈ s.locked
    · exact Or.inr ⟨_, hk, fun r' pc' hheld => remaining_of_delivery hheld⟩
    · refine Or.inl fun c hc => ?_
      unfold advanceEffect
      rw [if_neg (Bool.eq_false_iff.mp hc)]
      dsimp only
      split
      · split <;> rfl
      · split
        · rfl
        · exact insertKey_isSome hk
  | marker e effect =>
    by_cases hk : IndexKey.marker r.consumer e ∈ s.locked
    · exact Or.inr ⟨_, hk, fun r' pc' hheld => remaining_of_marker hheld⟩
    · refine Or.inl fun c hc => ?_
      unfold advanceEffect
      rw [if_neg (Bool.eq_false_iff.mp hc)]
      exact insertKey_isSome hk
  | start =>
    refine Or.inl fun c hc => ?_
    unfold advanceEffect
    rw [if_neg (Bool.eq_false_iff.mp hc)]
    dsimp only
    split
    · rfl
    · split
      · split <;> rfl
      · rfl
  | lookup e =>
    refine Or.inl fun c hc => ?_
    unfold advanceEffect
    rw [if_neg (Bool.eq_false_iff.mp hc)]
    rfl
  | commit e effect =>
    refine Or.inl fun c hc => ?_
    unfold advanceEffect
    rw [if_neg (Bool.eq_false_iff.mp hc)]
    rfl
  | returned result => exact absurd rfl hpc
  | thrown => exact absurd rfl hpc

/-- The next statement of a call is enabled, unless it fails on its own account. -/
def EffectWorld.Free (u : UuidSyntax) (w : EffectWorld) (i : ℕ) : Prop :=
  ∀ c : EffectChoice, c.fails = false → ((effectSystem u).step w (.advance i c)).isSome = true

/-- **No deadlock.** -/
theorem exists_free {w : EffectWorld} (hw : (effectSystem u).Reachable w) {i : ℕ} {r : EffectCall}
    {pc : EffectPc} (hcall : w.calls i = some ⟨r, pc⟩) (hpc : ¬pc.finished) :
    ∃ j r' pc', w.calls j = some ⟨r', pc'⟩ ∧ ¬pc'.finished ∧ w.Free u j := by
  refine Calls.exists_free EffectPc.remaining (w.Free u) ?_ hcall hpc
  intro i r pc hcall hpc
  rcases free_or_waits (u := u) w.shared r hpc with hfree | ⟨k, hk, hcloser⟩
  · refine Or.inl fun c hc => ?_
    obtain ⟨q, hq⟩ := Option.isSome_iff_exists.mp (hfree c hc)
    have hstep : (effectSystem u).step w (.advance i c) = some (w.move i r q.1 q.2) :=
      Calls.step_advance hcall hq
    rw [hstep]
    rfl
  · obtain ⟨j, r', pc', hj, hheld⟩ := held_of_locked hw hk
    obtain ⟨hleft, hlt⟩ := hcloser r' pc' hheld
    exact Or.inr ⟨j, r', pc', hj, hleft, hlt⟩

/-! ### All calls come to an end -/

/-- The step is a statement of a call that does not fail on its own account. -/
def calm (_ : EffectWorld) (a : EffectAction) : Bool :=
  match a with
  | .advance _ c => !c.fails
  | _ => false

/-- The calls are at their ends, and no key is locked. -/
structure EffectWorld.Quiet (w : EffectWorld) : Prop where
  calls : ∀ i r pc, w.calls i = some ⟨r, pc⟩ → pc.finished
  locked : w.shared.locked = []

theorem quiet_of_finished {w : EffectWorld} (hw : (effectSystem u).Reachable w)
    (h : ∀ i r pc, w.calls i = some ⟨r, pc⟩ → pc.finished) : w.Quiet := by
  refine ⟨h, List.eq_nil_iff_forall_not_mem.mpr fun k hk => ?_⟩
  obtain ⟨i, r, pc, hcall, hheld⟩ := held_of_locked hw hk
  have hfinished : pc.remaining = 0 := h i r pc hcall
  cases pc with
  | marker e effect => cases hfinished
  | commit e effect => cases hfinished
  | _ => cases hheld

/-- In some statements what is left has gone down. -/
theorem exists_calm_step {w : EffectWorld} (hw : (effectSystem u).Reachable w) {I : Finset ℕ}
    (hI : ∀ i, w.calls i ≠ none → i ∈ I) (hleft : w.total EffectPc.remaining I ≠ 0) :
    ∃ i c w', calm w (.advance i c) = true ∧
      (effectSystem u).step w (.advance i c) = some w' ∧
      (∀ j, w.calls j = none ↔ w'.calls j = none) ∧
      w'.total EffectPc.remaining I < w.total EffectPc.remaining I := by
  obtain ⟨i, r, pc, hcall, hpc⟩ := Calls.exists_of_total_ne_zero hleft
  obtain ⟨j, r', pc', hj, -, hfree⟩ := exists_free hw hcall hpc
  obtain ⟨w', hstep⟩ := Option.isSome_iff_exists.mp (hfree ⟨false, Uuid.repeated 0⟩ rfl)
  refine ⟨j, ⟨false, Uuid.repeated 0⟩, w', rfl, hstep, ?_⟩
  have hmove : Calls.step (effectMachine u) effectEnvironment w
      (.advance j ⟨false, Uuid.repeated 0⟩) =
    some w' := hstep
  rcases Calls.step_cases hmove with ⟨e, d, ha, -, -⟩ | ⟨j', r₁, ha, -, -⟩ |
    ⟨j', c, r₁, pc₁, d, pc₂, ha, hcall₁, hadv, rfl⟩
  · cases ha
  · cases ha
  · cases ha
    have hmem : j ∈ I := hI j (by rw [hj]; exact Option.some_ne_none _)
    have htotal := Calls.total_move hmem EffectPc.remaining r₁ d pc₂ (s := w)
    rw [hcall₁, Option.elim_some] at htotal
    have hlower := remaining_of_advance hadv
    refine ⟨fun k => ?_, ?_⟩
    · by_cases hk : k = j
      · rw [hk, Calls.move_calls_self, hcall₁]
        simp
      · rw [Calls.move_calls_of_ne w hk]
    · simp only at htotal
      omega

/-- A run from `w` has come to `v`: no call has arrived, and the calls in `I` have `n` statements
left. -/
structure EffectWorld.Settles (u : UuidSyntax) (w : EffectWorld) (I : Finset ℕ) (v : EffectWorld)
    (n : ℕ) : Prop where
  reachable : (effectSystem u).Reachable v
  calls : ∀ i, w.calls i = none ↔ v.calls i = none
  left : v.total EffectPc.remaining I = n

theorem EffectWorld.Settles.step {w v : EffectWorld} {I : Finset ℕ} {n : ℕ}
    (h : w.Settles u I v n) (hI : ∀ i, w.calls i ≠ none → i ∈ I) :
    v.total EffectPc.remaining I = 0 ∨ ∃ as v' m,
      ((effectSystem u).restrict calm).exec v as = some v' ∧ m < n ∧ w.Settles u I v' m := by
  obtain ⟨hv, hsame, rfl⟩ := h
  refine or_iff_not_imp_left.mpr fun hleft => ?_
  have hI' : ∀ i, v.calls i ≠ none → i ∈ I := fun i hi => hI i fun hnone =>
    hi ((hsame i).mp hnone)
  obtain ⟨i, c, v', hcalm, hstep, hkept, hlt⟩ := exists_calm_step hv hI' hleft
  refine ⟨[.advance i c], v', _, ?_, hlt, hv.step hstep, fun j => (hsame j).trans (hkept j), rfl⟩
  rw [Sys.exec_singleton]
  exact Sys.restrict_step_iff.mpr ⟨hcalm, hstep⟩

/-- **The calls that are there come to their ends.** -/
theorem exists_calm_run {w : EffectWorld} (hw : (effectSystem u).Reachable w) :
    ∃ as w', ((effectSystem u).restrict calm).exec w as = some w' ∧ w'.Quiet ∧
      ∀ i, w.calls i = none ↔ w'.calls i = none := by
  obtain ⟨I, hI⟩ : ∃ I : Finset ℕ, ∀ i, w.calls i ≠ none → i ∈ I :=
    ⟨(Calls.finite_calls hw).toFinset, fun i hi => (Set.Finite.mem_toFinset _).mpr hi⟩
  have hstart : w.Settles u I w (w.total EffectPc.remaining I) := ⟨hw, fun _ => Iff.rfl, rfl⟩
  obtain ⟨as, w', -, hrun, hdone, hw', hsame, -⟩ :=
    Sys.exists_exec (fun v n (h : w.Settles u I v n) => h.step hI) hstart
  refine ⟨as, w', hrun, quiet_of_finished hw' fun i r pc hcall => ?_, hsame⟩
  have hi : i ∈ I := hI i fun hnone => by
    rw [(hsame i).mp hnone] at hcall
    cases hcall
  exact Calls.eq_zero_of_total hdone hi hcall

/-! ### A call on its own -/

/-- The values of the row the call inserts fit their columns. -/
def EffectCall.Fits (u : UuidSyntax) : EffectCall → Prop
  | processEvent event => ∀ id now, (auditData u event id now).isSome = true
  | processOrderCreated event => ∀ id eventId, (deliveryData u event id eventId).isSome = true

theorem insertKey_free {s : EffectState} {r : EffectCall} {pc pc' : EffectPc} {k : IndexKey}
    (hindex : s.db.indexed k = false) (hfree : k ∉ s.locked) :
    insertKey s r pc k pc' = some (s.lock k, pc') := by
  unfold insertKey
  rw [if_neg (Bool.eq_false_iff.mp hindex), if_neg hfree]

/-- The statements of a call that goes on alone and returns. -/
abbrev Returns (u : UuidSyntax) (r : EffectCall) (s : EffectState) (pc : EffectPc) : Prop :=
  ∃ s' result, Calls.Runs (effectMachine u) (fun c => !c.fails) r s pc s' (.returned result)

/-- A call inserts its marker and commits. -/
theorem returns_of_marker {s : EffectState} {r : EffectCall} {e : Uuid} {effect : Effect}
    (hmarker : s.db.processed r.consumer e = false)
    (hfree : IndexKey.marker r.consumer e ∉ s.locked) : Returns u r s (.marker e effect) :=
  ⟨_, _, .step ⟨false, Uuid.repeated 0⟩ rfl (insertKey_free hmarker hfree)
    (.step ⟨false, Uuid.repeated 0⟩ rfl rfl (.refl _ _))⟩

/-- A call inserts its effect, its marker, and commits. -/
theorem returns_of_effect {s : EffectState} {r : EffectCall} {e : Uuid} (hfits : r.Fits u)
    (hlocked : s.locked = []) (hmarker : s.db.processed r.consumer e = false)
    (hdelivery : r.consumer = .notification → s.db.indexed (.delivery e) = false) :
    Returns u r s (.effect e) := by
  cases r with
  | processEvent event =>
    obtain ⟨row, hrow⟩ := Option.isSome_iff_exists.mp (hfits (Uuid.repeated 0) s.clock)
    have hnext : advanceEffect u s ⟨false, Uuid.repeated 0⟩ (.processEvent event) (.effect e) =
        some (s, .marker e (.audit ⟨row, some e⟩)) := by
      unfold advanceEffect
      simp [hrow]
    have hfree : IndexKey.marker (EffectCall.processEvent event).consumer e ∉ s.locked := by
      rw [hlocked]
      exact List.not_mem_nil
    obtain ⟨s', result, hrest⟩ := returns_of_marker (u := u) hmarker hfree
    exact ⟨s', result, .step ⟨false, Uuid.repeated 0⟩ rfl hnext hrest⟩
  | processOrderCreated event =>
    obtain ⟨row, hrow⟩ := Option.isSome_iff_exists.mp (hfits (Uuid.repeated 0) e)
    have hfree : IndexKey.delivery e ∉ s.locked := by
      rw [hlocked]
      exact List.not_mem_nil
    have hnext : advanceEffect u s ⟨false, Uuid.repeated 0⟩ (.processOrderCreated event)
        (.effect e) = some (s.lock (.delivery e), .marker e (.delivery row)) := by
      unfold advanceEffect
      simp [hrow, insertKey_free (hdelivery rfl) hfree]
    have hfree' : IndexKey.marker (EffectCall.processOrderCreated event).consumer e ∉
        (s.lock (.delivery e)).locked := by
      simp [EffectState.lock, hlocked]
    have hmarker' : (s.lock (.delivery e)).db.processed
        (EffectCall.processOrderCreated event).consumer e = false := hmarker
    obtain ⟨s', result, hrest⟩ := returns_of_marker (u := u) hmarker' hfree'
    exact ⟨s', result, .step ⟨false, Uuid.repeated 0⟩ rfl hnext hrest⟩

/-- **A call that begins when no key is locked, and whose values fit, returns.** -/
theorem returns_of_start {s : EffectState} (honce : s.db.Once) {r : EffectCall} {e : Uuid}
    (hid : r.HasId u e) (hfits : r.Fits u) (hlocked : s.locked = []) : Returns u r s .start := by
  have hid' : u.ofJson (r.event.get "id") = some e := hid
  by_cases hmarker : s.db.processed r.consumer e = true
  · cases r with
    | processEvent event =>
      have hnext : advanceEffect u s ⟨false, Uuid.repeated 0⟩ (.processEvent event) .start =
          some (s, .returned (.audited false)) := by
        unfold advanceEffect
        simp [hid', hmarker]
      exact ⟨s, _, .step ⟨false, Uuid.repeated 0⟩ rfl hnext (.refl _ _)⟩
    | processOrderCreated event =>
      have hnext : advanceEffect u s ⟨false, Uuid.repeated 0⟩ (.processOrderCreated event)
          .start = some (s, .lookup e) := by
        unfold advanceEffect
        simp [hid', hmarker]
      exact ⟨s, _, .step ⟨false, Uuid.repeated 0⟩ rfl hnext
        (.step ⟨false, Uuid.repeated 0⟩ rfl rfl (.refl _ _))⟩
  · have hnot : s.db.processed r.consumer e = false := Bool.eq_false_iff.mpr hmarker
    have hnext : advanceEffect u s ⟨false, Uuid.repeated 0⟩ r .start = some (s, .effect e) := by
      unfold advanceEffect
      simp [hid', hnot]
    -- without a marker there is no delivery
    have hdelivery : r.consumer = .notification → s.db.indexed (.delivery e) = false := by
      intro hr
      rw [Bool.eq_false_iff]
      intro hindexed
      obtain ⟨id, hmem⟩ := EffectTables.indexed_delivery_iff.mp hindexed
      obtain ⟨d, hd, heq⟩ := List.mem_map.mp hmem
      have hevent : d.eventId = e := congrArg (fun q => q.2.1) heq
      have hin := honce.delivery_iff.mp ⟨d, hd, hevent⟩
      rw [← hr] at hin
      exact hmarker (EffectTables.processed_iff.mpr hin)
    obtain ⟨s', result, hrest⟩ := returns_of_effect hfits hlocked hnot hdelivery
    exact ⟨s', result, .step ⟨false, Uuid.repeated 0⟩ rfl hnext hrest⟩

/-- **A call that begins when all others are at their ends returns**, if its values fit. -/
theorem exists_returned {w : EffectWorld} (hw : (effectSystem u).Reachable w) {j : ℕ}
    {r : EffectCall} {e : Uuid} (hid : r.HasId u e) (hfits : r.Fits u)
    (hlocked : w.shared.locked = []) (hcall : w.calls j = some ⟨r, .start⟩)
    (hothers : ∀ i r pc, i ≠ j → w.calls i = some ⟨r, pc⟩ → pc.finished) :
    ∃ as w' result, ((effectSystem u).restrict calm).exec w as = some w' ∧ w'.Quiet ∧
      w'.calls j = some ⟨r, .returned result⟩ := by
  obtain ⟨s', result, hruns⟩ := returns_of_start (once_of_reachable hw) hid hfits hlocked
  have hcalm : ∀ (s : EffectWorld) (i : ℕ) (c : EffectChoice), (!c.fails) = true →
      calm s (.advance i c) = true := fun _ _ _ hc => hc
  obtain ⟨as, hrun⟩ : ∃ as, ((effectSystem u).restrict calm).exec w as =
      some (w.move j r s' (.returned result)) := Calls.exec_of_runs hcalm hruns rfl hcall
  have hw' := hw.exec (Sys.exec_of_restrict hrun)
  refine ⟨as, _, result, hrun, quiet_of_finished hw' fun i r' pc hi => ?_,
    Calls.move_calls_self _ _ _ _ _⟩
  rcases Calls.move_calls_cases hi with ⟨-, -, rfl⟩ | ⟨hij, hi⟩
  · rfl
  · exact hothers i r' pc hij hi

/-- **The handlers never deadlock.**  In every reachable state, whatever calls are under
way and whatever keys they have locked: as long as one of them has not come to its end,
the next statement of one of them is enabled; and some statements of the calls that are
there, none of which fails on its own account, bring all of them to their ends, with no
key locked. -/
theorem handlers_finish {w : EffectWorld} (hw : (effectSystem u).Reachable w) :
    (∀ i r pc, w.calls i = some ⟨r, pc⟩ → ¬pc.finished →
      ∃ j r' pc', w.calls j = some ⟨r', pc'⟩ ∧ ¬pc'.finished ∧ w.Free u j) ∧
    ∃ as w', ((effectSystem u).restrict calm).exec w as = some w' ∧ w'.Quiet ∧
      ∀ i, w.calls i = none ↔ w'.calls i = none := by
  exact ⟨fun i r pc hcall hpc => exists_free hw hcall hpc, exists_calm_run hw⟩

/-- Call `0` has the key of the delivery, and call `1` waits for it. -/
def waitingDelivery : List EffectAction :=
  [.request 0 (.processOrderCreated sampleEvent), .request 1 (.processOrderCreated sampleEvent),
    .advance 0 (.sample 1), .advance 1 (.sample 2), .advance 0 (.sample 1)]

/-- Two calls of which one waits come to their ends. -/
theorem sample_handlers_finish : ∃ w,
    (effectSystem .sample).exec EffectWorld.sample waitingDelivery = some w ∧
    ((effectSystem .sample).step w (.advance 1 (.sample 2))).isSome = false ∧
    ∃ as w', ((effectSystem .sample).restrict calm).exec w as = some w' ∧ w'.Quiet ∧
      ∀ i, w.calls i = none ↔ w'.calls i = none := by
  have hrun : ((effectSystem .sample).exec EffectWorld.sample waitingDelivery).map
      (fun w => ((effectSystem .sample).step w (.advance 1 (.sample 2))).isSome) =
        some false := by decide
  obtain ⟨w, hw, hwaits⟩ := Option.map_eq_some_iff.mp hrun
  exact ⟨w, hw, hwaits, (handlers_finish (EffectWorld.sample_reachable.exec hw)).2⟩

end ScaleForge
