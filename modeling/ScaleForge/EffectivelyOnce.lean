import ScaleForge.Effects

/-!
# Effectively-once consumers

Two deliveries of one event may both find no marker and both insert their
effect.  The unique index on the marker lets one of them through: a transaction
that comes to its commit holds the key of its marker, no other transaction holds
it, and no committed row has it.  So every commit adds one marker that was not
there and one effect, and markers and effects stay in step.

## Main definitions

* `EffectPc.Ok` — what a call knows at each statement.
* `EffectTables.Once` — markers are unique, and each has its effect.

## Main results

* `locks_exclusive`, `locked_not_indexed` — the locks of the unique indexes.
* `once_of_reachable` — markers and effects are in step.
* `effectively_once` — the properties of the two handlers over every
  interleaving.
-/

namespace ScaleForge

open Table

variable {u : UuidSyntax}

/-! ### Locks -/

/-- **No two calls hold the same key**, and every key held is locked. -/
theorem locks_exclusive {w : EffectWorld} (hw : (effectSystem u).Reachable w) :
    (∀ i r pc k, w.calls i = some ⟨r, pc⟩ → k ∈ pc.held r → k ∈ w.shared.locked) ∧
      ∀ i j r pc r' pc' k, w.calls i = some ⟨r, pc⟩ → w.calls j = some ⟨r', pc'⟩ →
        k ∈ pc.held r → k ∈ pc'.held r' → i = j := by
  refine Calls.exclusive (fun s k => k ∈ s.locked) (fun r pc k => k ∈ pc.held r) ?_ ?_ ?_ ?_ ?_ hw
  · intro r k h
    cases h
  · intro s e s' k h hk
    cases e <;> cases h <;> exact hk
  · intro s c r pc s' pc' k h hk hnot
    have hstep := effectStep_of_machine h
    cases hstep with
    | delivered hfor hindex hfree =>
      rw [List.mem_singleton.mp hk]
      exact hfree
    | marking hindex hfree =>
      rcases List.mem_cons.mp hk with rfl | hk
      · exact hfree
      · exact absurd hk hnot
    | _ => cases hk
  · intro s c r pc s' pc' k h hk hold
    have hstep := effectStep_of_machine h
    cases hstep with
    | delivered hfor hindex hfree =>
      rw [List.mem_singleton.mp hk]
      exact List.mem_cons_self
    | marking hindex hfree =>
      rcases List.mem_cons.mp hk with rfl | hk
      · exact List.mem_cons_self
      · exact List.mem_cons_of_mem _ (hold hk)
    | _ => cases hk
  · intro s c r pc s' pc' k h hk hnot
    have hstep := effectStep_of_machine h
    cases hstep with
    | throws => exact List.mem_filter.mpr ⟨hk, decide_eq_true hnot⟩
    | delivered => exact List.mem_cons_of_mem _ hk
    | marking => exact List.mem_cons_of_mem _ hk
    | committed => exact List.mem_filter.mpr ⟨hk, decide_eq_true hnot⟩
    | _ => exact hk

/-! ### What a statement does to the tables -/

/-- The columns of a delivery that are never updated. -/
def NotificationDelivery.identity (d : NotificationDelivery) : Uuid × Uuid × String :=
  (d.id, d.eventId, d.channel)

namespace EffectTables

theorem processed_iff {db : EffectTables} {consumer : ConsumerName} {e : Uuid} :
    db.processed consumer e = true ↔ ⟨consumer, e⟩ ∈ db.processedMessages := by
  unfold processed
  simp only [List.any_eq_true, Bool.and_eq_true, decide_eq_true_eq]
  constructor
  · rintro ⟨m, hm, rfl, rfl⟩
    exact hm
  · intro h
    exact ⟨_, h, rfl, rfl⟩

/-- A delivery for the event is in the table. -/
theorem indexed_delivery_iff {db : EffectTables} {e : Uuid} :
    db.indexed (.delivery e) = true ↔
      ∃ id, (id, e, "IN_APP") ∈ db.notificationDeliveries.map NotificationDelivery.identity := by
  simp only [indexed, findDelivery, List.find?_isSome, Bool.and_eq_true, decide_eq_true_eq,
    List.mem_map, NotificationDelivery.identity, Prod.mk.injEq]
  constructor
  · rintro ⟨d, hd, he, hc⟩
    exact ⟨d.id, d, hd, rfl, he, hc⟩
  · rintro ⟨id, d, hd, -, he, hc⟩
    exact ⟨d, hd, he, hc⟩

/-- Rows are only added: markers stay, and deliveries keep their identity. -/
structure Extends (db db' : EffectTables) : Prop where
  markers : db.processedMessages ⊆ db'.processedMessages
  deliveries : db.notificationDeliveries.map NotificationDelivery.identity ⊆
    db'.notificationDeliveries.map NotificationDelivery.identity

theorem Extends.refl (db : EffectTables) : db.Extends db :=
  ⟨List.Subset.refl _, List.Subset.refl _⟩

theorem extends_commit (db : EffectTables) (consumer : ConsumerName) (e : Uuid)
    (effect : Effect) : db.Extends (db.commit consumer e effect) := by
  cases effect with
  | audit entry => exact ⟨List.subset_append_left _ _, List.Subset.refl _⟩
  | delivery row =>
    refine ⟨List.subset_append_left _ _, ?_⟩
    simp only [commit, List.map_append]
    exact List.subset_append_left _ _

end EffectTables

/-- What the environment leaves alone: the markers, the identities of the
deliveries and the locks.  The audit rows it adds are for no event. -/
theorem environment_frame {s s' : EffectState} {e : EffectEnvironment}
    (h : effectEnvironment s e = some s') :
    s'.locked = s.locked ∧ s'.db.processedMessages = s.db.processedMessages ∧
      s'.db.notificationDeliveries.map NotificationDelivery.identity =
        s.db.notificationDeliveries.map NotificationDelivery.identity ∧
      ∀ id, s'.db.auditLogs.countP (fun a => a.event = some id) =
        s.db.auditLogs.countP (fun a => a.event = some id) := by
  cases e with
  | tick ms =>
    cases h
    exact ⟨rfl, rfl, rfl, fun _ => rfl⟩
  | auditRow row =>
    cases h
    refine ⟨rfl, rfl, rfl, fun id => ?_⟩
    simp
  | deliveryStatus id status attempts lastError =>
    cases h
    exact ⟨rfl, rfl, map_update _ _ fun _ _ _ => rfl, fun _ => rfl⟩

/-- A statement of a call leaves the tables alone, or commits. -/
theorem EffectStep.db_cases {s s' : EffectState} {r : EffectCall} {pc pc' : EffectPc}
    (h : EffectStep u s r pc s' pc') :
    s'.db = s.db ∨ ∃ e effect, pc = .commit e effect ∧ pc' = .returned effect.result ∧
      s'.db = s.db.commit r.consumer e effect := by
  cases h with
  | committed e effect => exact Or.inr ⟨e, effect, rfl, rfl, rfl⟩
  | _ => exact Or.inl rfl

/-- **Rows are only added.** -/
theorem extends_of_step {w w' : EffectWorld} {a : EffectAction}
    (h : Calls.step (effectMachine u) effectEnvironment w a = some w') :
    w.shared.db.Extends w'.shared.db := by
  rcases Calls.shared_of_step h with ⟨e, he⟩ | hsame | ⟨c, r, pc, pc', hadv⟩
  · obtain ⟨-, hmarkers, hdeliveries, -⟩ := environment_frame he
    refine ⟨?_, ?_⟩
    · rw [hmarkers]
      exact List.Subset.refl _
    · rw [hdeliveries]
      exact List.Subset.refl _
  · rw [hsame]
    exact .refl _
  · rcases (effectStep_of_machine hadv).db_cases with hdb | ⟨e, effect, -, -, hdb⟩
    · rw [hdb]
      exact .refl _
    · rw [hdb]
      exact w.shared.db.extends_commit r.consumer e effect

/-! ### What a call knows -/

/-- The event of a call has the identifier `e`. -/
def EffectCall.HasId (u : UuidSyntax) (r : EffectCall) (e : Uuid) : Prop :=
  u.ofJson (r.event.get "id") = some e

/-- What a call knows at each statement. -/
def EffectPc.Ok (u : UuidSyntax) (db : EffectTables) (r : EffectCall) : EffectPc → Prop
  | lookup e => r.HasId u e ∧ r.consumer = .notification ∧ ⟨.notification, e⟩ ∈ db.processedMessages
  | effect e => r.HasId u e
  | marker e x => r.HasId u e ∧ x.For r e
  | commit e x => r.HasId u e ∧ x.For r e
  | _ => True

theorem EffectPc.Ok.mono {db db' : EffectTables} (h : db.Extends db') {r : EffectCall}
    {pc : EffectPc} (hok : pc.Ok u db r) : pc.Ok u db' r := by
  cases pc with
  | lookup e => exact ⟨hok.1, hok.2.1, h.markers hok.2.2⟩
  | _ => exact hok

theorem EffectStep.ok {s s' : EffectState} {r : EffectCall} {pc pc' : EffectPc}
    (h : EffectStep u s r pc s' pc') (hok : pc.Ok u s.db r) : pc'.Ok u s'.db r := by
  cases h with
  | marked hid hr hmarker => exact ⟨hid, hr, EffectTables.processed_iff.mp hmarker⟩
  | unmarked hid => exact hid
  | audited hfor => exact ⟨hok, hfor⟩
  | delivered hfor hindex hfree => exact ⟨hok, hfor⟩
  | marking hindex hfree => exact hok
  | _ => trivial

theorem effect_ok_of_reachable {w : EffectWorld} (hw : (effectSystem u).Reachable w) {i : ℕ}
    {r : EffectCall} {pc : EffectPc} (hcall : w.calls i = some ⟨r, pc⟩) :
    pc.Ok u w.shared.db r := by
  refine Calls.call_invariant (J := fun s r pc => EffectPc.Ok u s.db r pc) ?_ ?_ ?_ hw hcall
  · intro w r _
    trivial
  · intro w c r pc d pc' _ hok hadv
    exact (effectStep_of_machine hadv).ok hok
  · intro w a w' r pc _ hstep hok
    exact hok.mono (extends_of_step hstep)

/-! ### Committed keys and locked keys -/

/-- A key is committed by the transactions that hold it. -/
theorem indexed_commit {db : EffectTables} {r : EffectCall} {e : Uuid} {effect : Effect}
    (hfor : effect.For r e) {k : IndexKey}
    (hk : (db.commit r.consumer e effect).indexed k = true) :
    db.indexed k = true ∨ k ∈ (EffectPc.commit e effect).held r := by
  cases k with
  | marker consumer e' =>
    have hmem : ⟨consumer, e'⟩ ∈ db.processedMessages ++ [⟨r.consumer, e⟩] := by
      have h := EffectTables.processed_iff.mp hk
      cases effect <;> exact h
    rcases List.mem_append.mp hmem with hold | hnew
    · exact Or.inl (EffectTables.processed_iff.mpr hold)
    · cases List.mem_singleton.mp hnew
      exact Or.inr List.mem_cons_self
  | delivery e' =>
    obtain ⟨id, hmem⟩ := EffectTables.indexed_delivery_iff.mp hk
    cases effect with
    | audit entry => exact Or.inl (EffectTables.indexed_delivery_iff.mpr ⟨id, hmem⟩)
    | delivery row =>
      simp only [EffectTables.commit, List.map_append, List.mem_append, List.map_cons,
        List.map_nil, List.mem_singleton] at hmem
      rcases hmem with hold | hnew
      · exact Or.inl (EffectTables.indexed_delivery_iff.mpr ⟨id, hold⟩)
      · right
        have he : e' = e := by
          have h := congrArg (fun q => q.2.1) hnew
          exact h.trans hfor.2.1
        rw [he]
        exact List.mem_cons_of_mem _ List.mem_cons_self

/-- **A locked key is not committed.** -/
theorem locked_not_indexed {w : EffectWorld} (hw : (effectSystem u).Reachable w) :
    ∀ k ∈ w.shared.locked, w.shared.db.indexed k = false := by
  refine hw.invariant (I := fun w => ∀ k ∈ w.shared.locked, w.shared.db.indexed k = false) ?_ ?_
  · rintro w ⟨⟨-, -, -, hlocked⟩, -⟩ k hk
    rw [hlocked] at hk
    cases hk
  intro w a w' hw ih hstep k hk
  rcases Calls.step_cases hstep with ⟨e, d, -, henv, rfl⟩ | ⟨i, r, -, -, rfl⟩ |
    ⟨i, c, r, pc, d, pc', -, hcall, hadv, rfl⟩
  · obtain ⟨hlocked, hmarkers, hdeliveries, -⟩ := environment_frame henv
    have hk := ih k (hlocked ▸ hk)
    rw [Bool.eq_false_iff] at hk ⊢
    intro hindexed
    apply hk
    cases k with
    | marker consumer e =>
      rw [EffectTables.indexed, EffectTables.processed_iff] at hindexed ⊢
      exact hmarkers ▸ hindexed
    | delivery e =>
      rw [EffectTables.indexed_delivery_iff] at hindexed ⊢
      exact hdeliveries ▸ hindexed
  · exact ih k hk
  · have hok := effect_ok_of_reachable hw hcall
    have hmoved := effectStep_of_machine hadv
    cases hmoved with
    | throws => exact ih k (List.mem_of_mem_filter hk)
    | delivered hfor hindex hfree =>
      rcases List.mem_cons.mp hk with rfl | hk
      · exact hindex
      · exact ih k hk
    | marking hindex hfree =>
      rcases List.mem_cons.mp hk with rfl | hk
      · exact hindex
      · exact ih k hk
    | committed e effect =>
      obtain ⟨hk, hnot⟩ := List.mem_filter.mp hk
      rw [Bool.eq_false_iff]
      intro hindexed
      rcases indexed_commit hok.2 hindexed with hold | hheld
      · rw [ih k hk] at hold
        cases hold
      · exact absurd hheld (of_decide_eq_true hnot)
    | _ => exact ih k hk

/-! ### Markers and effects -/

/-- Markers are unique, each has its one effect, and there are no others. -/
structure EffectTables.Once (db : EffectTables) : Prop where
  markers : db.processedMessages.Nodup
  audits : ∀ e, db.auditLogs.countP (fun a => a.event = some e) =
    db.processedMessages.count ⟨.audit, e⟩
  deliveries : ∀ e, db.notificationDeliveries.countP (fun d => d.eventId = e) =
    db.processedMessages.count ⟨.notification, e⟩
  channels : ∀ d ∈ db.notificationDeliveries, d.channel = "IN_APP"

namespace EffectTables

/-- What `Once` says is read off the markers, the identities of the deliveries
and the events of the audit rows. -/
theorem Once.congr {db db' : EffectTables} (h : db.Once)
    (hmarkers : db'.processedMessages = db.processedMessages)
    (hdeliveries : db'.notificationDeliveries.map NotificationDelivery.identity =
      db.notificationDeliveries.map NotificationDelivery.identity)
    (haudits : ∀ e, db'.auditLogs.countP (fun a => a.event = some e) =
      db.auditLogs.countP (fun a => a.event = some e)) : db'.Once where
  markers := hmarkers ▸ h.markers
  audits e := by rw [haudits, hmarkers, h.audits]
  deliveries e := by
    have hcount : ∀ ds : List NotificationDelivery, ds.countP (fun d => d.eventId = e) =
        (ds.map NotificationDelivery.identity).countP (fun q => q.2.1 = e) := by
      intro ds
      rw [List.countP_map]
      rfl
    rw [hcount, hdeliveries, ← hcount, hmarkers, h.deliveries]
  channels d hd := by
    have hmem : d.identity ∈ db.notificationDeliveries.map NotificationDelivery.identity :=
      hdeliveries ▸ List.mem_map_of_mem hd
    obtain ⟨d₀, hd₀, heq⟩ := List.mem_map.mp hmem
    have hchannel : d₀.channel = d.channel := congrArg (fun q => q.2.2) heq
    rw [← hchannel]
    exact h.channels d₀ hd₀

/-- **A commit keeps markers and effects in step**, when its marker is new. -/
theorem Once.commit {db : EffectTables} (h : db.Once) {r : EffectCall} {e : Uuid}
    {effect : Effect} (hfor : effect.For r e)
    (hnew : ⟨r.consumer, e⟩ ∉ db.processedMessages) :
    (db.commit r.consumer e effect).Once := by
  have hmarkers : (db.processedMessages ++ [(⟨r.consumer, e⟩ : ProcessedMessage)]).Nodup := by
    rw [List.nodup_append]
    refine ⟨h.markers, List.nodup_singleton _, ?_⟩
    rintro m hm m' hm' rfl
    rw [List.mem_singleton.mp hm'] at hm
    exact hnew hm
  cases effect with
  | audit entry =>
    obtain ⟨hconsumer, hevent⟩ := hfor
    rw [hconsumer] at hmarkers ⊢
    refine ⟨hmarkers, fun e' => ?_, fun e' => ?_, h.channels⟩
    · simp only [EffectTables.commit, List.countP_append, List.count_append, h.audits e']
      by_cases he : e = e'
      · simp [hevent, he]
      · simp [hevent, he]
    · simp only [EffectTables.commit, List.count_append, h.deliveries e']
      simp
  | delivery row =>
    obtain ⟨hconsumer, hevent, hchannel⟩ := hfor
    rw [hconsumer] at hmarkers ⊢
    refine ⟨hmarkers, fun e' => ?_, fun e' => ?_, fun d hd => ?_⟩
    · simp only [EffectTables.commit, List.count_append, h.audits e']
      simp
    · simp only [EffectTables.commit, List.countP_append, List.count_append, h.deliveries e']
      by_cases he : e = e'
      · simp [hevent, he]
      · simp [hevent, he]
    · rcases List.mem_append.mp hd with hold | hnew
      · exact h.channels d hold
      · rw [List.mem_singleton.mp hnew, hchannel]

variable {db : EffectTables} {e : Uuid}

theorem Once.count_le_one (h : db.Once) (m : ProcessedMessage) : db.processedMessages.count m ≤ 1 :=
  List.nodup_iff_count_le_one.mp h.markers m

/-- A delivery exists exactly when its marker does. -/
theorem Once.delivery_iff (h : db.Once) :
    (∃ d ∈ db.notificationDeliveries, d.eventId = e) ↔
      ⟨.notification, e⟩ ∈ db.processedMessages := by
  rw [← List.count_pos_iff, ← h.deliveries e, List.countP_pos_iff]
  simp

/-- There is one delivery for an event. -/
theorem Once.delivery_unique (h : db.Once) {d d' : NotificationDelivery}
    (hd : d ∈ db.notificationDeliveries) (hd' : d' ∈ db.notificationDeliveries)
    (he : d.eventId = e) (he' : d'.eventId = e) : d = d' := by
  have hcount : (db.notificationDeliveries.filter fun d => d.eventId = e).length ≤ 1 := by
    rw [← List.countP_eq_length_filter, h.deliveries e]
    exact h.count_le_one _
  have hmem : ∀ x ∈ db.notificationDeliveries, x.eventId = e →
      x ∈ db.notificationDeliveries.filter fun d => d.eventId = e := by
    intro x hx hxe
    exact List.mem_filter.mpr ⟨hx, decide_eq_true hxe⟩
  have hin := hmem d hd he
  have hin' := hmem d' hd' he'
  rcases hfilter : db.notificationDeliveries.filter (fun d => d.eventId = e) with _ | ⟨x, _ | _⟩
  · rw [hfilter] at hin
    cases hin
  · rw [hfilter, List.mem_singleton] at hin hin'
    rw [hin, hin']
  · rw [hfilter] at hcount
    simp at hcount

/-- Where there is a marker, `findUnique` finds the delivery. -/
theorem Once.findDelivery (h : db.Once) (hmarker : ⟨.notification, e⟩ ∈ db.processedMessages) :
    ∃ d ∈ db.notificationDeliveries, d.eventId = e ∧ db.findDelivery e = some d := by
  obtain ⟨d, hd, he⟩ := h.delivery_iff.mpr hmarker
  cases hfind : db.findDelivery e with
  | none =>
    have hnot := List.find?_eq_none.mp hfind d hd
    simp [he, h.channels d hd] at hnot
  | some d' =>
    have hd' : d' ∈ db.notificationDeliveries := List.mem_of_find?_eq_some hfind
    have he' := List.find?_some hfind
    simp only [Bool.and_eq_true, decide_eq_true_eq] at he'
    exact ⟨d', hd', he'.1, rfl⟩

end EffectTables

/-- A call that comes to its commit commits a marker that is not there. -/
theorem marker_new {w : EffectWorld} (hw : (effectSystem u).Reachable w) {i : ℕ} {r : EffectCall}
    {e : Uuid} {effect : Effect} (hcall : w.calls i = some ⟨r, .commit e effect⟩) :
    ⟨r.consumer, e⟩ ∉ w.shared.db.processedMessages := by
  intro hmem
  have hlocked := (locks_exclusive hw).1 i r _ (.marker r.consumer e) hcall List.mem_cons_self
  have hnot := locked_not_indexed hw _ hlocked
  rw [EffectTables.indexed, EffectTables.processed_iff.mpr hmem] at hnot
  cases hnot

/-- **Markers and effects are in step** in every reachable state. -/
theorem once_of_reachable {w : EffectWorld} (hw : (effectSystem u).Reachable w) :
    w.shared.db.Once := by
  refine hw.invariant (I := fun w => w.shared.db.Once) ?_ ?_
  · rintro w ⟨⟨hmarkers, haudits, hdeliveries, -⟩, -⟩
    refine ⟨?_, fun e => ?_, fun e => ?_, ?_⟩
    · rw [hmarkers]
      exact List.nodup_nil
    · rw [hmarkers, List.count_nil, List.countP_eq_zero]
      intro a ha
      simp [haudits a ha]
    · rw [hmarkers, hdeliveries]
      rfl
    · rw [hdeliveries]
      intro d hd
      cases hd
  intro w a w' hw ih hstep
  rcases Calls.step_cases hstep with ⟨e, d, -, henv, rfl⟩ | ⟨i, r, -, -, rfl⟩ |
    ⟨i, c, r, pc, d, pc', -, hcall, hadv, rfl⟩
  · obtain ⟨-, hmarkers, hdeliveries, haudits⟩ := environment_frame henv
    exact ih.congr hmarkers hdeliveries haudits
  · exact ih
  · rcases (effectStep_of_machine hadv).db_cases with hdb | ⟨e, effect, rfl, -, hdb⟩
    · rw [Calls.State.move, hdb]
      exact ih
    · rw [Calls.State.move, hdb]
      exact ih.commit (effect_ok_of_reachable hw hcall).2 (marker_new hw hcall)

/-! ### What the calls return -/

/-- What a result says about the tables: the effect is committed, and
`processOrderCreated` answers with the delivery. -/
def EffectResult.Ok (u : UuidSyntax) (db : EffectTables) (r : EffectCall) : EffectResult → Prop
  | audited _ => r.consumer = .audit ∧ ∃ e, r.HasId u e ∧ ⟨.audit, e⟩ ∈ db.processedMessages
  | delivery id => r.consumer = .notification ∧ ∃ e id', r.HasId u e ∧
      ⟨.notification, e⟩ ∈ db.processedMessages ∧ id = some id' ∧
      (id', e, "IN_APP") ∈ db.notificationDeliveries.map NotificationDelivery.identity

theorem EffectResult.Ok.mono {db db' : EffectTables} (h : db.Extends db') {r : EffectCall}
    {result : EffectResult} (hok : result.Ok u db r) : result.Ok u db' r := by
  cases result with
  | audited fresh =>
    obtain ⟨hr, e, hid, hmarker⟩ := hok
    exact ⟨hr, e, hid, h.markers hmarker⟩
  | delivery id =>
    obtain ⟨hr, e, id', hid, hmarker, heq, hmem⟩ := hok
    exact ⟨hr, e, id', hid, h.markers hmarker, heq, h.deliveries hmem⟩

theorem Effect.result_ok {db : EffectTables} {r : EffectCall} {e : Uuid} {effect : Effect}
    (hid : r.HasId u e) (hfor : effect.For r e) :
    effect.result.Ok u (db.commit r.consumer e effect) r := by
  cases effect with
  | audit entry =>
    refine ⟨hfor.1, e, hid, ?_⟩
    rw [hfor.1]
    exact List.mem_append_right _ List.mem_cons_self
  | delivery row =>
    refine ⟨hfor.1, e, row.id, hid, ?_, rfl, ?_⟩
    · rw [hfor.1]
      exact List.mem_append_right _ List.mem_cons_self
    · refine List.mem_map.mpr ⟨row, List.mem_append_right _ List.mem_cons_self, ?_⟩
      rw [NotificationDelivery.identity, hfor.2.1, hfor.2.2]

theorem EffectStep.result_ok {s s' : EffectState} {r : EffectCall} {pc : EffectPc}
    {result : EffectResult} (h : EffectStep u s r pc s' (.returned result))
    (hok : pc.Ok u s.db r) (honce : s.db.Once) : result.Ok u s'.db r := by
  cases h with
  | repeated hid hr hmarker => exact ⟨hr, _, hid, EffectTables.processed_iff.mp hmarker⟩
  | found e =>
    obtain ⟨hid, hr, hmarker⟩ := hok
    obtain ⟨d, hd, he, hfind⟩ := honce.findDelivery hmarker
    refine ⟨hr, e, d.id, hid, hmarker, ?_, ?_⟩
    · rw [hfind]
      rfl
    · refine List.mem_map.mpr ⟨d, hd, ?_⟩
      rw [NotificationDelivery.identity, he, honce.channels d hd]
  | committed e effect => exact Effect.result_ok hok.1 hok.2

/-- **A call that has returned has its effect committed.** -/
theorem result_ok_of_reachable {w : EffectWorld} (hw : (effectSystem u).Reachable w) {i : ℕ}
    {r : EffectCall} {result : EffectResult} (hcall : w.calls i = some ⟨r, .returned result⟩) :
    result.Ok u w.shared.db r := by
  refine hw.invariant (I := fun w => ∀ i r result,
    w.calls i = some ⟨r, .returned result⟩ → result.Ok u w.shared.db r) ?_ ?_ i r result hcall
  · intro w h0 i r result hcall
    rw [h0.2 i] at hcall
    cases hcall
  · intro w a w' hw ih hstep i r result hcall
    rcases Calls.calls_of_step hstep hcall with hsame | ⟨-, hstart⟩ | ⟨c, pc₀, -, hold, hadv⟩
    · exact (ih i r result hsame).mono (extends_of_step hstep)
    · cases hstart
    · exact (effectStep_of_machine hadv).result_ok (effect_ok_of_reachable hw hold)
        (once_of_reachable hw)

/-! ### Calls that throw -/

/-- A statement that changed the tables has returned, and so never throws. -/
theorem unchanged_of_thrown {w w₁ w₂ : EffectWorld} {i : ℕ} {c : EffectChoice}
    {as : List EffectAction} {r : EffectCall}
    (hw : (effectSystem u).Reachable w) (hstep : (effectSystem u).step w (.advance i c) = some w₁)
    (has : (effectSystem u).exec w₁ as = some w₂) (hthrown : w₂.calls i = some ⟨r, .thrown⟩) :
    w₁.shared.db = w.shared.db := by
  have hmove : Calls.step (effectMachine u) effectEnvironment w (.advance i c) = some w₁ := hstep
  rcases Calls.step_cases hmove with ⟨e, d, ha, -, -⟩ | ⟨j, r', ha, -, -⟩ |
    ⟨j, c', r', pc, d, pc', ha, hcall, hadv, rfl⟩
  · cases ha
  · cases ha
  · cases ha
    rcases (effectStep_of_machine hadv).db_cases with hdb | ⟨e, effect, -, rfl, -⟩
    · exact hdb
    · -- a returned call stays returned
      exfalso
      have hreturned := Transition.Sys.exec_stable
        (I := fun w : EffectWorld => w.calls i = some ⟨r', .returned effect.result⟩)
        (fun w a w' _ hI hst =>
          Calls.final_stable hst hI fun d c => advanceEffect_returned u d c r' effect.result)
        (hw.step hstep) (Calls.move_calls_self _ _ _ _ _) has
      rw [hreturned] at hthrown
      cases hthrown

/-! ### The properties of the handlers -/

/-- **Effectively-once consumers.**  In every state that any number of calls can
reach, whatever their interleaving and whichever of their statements fail: an
event has as many audit rows as audit markers, and at most one; it has a
delivery exactly when it has a notification marker; no statement of a call that
throws has changed the tables; and every call of `processOrderCreated` that has
returned, returned the one delivery of its event. -/
theorem effectively_once {w : EffectWorld} (hw : (effectSystem u).Reachable w) :
    (∀ e, w.shared.db.auditLogs.countP (fun a => a.event = some e) =
        w.shared.db.processedMessages.count ⟨.audit, e⟩ ∧
      w.shared.db.processedMessages.count ⟨.audit, e⟩ ≤ 1) ∧
    (∀ e, (∃ d ∈ w.shared.db.notificationDeliveries, d.eventId = e) ↔
      ⟨.notification, e⟩ ∈ w.shared.db.processedMessages) ∧
    (∀ i c w₁ as w₂ r, (effectSystem u).step w (.advance i c) = some w₁ →
      (effectSystem u).exec w₁ as = some w₂ → w₂.calls i = some ⟨r, .thrown⟩ →
        w₁.shared.db = w.shared.db) ∧
    ∀ i event result, w.calls i = some ⟨.processOrderCreated event, .returned result⟩ →
      ∃ e d, u.ofJson (event.get "id") = some e ∧ d ∈ w.shared.db.notificationDeliveries ∧
        d.eventId = e ∧ (∀ d' ∈ w.shared.db.notificationDeliveries, d'.eventId = e → d' = d) ∧
        result = .delivery (some d.id) := by
  have honce := once_of_reachable hw
  refine ⟨fun e => ⟨honce.audits e, honce.count_le_one _⟩, fun e => honce.delivery_iff,
    fun i c w₁ as w₂ r hstep has hthrown => unchanged_of_thrown hw hstep has hthrown, ?_⟩
  intro i event result hcall
  have hok := result_ok_of_reachable hw hcall
  cases result with
  | audited fresh => cases hok.1
  | delivery id =>
    obtain ⟨-, e, id', hid, -, rfl, hmem⟩ := hok
    obtain ⟨d, hd, heq⟩ := List.mem_map.mp hmem
    simp only [NotificationDelivery.identity, Prod.mk.injEq] at heq
    obtain ⟨rfl, he, -⟩ := heq
    exact ⟨e, d, hid, hd, he, fun d' hd' he' => honce.delivery_unique hd' hd he' he, rfl⟩

/-- The texts of the identifiers `7` and `8`, and no others. -/
def UuidSyntax.sample : UuidSyntax where
  parse s := [Uuid.repeated 7, Uuid.repeated 8].find? fun id => id.text.toString = s

/-- The event `7` of the user `8`. -/
def sampleEvent : Json :=
  .obj [("id", .str (Uuid.repeated 7).text.toString), ("type", .str "OrderCreated"),
    ("aggregateType", .str "Order"), ("aggregateId", .str "order"),
    ("payload", .obj [("userId", .str (Uuid.repeated 8).text.toString)])]

/-- A statement that succeeds and draws its identifier from `n`. -/
def EffectChoice.sample (n : ℕ) : EffectChoice := ⟨false, Uuid.repeated n⟩

/-- No rows and no calls. -/
def EffectWorld.sample : EffectWorld := ⟨⟨0, ⟨[], [], []⟩, []⟩, fun _ => none⟩

/-- Calls `0` and `1` both find no marker; call `0` gets the key, and call `1`
fails on it.  Call `2` comes afterwards. -/
def racingDeliveries : List EffectAction :=
  [.request 0 (.processOrderCreated sampleEvent), .request 1 (.processOrderCreated sampleEvent),
    .advance 0 (.sample 1), .advance 1 (.sample 2), .advance 0 (.sample 1),
    .advance 0 (.sample 1), .advance 0 (.sample 1), .advance 1 (.sample 2),
    .request 2 (.processOrderCreated sampleEvent), .advance 2 (.sample 3),
    .advance 2 (.sample 3)]

theorem EffectWorld.sample_reachable : (effectSystem .sample).Reachable EffectWorld.sample := by
  refine .init ⟨⟨rfl, ?_, rfl, rfl⟩, fun _ => rfl⟩
  intro a ha
  cases ha

/-- What a call of `processOrderCreated` has returned. -/
def EffectWorld.deliveryId (w : EffectWorld) (i : ℕ) : Option Uuid :=
  match w.calls i with
  | some ⟨.processOrderCreated _, .returned (.delivery id)⟩ => id
  | _ => none

/-- The racing calls leave one delivery, and the later call returns it. -/
theorem sample_deliveries_once : ∃ w event result,
    (effectSystem .sample).exec EffectWorld.sample racingDeliveries = some w ∧
    w.calls 2 = some ⟨.processOrderCreated event, .returned result⟩ ∧
    ∃ e d, UuidSyntax.sample.ofJson (event.get "id") = some e ∧
      d ∈ w.shared.db.notificationDeliveries ∧ d.eventId = e ∧
      (∀ d' ∈ w.shared.db.notificationDeliveries, d'.eventId = e → d' = d) ∧
      result = .delivery (some d.id) := by
  have hrun : ((effectSystem .sample).exec EffectWorld.sample racingDeliveries).map
      (fun w => EffectWorld.deliveryId w 2) = some (some (Uuid.repeated 1)) := by decide
  obtain ⟨w, hw, hid⟩ := Option.map_eq_some_iff.mp hrun
  unfold EffectWorld.deliveryId at hid
  split at hid
  · next event id hcall =>
    obtain ⟨-, -, -, hreturned⟩ := effectively_once (EffectWorld.sample_reachable.exec hw)
    exact ⟨w, event, _, hw, hcall, hreturned 2 event _ hcall⟩
  · cases hid

end ScaleForge
