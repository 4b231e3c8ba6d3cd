import ScaleForge.Catalog

/-!
# What a catalog list may miss

A call of `create` deletes the cached catalog before it returns, so a list that begins
afterwards finds a newer one or reads the tables.  A newer one need not have been read
later: a `listActive` that has read the tables before the insert may write what it has
read after the deletion, and until that entry expires it is served.

## Main definitions

* `Complete` — a list that was read as an operation has every restaurant from before.
* `CatalogState.Cached`, `CatalogPc.Knows` — the invariants of the state and of a call.

## Main results

* `in_listActive` — the catalog that is read has every inserted restaurant.
* `cached_of_reachable`, `knows_of_reachable` — the invariants.
* `read_after_write` — **a list that begins after a `create` has returned has its
  restaurant, or is a cached one that was read before the insert, written after the
  invalidation had begun, and is less than sixty seconds old.**
-/

namespace ScaleForge

open Keyspace Transition

/-! ### The tables -/

/-- The restaurant is in the tables, with its menu and no other items. -/
structure CatalogTables.Has (db : CatalogTables) (row : CatalogRow) : Prop where
  restaurant : row.restaurant ∈ db.restaurants
  active : row.restaurant.active = true
  menuItems : row.menuItems = db.menuItems.filter fun m => m.restaurantId = row.restaurant.id
  available : ∀ m ∈ row.menuItems, m.available = true

/-- **The catalog has every restaurant that is in the tables.** -/
theorem in_listActive {t : TextRules} {db : CatalogTables} {row : CatalogRow} (h : db.Has row) :
    row.In (RestaurantsRepository.listActive t db) := by
  refine ⟨⟨row.restaurant, RestaurantsRepository.menuOf t db row.restaurant⟩, ?_, rfl, ?_⟩
  · refine List.mem_map_of_mem ?_
    rw [List.mem_insertionSort]
    exact List.mem_filter.mpr ⟨h.restaurant, h.active⟩
  · refine (List.perm_insertionSort _ _).trans (List.Perm.of_eq ?_)
    rw [h.menuItems]
    refine List.filter_congr fun m hm => ?_
    by_cases hid : m.restaurantId = row.restaurant.id
    · have havailable := h.available m (by
        rw [h.menuItems]
        exact List.mem_filter.mpr ⟨hm, decide_eq_true hid⟩)
      simp [hid, havailable]
    · simp [hid]

section Insert

variable {db : CatalogTables} {row : CatalogRow}

/-- A restaurant stays in the tables when another is inserted. -/
theorem CatalogTables.Has.insert (h : db.Has row) {row' : CatalogRow}
    (hne : row'.restaurant.id ≠ row.restaurant.id)
    (hmenu : ∀ m ∈ row'.menuItems, m.restaurantId = row'.restaurant.id) :
    (db.insert row').Has row where
  restaurant := List.mem_append_left _ h.restaurant
  active := h.active
  menuItems := by
    have hnone : row'.menuItems.filter (fun m => m.restaurantId = row.restaurant.id) = [] := by
      refine List.filter_eq_nil_iff.mpr fun m hm => ?_
      rw [decide_eq_true_eq, hmenu m hm]
      exact hne
    show row.menuItems = (db.menuItems ++ row'.menuItems).filter _
    rw [List.filter_append, hnone, List.append_nil]
    exact h.menuItems
  available := h.available

/-- The inserted restaurant is in the tables, with its menu alone: no item of another is
of a restaurant that was not there. -/
theorem CatalogTables.has_insert (hfresh : ∀ r ∈ db.restaurants, r.id ≠ row.restaurant.id)
    (hmenus : ∀ m ∈ db.menuItems, ∃ r ∈ db.restaurants, r.id = m.restaurantId)
    (hactive : row.restaurant.active = true)
    (hitems : ∀ m ∈ row.menuItems, m.restaurantId = row.restaurant.id ∧ m.available = true) :
    (db.insert row).Has row where
  restaurant := List.mem_append_right _ (List.mem_singleton.mpr rfl)
  active := hactive
  menuItems := by
    have hnone : db.menuItems.filter (fun m => m.restaurantId = row.restaurant.id) = [] := by
      refine List.filter_eq_nil_iff.mpr fun m hm => ?_
      obtain ⟨r, hr, hid⟩ := hmenus m hm
      rw [decide_eq_true_eq, ← hid]
      exact hfresh r hr
    have hall : row.menuItems.filter (fun m => m.restaurantId = row.restaurant.id) =
        row.menuItems :=
      List.filter_eq_self.mpr fun m hm => decide_eq_true (hitems m hm).1
    show row.menuItems = (db.menuItems ++ row.menuItems).filter _
    rw [List.filter_append, hnone, hall, List.nil_append]
  available m hm := (hitems m hm).2

/-- The items `create` inserts are of its restaurant, and available. -/
theorem mem_created {id : Uuid} {itemId : ℕ → Uuid} {name : String}
    {menuItems : List CreateMenuItemDto} :
    ∀ m ∈ (RestaurantsRepository.created id itemId name menuItems).menuItems,
      m.restaurantId = id ∧ m.available = true := by
  intro m hm
  obtain ⟨item, -, rfl⟩ := List.mem_map.mp hm
  exact ⟨rfl, rfl⟩

end Insert

/-! ### The state and the calls -/

/-- The list, read as the operation `readAt`, has every restaurant inserted before. -/
def Complete (inserts : List (ℕ × CatalogRow)) (readAt : ℕ) (data : List CatalogRow) : Prop :=
  ∀ p ∈ inserts, readAt < p.1 ∨ p.2.In data

/-- The entry is one of the catalog, whose time is not over. -/
structure CatalogState.Serves (s : CatalogState) (e : Entry String CachedCatalog) : Prop where
  key : e.key = activeRestaurantsKey
  since : e.since ≤ e.value.setAt
  setAt : e.value.setAt < s.stamp
  readAt : e.value.readAt < s.stamp
  expiresAt : e.expiresAt = some (e.value.setTime + 60 * 1000)
  setTime : e.value.setTime ≤ s.clock
  clock : s.clock < e.value.setTime + 60 * 1000
  complete : Complete s.inserts e.value.readAt e.value.data

/-- **The invariant of the state.** -/
structure CatalogState.Cached (s : CatalogState) : Prop where
  menus : ∀ m ∈ s.db.menuItems, ∃ r ∈ s.db.restaurants, r.id = m.restaurantId
  inserts : ∀ p ∈ s.inserts, p.1 < s.stamp ∧ s.db.Has p.2
  keys : ∀ e ∈ s.keys, s.Serves e

/-- What a loop of `invalidatePrefix` has done to the entries from before it began; the
keys of `page` are still to be deleted. -/
structure Invalidation.Sweeps (s : CatalogState) (page : List String) (loop : Invalidation)
    (began : ℕ) : Prop where
  lt_stamp : began < s.stamp
  ne : ∀ e ∈ s.keys, e.value.setAt ≠ began
  returned : ∀ e ∈ s.keys, e.key ∈ loop.returned → e.key ∈ page ∨ began < e.value.setAt
  covers : loop.cursor = "0" → ∀ e ∈ s.keys, e.since < began → e.key ∈ loop.returned

/-- **What a call knows.** -/
def CatalogPc.Knows (s : CatalogState) : CatalogPc → Prop
  | setting data readAt => readAt < s.stamp ∧ Complete s.inserts readAt data
  | scanning row inserted loop => (inserted, row) ∈ s.inserts ∧
      (loop.began = none → loop.returned = []) ∧
      ∀ began, loop.began = some began → loop.Sweeps s [] began
  | deleting row inserted loop page => (inserted, row) ∈ s.inserts ∧
      ∃ began, loop.began = some began ∧ loop.Sweeps s page began
  | created row inserted began => (inserted, row) ∈ s.inserts ∧ began < s.stamp ∧
      ∀ e ∈ s.keys, began < e.value.setAt
  | _ => True

section Grows

variable {s s' : CatalogState} (h : s.Grows s')
include h

theorem Complete.mono {readAt : ℕ} {data : List CatalogRow} (hread : readAt < s.stamp)
    (hdata : Complete s.inserts readAt data) : Complete s'.inserts readAt data := by
  intro p hp
  rcases h.inserts p hp with hold | ⟨hnew, -⟩
  · exact hdata p hold
  · exact Or.inl (hnew ▸ hread)

theorem Invalidation.Sweeps.mono {page : List String} {loop : Invalidation} {began : ℕ}
    (hloop : loop.Sweeps s page began) : loop.Sweeps s' page began := by
  refine ⟨lt_of_lt_of_le hloop.lt_stamp h.stamp, ?_, ?_, ?_⟩
  · intro e he
    rcases h.keys e he with hold | ⟨hnew, -⟩
    · exact hloop.ne e hold
    · rw [hnew]
      exact hloop.lt_stamp.ne'
  · intro e he hreturned
    rcases h.keys e he with hold | ⟨hnew, -⟩
    · exact hloop.returned e hold hreturned
    · exact Or.inr (hnew ▸ hloop.lt_stamp)
  · intro hcursor e he hsince
    rcases h.keys e he with hold | ⟨-, -, hsame | ⟨e₀, he₀, hkey, hsame⟩⟩
    · exact hloop.covers hcursor e hold hsince
    · -- a key that is new has not been there since before
      rw [hsame] at hsince
      exact absurd hsince hloop.lt_stamp.not_gt
    · exact hkey ▸ hloop.covers hcursor e₀ he₀ (hsame ▸ hsince)

/-- **What a call knows stays true** while others write. -/
theorem CatalogPc.Knows.mono {pc : CatalogPc} (hpc : pc.Knows s) : pc.Knows s' := by
  cases pc with
  | setting data readAt => exact ⟨lt_of_lt_of_le hpc.1 h.stamp, hpc.2.mono h hpc.1⟩
  | scanning row inserted loop =>
    exact ⟨h.kept _ hpc.1, hpc.2.1, fun began hbegan => (hpc.2.2 began hbegan).mono h⟩
  | deleting row inserted loop page =>
    obtain ⟨hinserted, began, hbegan, hloop⟩ := hpc
    exact ⟨h.kept _ hinserted, began, hbegan, hloop.mono h⟩
  | created row inserted began =>
    obtain ⟨hinserted, hbegan, hkeys⟩ := hpc
    refine ⟨h.kept _ hinserted, lt_of_lt_of_le hbegan h.stamp, fun e he => ?_⟩
    rcases h.keys e he with hold | ⟨hnew, -⟩
    · exact hkeys e hold
    · exact hnew ▸ hbegan
  | _ => trivial

end Grows

/-- **When the loop ends, nothing is left from before it began.** -/
theorem knows_of_resume {s : CatalogState} {row : CatalogRow} {inserted began : ℕ}
    {loop : Invalidation} (hkeys : ∀ e ∈ s.keys, e.since ≤ e.value.setAt)
    (hinserted : (inserted, row) ∈ s.inserts) (hbegan : loop.began = some began)
    (hloop : loop.Sweeps s [] began) :
    (RestaurantsService.resume row inserted began loop).Knows s := by
  unfold RestaurantsService.resume
  split
  · next hcursor =>
    refine ⟨hinserted, hloop.lt_stamp, fun e he => ?_⟩
    by_contra hold
    have hlt : e.value.setAt < began := lt_of_le_of_ne (not_lt.mp hold) (hloop.ne e he)
    have hsince : e.since < began := lt_of_le_of_lt (hkeys e he) hlt
    rcases hloop.returned e he (hloop.covers hcursor e he hsince) with hpage | hlater
    · cases hpage
    · exact hold hlater
  · refine ⟨hinserted, fun hnone => ?_, fun began' hbegan' => ?_⟩
    · rw [hbegan] at hnone
      cases hnone
    · rw [hbegan, Option.some.injEq] at hbegan'
      exact hbegan' ▸ hloop

section Step

variable {t : TextRules} {s s' : CatalogState} {r : CatalogCall} {pc pc' : CatalogPc}

/-- The loop with a new page, on the entries as they are. -/
theorem sweeps_page (hs : s.Cached) {loop : Invalidation} {began : ℕ} {cursor : String}
    {page : List String} (hbegan : loop.began.getD s.stamp = began)
    (hnone : loop.began = none → loop.returned = [])
    (hloop : ∀ began, loop.began = some began → loop.Sweeps s [] began)
    (hends : cursor = "0" → covers (startsWith "restaurants:active:") began
      (loop.returned ++ page) s.keys = true) :
    Invalidation.Sweeps { s with stamp := s.stamp + 1 } page
      ⟨cursor, loop.deleted, some began, loop.returned ++ page⟩ began := by
  have hcovered : cursor = "0" → ∀ e ∈ s.keys, e.since < began →
      e.key ∈ loop.returned ++ page := by
    intro hcursor e he hlt
    refine covers_iff.mp (hends hcursor) e he ?_ hlt
    rw [(hs.keys e he).key]
    decide
  cases hfirst : loop.began with
  | none =>
    rw [hfirst, Option.getD_none] at hbegan
    subst hbegan
    refine ⟨Nat.lt_succ_self _, fun e he => (hs.keys e he).setAt.ne, ?_, hcovered⟩
    intro e he hreturned
    rw [hnone hfirst, List.nil_append] at hreturned
    exact Or.inl hreturned
  | some b =>
    rw [hfirst, Option.getD_some] at hbegan
    subst hbegan
    have hold := hloop b hfirst
    refine ⟨lt_of_lt_of_le hold.lt_stamp (Nat.le_succ _), hold.ne, ?_, hcovered⟩
    intro e he hreturned
    rcases List.mem_append.mp hreturned with hearlier | hpage
    · rcases hold.returned e he hearlier with hnil | hlater
      · cases hnil
      · exact Or.inr hlater
    · exact Or.inl hpage

/-- The loop once its page has been deleted. -/
theorem sweeps_del {loop : Invalidation} {page : List String} {began : ℕ}
    (hloop : loop.Sweeps s page began) (deleted : ℕ) :
    Invalidation.Sweeps { s with stamp := s.stamp + 1, keys := del page s.keys } []
      { loop with deleted := deleted } began := by
  refine ⟨lt_of_lt_of_le hloop.lt_stamp (Nat.le_succ _), ?_, ?_, ?_⟩
  · intro e he
    exact hloop.ne e (mem_del.mp he).1
  · intro e he hreturned
    obtain ⟨hold, hkept⟩ := mem_del.mp he
    rcases hloop.returned e hold hreturned with hpage | hlater
    · exact absurd hpage hkept
    · exact Or.inr hlater
  · intro hcursor e he hlt
    exact hloop.covers hcursor e (mem_del.mp he).1 hlt

/-- **What a call knows** after a step of its own. -/
theorem knows_of_catalogStep (hs : s.Cached) (hpc : pc.Knows s)
    (h : CatalogStep t s r pc s' pc') : pc'.Knows s' := by
  have hgrows := grows_of_catalogStep h
  have hsince : ∀ e ∈ s.keys, e.since ≤ e.value.setAt := fun e he => (hs.keys e he).since
  cases h with
  | hit he => trivial
  | missed => trivial
  | read =>
    refine ⟨Nat.lt_succ_self _, fun p hp => Or.inr ?_⟩
    exact in_listActive (hs.inserts p hp).2
  | cached data readAt => trivial
  | inserted dto id itemId hrow hfresh =>
    exact ⟨List.mem_append_right _ (List.mem_singleton.mpr rfl), fun _ => rfl, nofun⟩
  | scanned dto row inserted loop page hnext hcovers hpc' =>
    obtain ⟨hinserted, hnone, hloop⟩ := hpc
    obtain ⟨began, hbegan⟩ : ∃ began, loop.began.getD s.stamp = began := ⟨_, rfl⟩
    rw [hbegan] at hnext hcovers hpc'
    have hnew := sweeps_page hs hbegan hnone hloop hcovers
    rw [← hnext] at hnew
    split at hpc'
    · next hempty =>
      rw [List.isEmpty_iff] at hempty
      rw [hpc']
      exact knows_of_resume hsince hinserted (by rw [hnext]) (hempty ▸ hnew)
    · rw [hpc']
      exact ⟨hinserted, began, by rw [hnext], hnew⟩
  | deleted dto row inserted loop page =>
    obtain ⟨hinserted, began, hbegan, hloop⟩ := hpc
    rw [hbegan, Option.getD_some]
    exact knows_of_resume (fun e he => hsince e (mem_del.mp he).1) hinserted rfl
      (hbegan ▸ sweeps_del hloop _)

/-- An entry that is there stays served while its time is not over. -/
theorem CatalogState.Serves.mono (h : s.Grows s') {e : Entry String CachedCatalog}
    (he : s.Serves e) (hclock : s'.clock < e.value.setTime + 60 * 1000) : s'.Serves e where
  key := he.key
  since := he.since
  setAt := lt_of_lt_of_le he.setAt h.stamp
  readAt := lt_of_lt_of_le he.readAt h.stamp
  expiresAt := he.expiresAt
  setTime := he.setTime.trans h.clock
  clock := hclock
  complete := he.complete.mono h he.readAt

/-- **The invariant of the state** after a step of a call. -/
theorem cached_of_catalogStep (hs : s.Cached) (hpc : pc.Knows s)
    (h : CatalogStep t s r pc s' pc') : s'.Cached := by
  have hgrows := grows_of_catalogStep h
  have hinserts : ∀ p ∈ s.inserts, p.1 < s.stamp + 1 ∧ s.db.Has p.2 :=
    fun p hp => ⟨(hs.inserts p hp).1.trans (Nat.lt_succ_self _), (hs.inserts p hp).2⟩
  have hkeys : ∀ e ∈ s.keys, s'.clock = s.clock → s'.Serves e := by
    intro e he hclock
    exact (hs.keys e he).mono hgrows (hclock ▸ (hs.keys e he).clock)
  cases h with
  | hit he => exact ⟨hs.menus, hinserts, fun e he => hkeys e he rfl⟩
  | missed => exact ⟨hs.menus, hinserts, fun e he => hkeys e he rfl⟩
  | read => exact ⟨hs.menus, hinserts, fun e he => hkeys e he rfl⟩
  | scanned => exact ⟨hs.menus, hinserts, fun e he => hkeys e he rfl⟩
  | deleted => exact ⟨hs.menus, hinserts, fun e he => hkeys e (mem_del.mp he).1 rfl⟩
  | cached data readAt =>
    refine ⟨hs.menus, hinserts, fun e he => ?_⟩
    rcases mem_set he with ⟨hold, -⟩ | ⟨hkey, hvalue, hexpires, hsince⟩
    · exact hkeys e hold rfl
    · have hle : e.since ≤ s.stamp := by
        rcases hsince with hsame | ⟨e₀, he₀, -, hsame⟩
        · exact hsame.le
        · have hold := hs.keys e₀ he₀
          rw [← hsame]
          exact hold.since.trans hold.setAt.le
      refine ⟨hkey, by rw [hvalue]; exact hle, by rw [hvalue]; exact Nat.lt_succ_self _,
        by rw [hvalue]; exact hpc.1.trans (Nat.lt_succ_self _), by rw [hvalue]; exact hexpires,
        by rw [hvalue], by rw [hvalue]; exact Nat.lt_add_of_pos_right (by decide), ?_⟩
      rw [hvalue]
      exact hpc.2
  | @inserted dto row id itemId hrow hfresh =>
    have hid : row.restaurant.id = id := by rw [hrow]; rfl
    have hitems : ∀ m ∈ row.menuItems, m.restaurantId = row.restaurant.id ∧ m.available = true := by
      rw [hid, hrow]
      exact mem_created
    have hnew : ∀ r ∈ s.db.restaurants, r.id ≠ row.restaurant.id := hid ▸ hfresh
    refine ⟨?_, ?_, fun e he => hkeys e he rfl⟩
    · intro m hm
      rcases List.mem_append.mp hm with hold | hadded
      · obtain ⟨r, hr, hrid⟩ := hs.menus m hold
        exact ⟨r, List.mem_append_left _ hr, hrid⟩
      · exact ⟨row.restaurant, List.mem_append_right _ (List.mem_singleton.mpr rfl),
          (hitems m hadded).1.symm⟩
    · intro p hp
      rcases List.mem_append.mp hp with hold | hadded
      · have hhas := (hs.inserts p hold).2
        exact ⟨(hinserts p hold).1, hhas.insert (Ne.symm (hnew _ hhas.restaurant))
          fun m hm => (hitems m hm).1⟩
      · rw [List.mem_singleton.mp hadded]
        have hactive : row.restaurant.active = true := by rw [hrow]; rfl
        exact ⟨Nat.lt_succ_self _, CatalogTables.has_insert hnew hs.menus hactive hitems⟩

end Step

/-! ### Reachable states -/

section Reachable

variable {t : TextRules} {w w' : CatalogWorld} {a : CatalogAction}

/-- **The invariants of the state and of the calls.** -/
theorem cached_of_reachable (hw : (catalogSystem t).Reachable w) :
    w.shared.Cached ∧ ∀ i r pc, w.calls i = some ⟨r, pc⟩ → pc.Knows w.shared := by
  refine hw.invariant (I := fun w => w.shared.Cached ∧
    ∀ i r pc, w.calls i = some ⟨r, pc⟩ → pc.Knows w.shared) ?_ ?_
  · rintro w ⟨⟨hkeys, hinserts, -, hmenus⟩, hcalls⟩
    refine ⟨⟨hmenus, ?_, ?_⟩, ?_⟩
    · intro p hp
      rw [hinserts] at hp
      cases hp
    · intro e he
      rw [hkeys] at he
      cases he
    · intro i r pc hcall
      rw [hcalls i] at hcall
      cases hcall
  rintro w a w' - ⟨hcached, hknows⟩ hstep
  have hgrows := grows_of_step hstep
  refine ⟨?_, ?_⟩
  · rcases Calls.step_cases hstep with ⟨e, d, -, henv, rfl⟩ | ⟨i, r, -, -, rfl⟩ |
      ⟨i, c, r, pc, d, pc', -, hcall, hadv, rfl⟩
    · cases e with
      | tick ms =>
        cases henv
        refine ⟨hcached.menus, hcached.inserts, fun e he => ?_⟩
        obtain ⟨hold, hlater⟩ := mem_elapse.mp he
        have hserves := hcached.keys e hold
        exact hserves.mono hgrows (hlater _ hserves.expiresAt)
      | evict key =>
        cases henv
        refine ⟨hcached.menus, hcached.inserts, fun e he => ?_⟩
        have hserves := hcached.keys e (mem_del.mp he).1
        exact hserves.mono hgrows hserves.clock
    · exact hcached
    · exact cached_of_catalogStep hcached (hknows i r pc hcall) (catalogStep_of_advance hadv)
  · intro i r pc hcall
    rcases Calls.calls_of_step hstep hcall with hsame | ⟨-, rfl⟩ | ⟨c, pc₀, -, hold, hadv⟩
    · exact (hknows i r pc hsame).mono hgrows
    · trivial
    · exact knows_of_catalogStep hcached (hknows i r pc₀ hold) (catalogStep_of_advance hadv)

/-- The restaurant is the one that was asked for, with its menu. -/
def CatalogRow.IsOf (t : TextRules) (dto : CreateRestaurantDto) (row : CatalogRow) : Prop :=
  row.restaurant.name = t.trim dto.name ∧
    row.menuItems.map (fun m => (m.name, m.price)) =
      dto.menuItems.map fun item => (t.trim item.name, item.price)

theorem created_isOf (dto : CreateRestaurantDto) (id : Uuid) (itemId : ℕ → Uuid) :
    (RestaurantsRepository.created id itemId (t.trim dto.name)
      (dto.menuItems.map fun item => { item with name := t.trim item.name })).IsOf t dto := by
  refine ⟨rfl, ?_⟩
  have hfst := List.zipIdx_map_fst 0
    (dto.menuItems.map fun item => { item with name := t.trim item.name })
  simp only [RestaurantsRepository.created, List.map_map]
  have hitems := congrArg (List.map fun item => (item.name, item.price)) hfst
  rw [List.map_map, List.map_map] at hitems
  exact hitems

/-- What a call of `create` has inserted is what was asked for. -/
def CatalogPc.Creates (t : TextRules) : CatalogCall → CatalogPc → Prop
  | .create dto, scanning row _ _ => row.IsOf t dto
  | .create dto, deleting row _ _ _ => row.IsOf t dto
  | .create dto, created row _ _ => row.IsOf t dto
  | _, _ => True

theorem creates_of_reachable (hw : (catalogSystem t).Reachable w) {i : ℕ} {r : CatalogCall}
    {pc : CatalogPc} (hcall : w.calls i = some ⟨r, pc⟩) : pc.Creates t r := by
  refine Calls.call_invariant (J := fun _ r pc => CatalogPc.Creates t r pc) ?_ ?_ ?_ hw hcall
  · intro w r _
    cases r <;> trivial
  · intro w c r pc d pc' _ hpc hadv
    have hresume : ∀ dto row inserted began loop, CatalogRow.IsOf t dto row →
        (RestaurantsService.resume row inserted began loop).Creates t (.create dto) := by
      intro dto row inserted began loop hrow
      unfold RestaurantsService.resume
      split <;> exact hrow
    cases catalogStep_of_advance hadv with
    | inserted dto id itemId hrow hfresh =>
      rw [hrow]
      exact created_isOf dto id itemId
    | scanned dto row inserted loop page hnext hcovers hpc' =>
      rw [hpc']
      split
      · exact hresume dto row inserted _ _ hpc
      · exact hpc
    | deleted dto row inserted loop page => exact hresume dto row inserted _ _ hpc
    | _ => trivial
  · intro w a w' r pc _ _ hpc
    exact hpc

end Reachable

/-! ### The theorem -/

/-- The cached list was read before the operation `inserted`, and written after the
operation `began`, less than sixty seconds before the time. -/
structure CachedCatalog.StaleFor (cached : CachedCatalog) (time inserted began : ℕ) : Prop where
  readAt : cached.readAt < inserted
  setAt : began < cached.setAt
  setTime : cached.setTime ≤ time
  recent : time < cached.setTime + 60 * 1000

/-- What a list that begins after the creation of the restaurant may return. -/
def CatalogPc.ListsAfter (row : CatalogRow) (inserted began : ℕ) : CatalogPc → Prop
  | setting data _ => row.In data
  | listed data source => row.In data ∨
      ∃ cached time, source = .hit cached time ∧ cached.StaleFor time inserted began
  | _ => True

/-- **A step of a list**, while the restaurant is in the tables and every cached list was
written after the operation `began`. -/
theorem listsAfter_of_catalogStep {t : TextRules} {s s' : CatalogState} {row : CatalogRow}
    {inserted began : ℕ} {pc pc' : CatalogPc} (hs : s.Cached)
    (hinserted : (inserted, row) ∈ s.inserts) (hwritten : ∀ e ∈ s.keys, began < e.value.setAt)
    (hpc : pc.ListsAfter row inserted began) (h : CatalogStep t s .listActive pc s' pc') :
    pc'.ListsAfter row inserted began := by
  cases h with
  | @hit e he =>
    obtain ⟨hmem, -⟩ := mem_of_get he
    have hserves := hs.keys e hmem
    rcases hserves.complete _ hinserted with hbefore | hin
    · exact Or.inr ⟨e.value, _, rfl, hbefore, hwritten e hmem, hserves.setTime, hserves.clock⟩
    · exact Or.inl hin
  | missed => trivial
  | read => exact in_listActive (hs.inserts _ hinserted).2
  | cached data readAt => exact Or.inl hpc

/-- **Reading after a write.**  A call of `listActive` that begins after a call of
`create` has returned gives a catalog with the created restaurant and its menu, unless
it is a hit on a list that another call had read before the insert and wrote after the
invalidation had begun; and such a list is served for less than sixty seconds. -/
theorem read_after_write {t : TextRules} {w₁ w₂ : CatalogWorld}
    (hw : (catalogSystem t).Reachable w₁) {i k : ℕ} {dto : CreateRestaurantDto}
    {row : CatalogRow} {inserted began : ℕ}
    (hcreated : w₁.calls i = some ⟨.create dto, .created row inserted began⟩)
    (hbegins : w₁.calls k = none) {as : List CatalogAction}
    (h : (catalogSystem t).exec w₁ as = some w₂) {data : List CatalogRow} {source : CatalogSource}
    (hlisted : w₂.calls k = some ⟨.listActive, .listed data source⟩) :
    row.IsOf t dto ∧ (row.In data ∨
      ∃ cached time, source = .hit cached time ∧ cached.StaleFor time inserted began) := by
  refine ⟨creates_of_reachable hw hcreated, ?_⟩
  have hfinal := Sys.exec_stable (I := fun w : CatalogWorld =>
    w.calls i = some ⟨.create dto, .created row inserted began⟩ ∧
      ∀ pc, w.calls k = some ⟨.listActive, pc⟩ → pc.ListsAfter row inserted began) ?_ hw
    ⟨hcreated, fun pc hpc => ?_⟩ h
  · exact hfinal.2 _ hlisted
  · rintro w a w' hw ⟨hi, hk⟩ hstep
    refine ⟨Calls.final_stable hstep hi fun _ _ => rfl, fun pc hpc => ?_⟩
    obtain ⟨hcached, hknows⟩ := cached_of_reachable hw
    obtain ⟨hinserted, -, hwritten⟩ := hknows i _ _ hi
    rcases Calls.calls_of_step hstep hpc with hsame | ⟨-, rfl⟩ | ⟨c, pc₀, -, hold, hadv⟩
    · exact hk pc hsame
    · trivial
    · exact listsAfter_of_catalogStep hcached hinserted hwritten (hk pc₀ hold)
        (catalogStep_of_advance hadv)
  · rw [hbegins] at hpc
    cases hpc

/-! ### Two lists and a creation -/

/-- Texts are kept, and compared letter by letter. -/
def TextRules.sample : TextRules where
  trim := id
  collate s s' := decide (s ≤ s')

/-- No restaurants, nothing cached, and no calls. -/
def CatalogWorld.sample : CatalogWorld := ⟨⟨0, 0, ⟨[], []⟩, [], []⟩, fun _ => none⟩

theorem CatalogWorld.sample_reachable (t : TextRules) :
    (catalogSystem t).Reachable CatalogWorld.sample := by
  refine .init ⟨⟨rfl, rfl, List.nodup_nil, ?_⟩, fun _ => rfl⟩
  intro m hm
  cases hm

/-- A step that ends an iteration with the keys. -/
def CatalogChoice.ending (page : List String) : CatalogChoice :=
  ⟨Uuid.repeated 1, fun n => Uuid.repeated (n + 2), page, "0"⟩

/-- A kitchen with one bowl. -/
def CreateRestaurantDto.sample : CreateRestaurantDto :=
  ⟨"Forge Kitchen", [⟨"Resilience Bowl", ⟨1250⟩⟩]⟩

/-- A list has been written to the cache, and a restaurant is created. -/
def cachedCreation : List CatalogAction :=
  [.request 0 .listActive, .advance 0 (.ending []), .advance 0 (.ending []),
    .advance 0 (.ending []), .request 1 (.create .sample), .advance 1 (.ending []),
    .advance 1 (.ending [activeRestaurantsKey]), .advance 1 (.ending [])]

/-- A list has been read from the tables, and a restaurant is created. -/
def slowCreation : List CatalogAction :=
  [.request 0 .listActive, .advance 0 (.ending []), .advance 0 (.ending []),
    .request 1 (.create .sample), .advance 1 (.ending []), .advance 1 (.ending [])]

/-- The list whose call is under way is written to the cache, and another one begins. -/
def staleList : List CatalogAction :=
  [.advance 0 (.ending []), .request 2 .listActive, .advance 2 (.ending [])]

/-- A list begins. -/
def freshList : List CatalogAction :=
  [.request 2 .listActive, .advance 2 (.ending []), .advance 2 (.ending []),
    .advance 2 (.ending [])]

/-- What a call of `create` has returned, and its operations. -/
def CatalogWorld.creation (w : CatalogWorld) (i : ℕ) : Option (CatalogRow × ℕ × ℕ) :=
  match w.calls i with
  | some ⟨.create _, .created row inserted began⟩ => some (row, inserted, began)
  | _ => none

theorem CatalogWorld.calls_of_creation {w : CatalogWorld} {i : ℕ} {row : CatalogRow}
    {inserted began : ℕ} (h : w.creation i = some (row, inserted, began)) :
    ∃ dto, w.calls i = some ⟨.create dto, .created row inserted began⟩ := by
  unfold creation at h
  split at h
  · next dto row' inserted' began' hcall =>
    cases h
    exact ⟨dto, hcall⟩
  · cases h

/-- What a call of `listActive` has returned: the names of the restaurants, and whether
they are from the cache. -/
def CatalogWorld.names (w : CatalogWorld) (i : ℕ) : Option (List String × Bool) :=
  match w.calls i with
  | some ⟨.listActive, .listed data .miss⟩ => some (data.map fun row => row.restaurant.name, false)
  | some ⟨.listActive, .listed data (.hit _ _)⟩ =>
    some (data.map fun row => row.restaurant.name, true)
  | _ => none

theorem CatalogWorld.calls_of_names {w : CatalogWorld} {i : ℕ} {names : List String} {hit : Bool}
    (h : w.names i = some (names, hit)) : ∃ data source,
      w.calls i = some ⟨.listActive, .listed data source⟩ ∧
      data.map (fun row => row.restaurant.name) = names ∧ (hit = false → source = .miss) := by
  unfold CatalogWorld.names at h
  split at h
  · next data hcall =>
    cases h
    exact ⟨data, .miss, hcall, rfl, fun _ => rfl⟩
  · next data cached time hcall =>
    cases h
    exact ⟨data, .hit cached time, hcall, rfl, nofun⟩
  · cases h

/-- The list that was in the cache is gone, and the next one has the restaurant. -/
theorem sample_read_after_write : ∃ w₁ w₂ row data,
    (catalogSystem .sample).exec CatalogWorld.sample cachedCreation = some w₁ ∧
    w₁.creation 1 = some (row, 3, 4) ∧ (catalogSystem .sample).exec w₁ freshList = some w₂ ∧
    w₂.calls 2 = some ⟨.listActive, .listed data .miss⟩ ∧ row.In data := by
  have hfirst : ((catalogSystem .sample).exec CatalogWorld.sample cachedCreation).map
      (fun w => (w.creation 1, (w.calls 2).isNone)) = some (some
        (RestaurantsRepository.created (Uuid.repeated 1) (fun n => Uuid.repeated (n + 2))
          "Forge Kitchen" [⟨"Resilience Bowl", ⟨1250⟩⟩], 3, 4), true) := by decide
  have hsecond : ((catalogSystem .sample).exec CatalogWorld.sample
      (cachedCreation ++ freshList)).map (fun w => w.names 2) =
        some (some (["Forge Kitchen"], false)) := by decide
  obtain ⟨w₁, hw₁, heq⟩ := Option.map_eq_some_iff.mp hfirst
  obtain ⟨hcreation, hnone⟩ := Prod.mk.inj heq
  rw [Sys.exec_append, hw₁, Option.bind_some] at hsecond
  obtain ⟨w₂, hw₂, hnames⟩ := Option.map_eq_some_iff.mp hsecond
  obtain ⟨dto, hcreated⟩ := CatalogWorld.calls_of_creation hcreation
  obtain ⟨data, source, hlisted, -, hmiss⟩ := CatalogWorld.calls_of_names hnames
  rw [hmiss rfl] at hlisted
  refine ⟨w₁, w₂, _, data, hw₁, hcreation, hw₂, hlisted, ?_⟩
  obtain ⟨-, hin | ⟨cached, time, hsource, -⟩⟩ := read_after_write
    ((CatalogWorld.sample_reachable .sample).exec hw₁) hcreated
    (Option.isNone_iff_eq_none.mp hnone) hw₂ hlisted
  · exact hin
  · cases hsource

/-- **A slow list brings back the catalog from before**: it was read before the insert and
is written after the deletion, and the next call gets it. -/
theorem stale_list_served : ¬∀ (t : TextRules) (w₁ w₂ : CatalogWorld) (i k : ℕ)
    (dto : CreateRestaurantDto) (row : CatalogRow) (inserted began : ℕ)
    (as : List CatalogAction) (data : List CatalogRow) (source : CatalogSource),
      (catalogSystem t).Reachable w₁ →
      w₁.calls i = some ⟨.create dto, .created row inserted began⟩ → w₁.calls k = none →
      (catalogSystem t).exec w₁ as = some w₂ →
      w₂.calls k = some ⟨.listActive, .listed data source⟩ → row.In data := by
  intro hclaim
  have hfirst : ((catalogSystem .sample).exec CatalogWorld.sample slowCreation).map
      (fun w => ((w.creation 1).isSome, (w.calls 2).isNone)) = some (true, true) := by decide
  have hsecond : ((catalogSystem .sample).exec CatalogWorld.sample
      (slowCreation ++ staleList)).map (fun w => w.names 2) = some (some ([], true)) := by decide
  obtain ⟨w₁, hw₁, heq⟩ := Option.map_eq_some_iff.mp hfirst
  obtain ⟨hcreation, hnone⟩ := Prod.mk.inj heq
  obtain ⟨⟨row, inserted, began⟩, hcreation⟩ := Option.isSome_iff_exists.mp hcreation
  rw [Sys.exec_append, hw₁, Option.bind_some] at hsecond
  obtain ⟨w₂, hw₂, hnames⟩ := Option.map_eq_some_iff.mp hsecond
  obtain ⟨dto, hcreated⟩ := CatalogWorld.calls_of_creation hcreation
  obtain ⟨data, source, hlisted, hempty, -⟩ := CatalogWorld.calls_of_names hnames
  obtain ⟨r, hr, -⟩ := hclaim .sample w₁ w₂ 1 2 dto row inserted began staleList data source
    ((CatalogWorld.sample_reachable .sample).exec hw₁) hcreated
    (Option.isNone_iff_eq_none.mp hnone) hw₂ hlisted
  rw [List.map_eq_nil_iff.mp hempty] at hr
  cases hr

end ScaleForge
