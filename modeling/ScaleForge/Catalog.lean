import ScaleForge.Lib.Calls
import ScaleForge.Lib.Keyspace
import ScaleForge.Schema
import Mathlib.Data.List.Sort

/-!
# The restaurant catalog

`RestaurantsService.listActive` and `create`, await by await, on the tables of
PostgreSQL and the keys of Redis: a list is read from the cache, or from the tables and
then written to the cache for sixty seconds; a restaurant is inserted with its menu, and
then every key that starts with `restaurants:active:` is deleted, page by page.  Any
number of calls run at once, every statement and command succeeds, and a key may vanish
before its time.

The text `JSON.stringify` writes is kept as the list that `JSON.parse` makes of it; that
text is never empty, and the list is an object, so a cached list is always a hit.  Keys
that other clients write under other names are left out.

## Main definitions

* `CatalogRow`, `CatalogRow.In` — a restaurant with its menu, and that a catalog has it.
* `RestaurantsRepository.listActive`, `created` — the two statements.
* `CachedCatalog` — what the cache holds, with the operations it comes from.
* `CatalogCall`, `CatalogPc`, `RestaurantsService.advance` — the calls, await by await.
* `catalogSystem` — any number of calls.

## Main results

* `CatalogState.Grows`, `grows_of_step` — what a step may do to the tables and the cache.
-/

namespace ScaleForge

open Keyspace

/-! ### The tables -/

/-- A row of `restaurants`, with the column the catalog is ordered by. -/
structure CatalogRestaurant extends Restaurant where
  name : String
  deriving DecidableEq

/-- A restaurant with its menu. -/
structure CatalogRow where
  restaurant : CatalogRestaurant
  menuItems : List MenuItem
  deriving DecidableEq

/-- The catalog has the restaurant with its menu, in whatever order. -/
def CatalogRow.In (row : CatalogRow) (data : List CatalogRow) : Prop :=
  ∃ r ∈ data, r.restaurant = row.restaurant ∧ r.menuItems.Perm row.menuItems

/-- What the runtime and the database do with texts. -/
structure TextRules where
  /-- `s.trim()`. -/
  trim : String → String
  /-- The order of the database's collation. -/
  collate : String → String → Bool

structure CreateMenuItemDto where
  name : String
  price : Decimal

structure CreateRestaurantDto where
  name : String
  menuItems : List CreateMenuItemDto

/-- The rows of the tables. -/
structure CatalogTables where
  restaurants : List CatalogRestaurant
  menuItems : List MenuItem

namespace RestaurantsRepository

variable (t : TextRules)

/-- `menuItems: { where: { available: true }, orderBy: { name: 'asc' } }`. -/
def menuOf (db : CatalogTables) (r : CatalogRestaurant) : List MenuItem :=
  (db.menuItems.filter fun m => m.restaurantId = r.id && m.available).insertionSort
    fun m m' => t.collate m.name m'.name = true

/-- `listActive`. -/
def listActive (db : CatalogTables) : List CatalogRow :=
  ((db.restaurants.filter fun r => r.active).insertionSort
    fun r r' => t.collate r.name r'.name = true).map fun r => ⟨r, menuOf t db r⟩

/-- The restaurant `create` inserts, with its menu; `itemId n` is the identifier of the
`n`th item. -/
def created (id : Uuid) (itemId : ℕ → Uuid) (name : String) (menuItems : List CreateMenuItemDto) :
    CatalogRow where
  restaurant := ⟨⟨id, true⟩, name⟩
  menuItems := menuItems.zipIdx.map fun item => ⟨itemId item.2, id, item.1.name, item.1.price, true⟩

end RestaurantsRepository

/-- The rows after a restaurant has been inserted with its menu. -/
def CatalogTables.insert (db : CatalogTables) (row : CatalogRow) : CatalogTables where
  restaurants := db.restaurants ++ [row.restaurant]
  menuItems := db.menuItems ++ row.menuItems

/-! ### The cache -/

/-- `ACTIVE_RESTAURANTS_KEY`. -/
def activeRestaurantsKey : String := "restaurants:active:v1"

/-- The pattern of `invalidatePrefix`: the text followed by a star. -/
def startsWith (start key : String) : Bool := start.toList.isPrefixOf key.toList

/-- What the cache holds.  The last three fields are no part of it, and nothing reads
them: the operations that read the tables and wrote the key, and the time of the write. -/
structure CachedCatalog where
  data : List CatalogRow
  readAt : ℕ
  setAt : ℕ
  setTime : ℕ

structure CatalogState where
  /-- The time, in milliseconds. -/
  clock : ℕ
  /-- The number of the next operation; nothing reads it. -/
  stamp : ℕ
  db : CatalogTables
  keys : List (Entry String CachedCatalog)
  /-- The inserted restaurants, each with its operation; nothing reads them. -/
  inserts : List (ℕ × CatalogRow)

/-! ### The calls -/

inductive CatalogCall
  | listActive
  | create (dto : CreateRestaurantDto)

/-- Where a returned list comes from. -/
inductive CatalogSource
  | miss
  /-- The cache, at the time. -/
  | hit (cached : CachedCatalog) (time : ℕ)

/-- The loop of `invalidatePrefix`. -/
structure Invalidation where
  cursor : String
  deleted : ℕ
  /-- Its first `SCAN`, once there has been one; the loop does not keep it. -/
  began : Option ℕ
  /-- The keys of its pages so far; the loop does not keep them. -/
  returned : List String

/-- How far a call has come. -/
inductive CatalogPc
  | start
  /-- Not in the cache; awaiting `restaurants.listActive`. -/
  | reading
  /-- Awaiting `setJson`. -/
  | setting (data : List CatalogRow) (readAt : ℕ)
  /-- `listActive` has returned. -/
  | listed (data : List CatalogRow) (source : CatalogSource)
  /-- Awaiting `SCAN`; the row was inserted as the operation `inserted`. -/
  | scanning (row : CatalogRow) (inserted : ℕ) (loop : Invalidation)
  /-- Awaiting `DEL` of a page. -/
  | deleting (row : CatalogRow) (inserted : ℕ) (loop : Invalidation) (page : List String)
  /-- `create` has returned; the invalidation began with the operation `began`. -/
  | created (row : CatalogRow) (inserted began : ℕ)

/-- What surrounds one step. -/
structure CatalogChoice where
  /-- The identifiers of new rows. -/
  id : Uuid
  itemId : ℕ → Uuid
  /-- A page of the iteration, and its next cursor. -/
  page : List String
  cursor : String

namespace RestaurantsService

variable (t : TextRules)

/-- `while (cursor !== '0')`. -/
def resume (row : CatalogRow) (inserted began : ℕ) (loop : Invalidation) : CatalogPc :=
  if loop.cursor = "0" then .created row inserted began else .scanning row inserted loop

/-- The next await of a call. -/
def advance (s : CatalogState) (c : CatalogChoice) :
    CatalogCall → CatalogPc → Option (CatalogState × CatalogPc)
  | .listActive, .start =>
    match get activeRestaurantsKey s.keys with
    | some e => some ({ s with stamp := s.stamp + 1 }, .listed e.value.data (.hit e.value s.clock))
    | none => some ({ s with stamp := s.stamp + 1 }, .reading)
  | .listActive, .reading =>
    some ({ s with stamp := s.stamp + 1 },
      .setting (RestaurantsRepository.listActive t s.db) s.stamp)
  | .listActive, .setting data readAt =>
    some ({ s with
      stamp := s.stamp + 1
      keys := set s.stamp activeRestaurantsKey ⟨data, readAt, s.stamp, s.clock⟩
        (some (s.clock + 60 * 1000)) s.keys }, .listed data .miss)
  | .create dto, .start =>
    let row := RestaurantsRepository.created c.id c.itemId (t.trim dto.name)
      (dto.menuItems.map fun item => { item with name := t.trim item.name })
    -- the identifier is new
    if s.db.restaurants.all fun r => r.id ≠ c.id then
      some ({ s with
        stamp := s.stamp + 1
        db := s.db.insert row
        inserts := s.inserts ++ [(s.stamp, row)] },
        .scanning row s.stamp ⟨"0", 0, none, []⟩)
    else none
  | .create _, .scanning row inserted loop =>
    let began := loop.began.getD s.stamp
    let returned := loop.returned ++ c.page
    -- the promise of the iteration, when it ends
    if c.page.all (startsWith "restaurants:active:") &&
        (c.cursor ≠ "0" || covers (startsWith "restaurants:active:") began returned s.keys) then
      let next : Invalidation := ⟨c.cursor, loop.deleted, some began, returned⟩
      some ({ s with stamp := s.stamp + 1 },
        if c.page.isEmpty then resume row inserted began next
        else .deleting row inserted next c.page)
    else none
  | .create _, .deleting row inserted loop page =>
    let next := { loop with deleted := loop.deleted + delCount page s.keys }
    some ({ s with stamp := s.stamp + 1, keys := del page s.keys },
      resume row inserted (loop.began.getD 0) next)
  | _, _ => none

end RestaurantsService

/-- The calls as a machine. -/
def catalogMachine (t : TextRules) : Calls.Machine CatalogState CatalogChoice CatalogCall
    CatalogPc where
  start := .start
  advance := RestaurantsService.advance t

/-- What else happens. -/
inductive CatalogEnvironment
  | tick (ms : ℕ)
  /-- A key vanishes before its time. -/
  | evict (key : String)

/-- A step of the surroundings. -/
def catalogEnvironment (s : CatalogState) : CatalogEnvironment → Option CatalogState
  | .tick ms => some { s with clock := s.clock + ms, keys := elapse (s.clock + ms) s.keys }
  | .evict key => some { s with keys := del [key] s.keys }

/-- Nothing is cached, and every item of a menu is of a restaurant that is there. -/
def CatalogState.Initial (s : CatalogState) : Prop :=
  s.keys = [] ∧ s.inserts = [] ∧ (s.db.restaurants.map fun r => r.id).Nodup ∧
    ∀ m ∈ s.db.menuItems, ∃ r ∈ s.db.restaurants, r.id = m.restaurantId

/-- The calls on the tables and the cache. -/
abbrev CatalogWorld := Calls.State CatalogState CatalogCall CatalogPc

/-- A step of a call, or of what surrounds them. -/
abbrev CatalogAction := Calls.Action CatalogEnvironment CatalogChoice CatalogCall

/-- **The system**: any number of calls, in any interleaving of their awaits. -/
abbrev catalogSystem (t : TextRules) : Transition.Sys CatalogWorld CatalogAction :=
  Calls.system (catalogMachine t) catalogEnvironment CatalogState.Initial

/-! ### What a step does -/

/-- What a step may do to the tables and the cache: operations are counted, the inserted
restaurants are kept with their menus, and an entry that is new has been written as the
operation the step counts. -/
structure CatalogState.Grows (s s' : CatalogState) : Prop where
  stamp : s.stamp ≤ s'.stamp
  clock : s.clock ≤ s'.clock
  kept : ∀ p ∈ s.inserts, p ∈ s'.inserts
  inserts : ∀ p ∈ s'.inserts, p ∈ s.inserts ∨ p.1 = s.stamp ∧ s.stamp < s'.stamp
  keys : ∀ e ∈ s'.keys, e ∈ s.keys ∨
    e.value.setAt = s.stamp ∧ s.stamp < s'.stamp ∧
      (e.since = s.stamp ∨ ∃ e₀ ∈ s.keys, e₀.key = e.key ∧ e₀.since = e.since)

theorem CatalogState.Grows.refl (s : CatalogState) : s.Grows s :=
  ⟨le_rfl, le_rfl, fun _ h => h, fun _ h => Or.inl h, fun _ h => Or.inl h⟩

/-- The ways a step of a call can go. -/
inductive CatalogStep (t : TextRules) (s : CatalogState) :
    CatalogCall → CatalogPc → CatalogState → CatalogPc → Prop
  | hit {e : Entry String CachedCatalog} (he : get activeRestaurantsKey s.keys = some e) :
      CatalogStep t s .listActive .start { s with stamp := s.stamp + 1 }
        (.listed e.value.data (.hit e.value s.clock))
  | missed : CatalogStep t s .listActive .start { s with stamp := s.stamp + 1 } .reading
  | read : CatalogStep t s .listActive .reading { s with stamp := s.stamp + 1 }
      (.setting (RestaurantsRepository.listActive t s.db) s.stamp)
  | cached (data : List CatalogRow) (readAt : ℕ) :
      CatalogStep t s .listActive (.setting data readAt)
        { s with
          stamp := s.stamp + 1
          keys := set s.stamp activeRestaurantsKey ⟨data, readAt, s.stamp, s.clock⟩
            (some (s.clock + 60 * 1000)) s.keys } (.listed data .miss)
  | inserted (dto : CreateRestaurantDto) {row : CatalogRow} (id : Uuid) (itemId : ℕ → Uuid)
      (hrow : row = RestaurantsRepository.created id itemId (t.trim dto.name)
        (dto.menuItems.map fun item => { item with name := t.trim item.name }))
      (hfresh : ∀ r ∈ s.db.restaurants, r.id ≠ id) :
      CatalogStep t s (.create dto) .start
        { s with
          stamp := s.stamp + 1
          db := s.db.insert row
          inserts := s.inserts ++ [(s.stamp, row)] }
        (.scanning row s.stamp ⟨"0", 0, none, []⟩)
  | scanned (dto : CreateRestaurantDto) (row : CatalogRow) (inserted : ℕ) (loop : Invalidation)
      (page : List String) {cursor : String} {next : Invalidation} {pc' : CatalogPc}
      (hnext : next = ⟨cursor, loop.deleted, some (loop.began.getD s.stamp),
        loop.returned ++ page⟩)
      (hcovers : cursor = "0" → covers (startsWith "restaurants:active:")
        (loop.began.getD s.stamp) (loop.returned ++ page) s.keys = true)
      (hpc' : pc' = if page.isEmpty then
          RestaurantsService.resume row inserted (loop.began.getD s.stamp) next
        else .deleting row inserted next page) :
      CatalogStep t s (.create dto) (.scanning row inserted loop)
        { s with stamp := s.stamp + 1 } pc'
  | deleted (dto : CreateRestaurantDto) (row : CatalogRow) (inserted : ℕ) (loop : Invalidation)
      (page : List String) :
      CatalogStep t s (.create dto) (.deleting row inserted loop page)
        { s with stamp := s.stamp + 1, keys := del page s.keys }
        (RestaurantsService.resume row inserted (loop.began.getD 0)
          { loop with deleted := loop.deleted + delCount page s.keys })

section Steps

variable {t : TextRules} {s s' : CatalogState} {c : CatalogChoice} {r : CatalogCall}
  {pc pc' : CatalogPc}

/-- Operations that only count or delete. -/
theorem CatalogState.Grows.of_sublist (hclock : s.clock ≤ s'.clock)
    (hstamp : s.stamp ≤ s'.stamp) (hinserts : s'.inserts = s.inserts)
    (hkeys : ∀ e ∈ s'.keys, e ∈ s.keys) : s.Grows s' :=
  ⟨hstamp, hclock, fun _ h => hinserts ▸ h, fun _ h => Or.inl (hinserts ▸ h),
    fun e he => Or.inl (hkeys e he)⟩

/-- **The ways a step of a call can go.** -/
theorem catalogStep_of_advance (h : RestaurantsService.advance t s c r pc = some (s', pc')) :
    CatalogStep t s r pc s' pc' := by
  cases r with
  | listActive =>
    cases pc with
    | start =>
      simp only [RestaurantsService.advance] at h
      split at h
      · next e he =>
        cases h
        exact .hit he
      · cases h
        exact .missed
    | reading =>
      cases h
      exact .read
    | setting data readAt =>
      cases h
      exact .cached data readAt
    | _ => cases h
  | create dto =>
    cases pc with
    | start =>
      simp only [RestaurantsService.advance] at h
      split at h
      · next hfresh =>
        cases h
        simp only [List.all_eq_true, decide_eq_true_eq] at hfresh
        exact .inserted dto c.id c.itemId rfl hfresh
      · cases h
    | scanning row inserted loop =>
      simp only [RestaurantsService.advance] at h
      split at h
      · next hguard =>
        cases h
        simp only [Bool.and_eq_true, Bool.or_eq_true, decide_eq_true_eq] at hguard
        exact .scanned dto row inserted loop c.page rfl
          (fun hcursor => hguard.2.resolve_left fun hne => hne hcursor) rfl
      · cases h
    | deleting row inserted loop page =>
      cases h
      exact .deleted dto row inserted loop page
    | _ => cases h

/-- **A step of a call grows the state.** -/
theorem grows_of_catalogStep (h : CatalogStep t s r pc s' pc') : s.Grows s' := by
  have hstamp : s.stamp < s.stamp + 1 := Nat.lt_succ_self _
  cases h with
  | hit he => exact .of_sublist le_rfl hstamp.le rfl fun _ h => h
  | missed => exact .of_sublist le_rfl hstamp.le rfl fun _ h => h
  | read => exact .of_sublist le_rfl hstamp.le rfl fun _ h => h
  | cached data readAt =>
    refine ⟨hstamp.le, le_rfl, fun _ h => h, fun _ h => Or.inl h, fun e he => ?_⟩
    rcases mem_set he with ⟨hold, -⟩ | ⟨hkey, hvalue, -, hsince⟩
    · exact Or.inl hold
    · rw [hvalue, hkey]
      exact Or.inr ⟨rfl, hstamp, hsince⟩
  | inserted dto id itemId hrow hfresh =>
    refine ⟨hstamp.le, le_rfl, fun p hp => List.mem_append_left _ hp, fun p hp => ?_,
      fun _ h => Or.inl h⟩
    rcases List.mem_append.mp hp with hold | hnew
    · exact Or.inl hold
    · rw [List.mem_singleton.mp hnew]
      exact Or.inr ⟨rfl, hstamp⟩
  | scanned => exact .of_sublist le_rfl hstamp.le rfl fun _ h => h
  | deleted => exact .of_sublist le_rfl hstamp.le rfl fun e he => (mem_del.mp he).1

/-- **A step of the system grows the state.** -/
theorem grows_of_step {w w' : CatalogWorld} {a : CatalogAction}
    (h : (catalogSystem t).step w a = some w') : w.shared.Grows w'.shared := by
  rcases Calls.step_cases h with ⟨e, d, -, henv, rfl⟩ | ⟨i, r, -, -, rfl⟩ |
    ⟨i, c, r, pc, d, pc', -, -, hadv, rfl⟩
  · cases e with
    | tick ms =>
      cases henv
      exact .of_sublist (Nat.le_add_right _ _) le_rfl rfl fun e he => (mem_elapse.mp he).1
    | evict key =>
      cases henv
      exact .of_sublist le_rfl le_rfl rfl fun e he => (mem_del.mp he).1
  · exact .refl _
  · exact grows_of_catalogStep (catalogStep_of_advance hadv)

end Steps

end ScaleForge
