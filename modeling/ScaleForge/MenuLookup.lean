import ScaleForge.MoneyConsistency
import Mathlib.Data.List.Dedup

/-!
# The menu lookup of an order

`OrdersService.create` refuses a request that names a menu item twice, comparing the
texts; `OrdersRepository.create` asks for an active restaurant, PostgreSQL selects the rows
by value, and the transaction goes on when as many rows come back as items were requested.
Then it looks every requested text up in a map keyed by the texts of the rows, and asserts
that it finds it.

The count leaves no row out: as many different rows as requested items means that every
item has its row.  But the map has only the spelling that PostgreSQL renders.

## Main definitions

* `MenuLookupTotal` — behind the count check every item is found.
* `Offered`, `Active` — the restaurant has the item on its menu, and is open for orders.

## Main results

* `perm_of_count` — behind the count check the rows are those of the requested items.
* `menuLookupTotal_iff` — **the lookup is total exactly for requests in lower case**, and
  for those that do not come to it.
-/

namespace ScaleForge

open OrdersRepository

/-- Behind the duplicate check, the search for the restaurant and the count check every
`byId.get` is defined, and the lines refer to the requested items. -/
def MenuLookupTotal (db : Db) (dto : CreateOrderDto) : Prop :=
  OrdersService.create dto = .ok () → findRestaurant db dto = .ok () →
    (findMenuItems db dto).length = dto.items.length →
      ∃ lineItems, priceItems dto (findMenuItems db dto) = .ok lineItems ∧
        List.Forall₂ (fun requested l => l.menuItemId = requested.menuItemId.value)
          dto.items lineItems

/-- The restaurant of the order has the item on its menu, and it is available. -/
def Offered (db : Db) (dto : CreateOrderDto) (id : Uuid) : Prop :=
  ∃ m ∈ db.menuItems, m.id = id ∧ m.restaurantId = dto.restaurantId.value ∧ m.available = true

/-- The restaurant of the order is open for orders. -/
def Active (db : Db) (dto : CreateOrderDto) : Prop :=
  ∃ r ∈ db.restaurants, r.id = dto.restaurantId.value ∧ r.active = true

/-- The menu items a request names. -/
def CreateOrderDto.menuItemIds (dto : CreateOrderDto) : List Uuid :=
  dto.items.map fun i => i.menuItemId.value

/-- Parts that each have a result have one together. -/
theorem exists_mapM_eq_ok {α β ε : Type} {f : α → Except ε β} {xs : List α}
    (h : ∀ x ∈ xs, ∃ y, f x = .ok y) : ∃ ys, xs.mapM f = .ok ys := by
  induction xs with
  | nil => exact ⟨[], rfl⟩
  | cons x xs ih =>
    obtain ⟨y, hy⟩ := h x List.mem_cons_self
    obtain ⟨ys, hys⟩ := ih fun x hx => h x (List.mem_cons_of_mem _ hx)
    refine ⟨y :: ys, ?_⟩
    rw [List.mapM_cons, hy, hys]
    rfl

variable {db : Db} {dto : CreateOrderDto}

theorem findRestaurant_eq_ok_iff : findRestaurant db dto = .ok () ↔ Active db dto := by
  unfold findRestaurant Active
  split
  · next hany => simpa using hany
  · next hnone => simpa using hnone

/-! ### The count -/

theorem mem_findMenuItems_iff {m : MenuItem} :
    m ∈ findMenuItems db dto ↔ m ∈ db.menuItems ∧ m.id ∈ dto.menuItemIds ∧
      m.restaurantId = dto.restaurantId.value ∧ m.available = true := by
  simp only [findMenuItems, List.mem_filter, Bool.and_eq_true, decide_eq_true_eq, and_assoc]
  rfl

theorem mem_ids_iff {id : Uuid} :
    id ∈ (findMenuItems db dto).map MenuItem.id ↔ id ∈ dto.menuItemIds ∧ Offered db dto id := by
  simp only [List.mem_map, mem_findMenuItems_iff, Offered]
  constructor
  · rintro ⟨m, ⟨hm, hid, hoffered⟩, rfl⟩
    exact ⟨hid, m, hm, rfl, hoffered⟩
  · rintro ⟨hid, m, hm, rfl, hoffered⟩
    exact ⟨m, ⟨hm, hid, hoffered⟩, rfl⟩

variable (hu : Table.UniqueOn MenuItem.id db.menuItems)
include hu

theorem nodup_ids : ((findMenuItems db dto).map MenuItem.id).Nodup :=
  hu.sublist (List.filter_sublist.map MenuItem.id)

/-- **As many different rows as requested items leave no item without its row.** -/
theorem perm_of_count (h : (findMenuItems db dto).length = dto.items.length) :
    ((findMenuItems db dto).map MenuItem.id).Perm dto.menuItemIds := by
  have hsubset : (findMenuItems db dto).map MenuItem.id ⊆ dto.menuItemIds :=
    fun id hid => (mem_ids_iff.mp hid).1
  refine (List.subperm_of_subset (nodup_ids hu) hsubset).perm_of_length_le ?_
  rw [CreateOrderDto.menuItemIds, List.length_map, List.length_map, h]

/-- The count check passes when different items are requested, all of them offered. -/
theorem count_of_offered (hnodup : dto.menuItemIds.Nodup)
    (hoffered : ∀ i ∈ dto.items, Offered db dto i.menuItemId.value) :
    (findMenuItems db dto).length = dto.items.length := by
  have hperm : ((findMenuItems db dto).map MenuItem.id).Perm dto.menuItemIds := by
    refine (List.perm_ext_iff_of_nodup (nodup_ids hu) hnodup).mpr fun id => ?_
    rw [mem_ids_iff, and_iff_left_iff_imp]
    intro hid
    obtain ⟨i, hi, rfl⟩ := List.mem_map.mp hid
    exact hoffered i hi
  have hlength := hperm.length_eq
  rwa [CreateOrderDto.menuItemIds, List.length_map, List.length_map] at hlength

/-! ### The lookup -/

/-- An item in lower case is found behind the count check. -/
theorem exists_lineItem (h : (findMenuItems db dto).length = dto.items.length)
    {requested : CreateOrderItemDto} (hrequested : requested ∈ dto.items)
    (hcanonical : requested.menuItemId.Canonical) :
    ∃ l, lineItem (findMenuItems db dto) requested = .ok l := by
  have hid : requested.menuItemId.value ∈ (findMenuItems db dto).map MenuItem.id :=
    (perm_of_count hu h).mem_iff.mpr (List.mem_map_of_mem hrequested)
  obtain ⟨m, hm, hvalue⟩ := List.mem_map.mp hid
  have htext : m.id.text = requested.menuItemId := by rw [hvalue, hcanonical]
  have hfound : ((findMenuItems db dto).find? fun m => m.id.text = requested.menuItemId).isSome :=
    List.find?_isSome.mpr ⟨m, hm, decide_eq_true htext⟩
  obtain ⟨menu, hmenu⟩ := Option.isSome_iff_exists.mp hfound
  unfold lineItem
  rw [hmenu]
  exact ⟨_, rfl⟩

omit hu in
/-- An item that has a line is spelled in lower case. -/
theorem canonical_of_lineItem {menuItems : List MenuItem} {requested : CreateOrderItemDto}
    {l : LineItem} (h : lineItem menuItems requested = .ok l) :
    requested.menuItemId.Canonical ∧ l.menuItemId = requested.menuItemId.value := by
  obtain ⟨m, -, htext, hid, -⟩ := exists_of_lineItem h
  rw [← htext]
  exact ⟨m.id.canonical_text, by rw [hid, Uuid.value_text]⟩

/-- **The menu lookup is total exactly for requests in lower case**, unless one of the checks
stops the request: the restaurant is not active, or the request names one item twice, or an
item that is not on the menu. -/
theorem menuLookupTotal_iff : MenuLookupTotal db dto ↔
    (∀ i ∈ dto.items, i.menuItemId.Canonical) ∨ ¬Active db dto ∨ ¬dto.menuItemIds.Nodup ∨
      ∃ i ∈ dto.items, ¬Offered db dto i.menuItemId.value := by
  constructor
  · intro h
    by_contra hnot
    push Not at hnot
    obtain ⟨⟨i, hi, hupper⟩, hactive, hnodup, hoffered⟩ := hnot
    have hcreate : OrdersService.create dto = .ok () := by
      have htexts : (dto.items.map CreateOrderItemDto.menuItemId).Nodup := by
        refine List.Nodup.of_map UuidText.value ?_
        rwa [List.map_map]
      rw [OrdersService.create, List.dedup_eq_self.mpr htexts, if_neg (not_not.mpr rfl)]
    obtain ⟨lineItems, hprice, -⟩ := h hcreate (findRestaurant_eq_ok_iff.mpr hactive)
      (count_of_offered hu hnodup hoffered)
    obtain ⟨l, -, hl⟩ := Table.exists_of_forall₂_left (lineItem_of_priceItems hprice) hi
    exact hupper (canonical_of_lineItem hl).1
  · intro h _ hfound hcount
    have hperm := perm_of_count hu hcount
    have hcanonical : ∀ i ∈ dto.items, i.menuItemId.Canonical := by
      rcases h with hcanonical | hclosed | hdup | ⟨i, hi, hmissing⟩
      · exact hcanonical
      · exact absurd (findRestaurant_eq_ok_iff.mp hfound) hclosed
      · exact absurd (hperm.nodup_iff.mp (nodup_ids hu)) hdup
      · have hid := hperm.mem_iff.mpr (List.mem_map_of_mem hi)
        exact absurd (mem_ids_iff.mp hid).2 hmissing
    obtain ⟨lineItems, hlines⟩ := exists_mapM_eq_ok fun i hi =>
      exists_lineItem hu hcount hi (hcanonical i hi)
    have hprice : priceItems dto (findMenuItems db dto) = .ok lineItems := by
      rw [priceItems, if_neg (not_not.mpr hcount), hlines]
    exact ⟨lineItems, hprice, (lineItem_of_priceItems hprice).imp fun requested l hl =>
      (canonical_of_lineItem hl).2⟩

/-! ### Samples -/

omit hu

/-- One restaurant with one item, whose identifier has letters. -/
def sampleMenu : Db :=
  { World.sample.db with
    menuItems := [⟨Uuid.repeated 10, Uuid.repeated 1, "Resilience Bowl", ⟨1250⟩, true⟩] }

/-- An order of one piece of that item, as it is spelled. -/
def sampleOrder (menuItemId : UuidText) : CreateOrderDto where
  restaurantId := (Uuid.repeated 1).text
  items := [⟨menuItemId, 1, by decide, by decide⟩]
  min_items := Nat.le_refl 1
  max_items := by simp

theorem sampleMenu_unique : Table.UniqueOn MenuItem.id sampleMenu.menuItems :=
  List.nodup_singleton _

/-- The item in lower case is found. -/
theorem sample_menuLookup_total :
    (findMenuItems sampleMenu (sampleOrder (Uuid.repeated 10).text)).length = 1 ∧
      MenuLookupTotal sampleMenu (sampleOrder (Uuid.repeated 10).text) := by
  refine ⟨by decide, (menuLookupTotal_iff sampleMenu_unique).mpr (Or.inl ?_)⟩
  intro i hi
  rw [List.mem_singleton.mp hi]
  exact Uuid.canonical_text _

/-- **An item in upper case passes every check and is not found**: what the code asserts
to be there is `undefined`. -/
theorem upper_case_not_found :
    OrdersService.create (sampleOrder (.repeated (.upper 0))) = .ok () ∧
      findRestaurant sampleMenu (sampleOrder (.repeated (.upper 0))) = .ok () ∧
      (findMenuItems sampleMenu (sampleOrder (.repeated (.upper 0)))).length = 1 ∧
      priceItems (sampleOrder (.repeated (.upper 0)))
        (findMenuItems sampleMenu (sampleOrder (.repeated (.upper 0)))) = .error .typeError ∧
      ¬MenuLookupTotal sampleMenu (sampleOrder (.repeated (.upper 0))) := by
  have hprice : priceItems (sampleOrder (.repeated (.upper 0)))
      (findMenuItems sampleMenu (sampleOrder (.repeated (.upper 0)))) = .error .typeError := by
    decide
  refine ⟨by decide, by decide, by decide, hprice, fun h => ?_⟩
  obtain ⟨lineItems, hok, -⟩ := h (by decide) (by decide) (by decide)
  rw [hprice] at hok
  cases hok

end ScaleForge
