import ScaleForge.CatalogFreshness
import ScaleForge.MenuLookup
import Mathlib.Algebra.Order.BigOperators.Group.List
import Mathlib.Algebra.Order.Ring.Int

/-!
# Prices and their columns

Prices, line totals and order totals are stored in `DECIMAL(12,2)` columns, which hold
values below 10^10.  The validators bound the number of items of an order and the
quantity of each, and a menu price from below; nothing bounds a price from above.  A
price that does not fit, or an order whose total does not, goes through validation and
fails in the database.

The requests come one after another here: each reads what the one before it has written.

## Main definitions

* `ValidRestaurantDto` — a validated restaurant.
* `MoneyAction.handle` — a request, from the check to the commit.
* `MoneyAction.writes` — the amounts it tries to write.
* `MoneyAction.Fits`, `MoneyAction.Bounded` — the amounts fit; the condition that they do.

## Main results

* `fits_iff_bounded` — one request fits exactly when its amounts are bounded.
* `money_fits_iff` — **so do the requests of a run.**
-/

namespace ScaleForge

open Transaction OrdersRepository

/-! ### The requests -/

/-- A validated `CreateRestaurantDto`. -/
structure ValidRestaurantDto extends CreateRestaurantDto where
  name_length : 2 ≤ name.length ∧ name.length ≤ 160
  item_name_length : ∀ m ∈ menuItems, 2 ≤ m.name.length ∧ m.name.length ≤ 160
  /-- `@Min(0.01)`. -/
  min_price : ∀ m ∈ menuItems, 1 ≤ m.price.hundredths
  min_items : 1 ≤ menuItems.length
  max_items : menuItems.length ≤ 100

/-- A request that writes amounts of money. -/
inductive MoneyRequest
  | createRestaurant (dto : ValidRestaurantDto)
  | createOrder (user : AuthenticatedUser) (dto : CreateOrderDto)

/-- A request, with what its surroundings decide: the identifiers it draws (the row is the
restaurant or the order), where its transaction fails, and the time. -/
structure MoneyAction where
  request : MoneyRequest
  correlationId : Option String
  fresh : FreshIds
  fuse : Option ℕ
  now : ℕ

/-- `RestaurantsRepository.create`: the restaurant with its menu, in one statement.  The
price is a `DECIMAL(12,2)` column. -/
def RestaurantsRepository.create (row : CatalogRow) : DbTx Unit :=
  sql fun db =>
    if ∃ m ∈ row.menuItems, ¬m.price.Fits then .error (.prisma .P2020)
    else
      match Table.insert Restaurant.id row.restaurant.toRestaurant db.restaurants with
      | none => .error (.prisma .P2002)
      | some restaurants =>
        if (db.menuItems ++ row.menuItems).map MenuItem.id |>.Nodup then
          .ok ((), { db with
            restaurants := restaurants, menuItems := db.menuItems ++ row.menuItems })
        else .error (.prisma .P2002)

/-- The lines of an order, once all checks have passed. -/
def pricedLines (db : Db) (dto : CreateOrderDto) : Except Failure (List LineItem) := do
  OrdersService.create dto
  findRestaurant db dto
  priceItems dto (findMenuItems db dto)

/-- The rows `RestaurantsService.create` hands to the repository. -/
def restaurantRow (t : TextRules) (fresh : FreshIds) (dto : CreateRestaurantDto) : CatalogRow :=
  RestaurantsRepository.created fresh.row fresh.item (t.trim dto.name)
    (dto.menuItems.map fun item => { item with name := t.trim item.name })

namespace MoneyAction

/-- A request, from the checks to the commit. -/
def handle (t : TextRules) (db : Db) (a : MoneyAction) : Except Failure Unit × Db :=
  match a.request with
  | .createRestaurant dto =>
    transaction (RestaurantsRepository.create (restaurantRow t a.fresh dto.toCreateRestaurantDto))
      a.fuse db
  | .createOrder user dto =>
    match pricedLines db dto with
    | .error e => (.error e, db)
    | .ok lineItems => transaction (do
        let _ ← createWrite user.id dto a.correlationId lineItems a.fresh a.now
        return ()) a.fuse db

/-- The amounts a request tries to write. -/
def writes (db : Db) (a : MoneyAction) : List Decimal :=
  match a.request with
  | .createRestaurant dto => dto.menuItems.map CreateMenuItemDto.price
  | .createOrder _ dto =>
    match pricedLines db dto with
    | .error _ => []
    | .ok lineItems => totalAmount lineItems ::
        lineItems.flatMap fun l => [l.unitPrice, l.lineTotal]

/-- The amounts fit their columns, and the request does not fail because they do not. -/
def Fits (t : TextRules) (db : Db) (a : MoneyAction) : Prop :=
  (∀ d ∈ a.writes db, d.Fits) ∧ (a.handle t db).1 ≠ .error (.prisma .P2020)

end MoneyAction

/-- The requests, one after another. -/
def moneySystem (t : TextRules) : Transition.Sys Db MoneyAction where
  init db := ∀ m ∈ db.menuItems, 0 < m.price.hundredths ∧ m.price.Fits
  step db a := some (a.handle t db).2

/-! ### The condition -/

/-- The price of a requested menu item, in hundredths. -/
def menuPrice (db : Db) (dto : CreateOrderDto) (requested : CreateOrderItemDto) : ℤ :=
  ((findMenuItems db dto).find? fun m => m.id = requested.menuItemId.value).elim 0
    fun m => m.price.hundredths

/-- What an order comes to at the prices of the menu, in hundredths. -/
def orderValue (db : Db) (dto : CreateOrderDto) : ℤ :=
  (dto.items.map fun i => menuPrice db dto i * i.quantity).sum

/-- Every menu price of the request is below 10^10, and so is what the order comes to,
unless the checks reject it. -/
def MoneyAction.Bounded (db : Db) (a : MoneyAction) : Prop :=
  match a.request with
  | .createRestaurant dto => ∀ m ∈ dto.menuItems, m.price.hundredths < 10 ^ 12
  | .createOrder _ dto => (pricedLines db dto).toBool = true → orderValue db dto < 10 ^ 12

/-! ### What a request can end with -/

theorem mapM_ne_error {α β : Type} {f : α → Except Failure β} {e : Failure} {xs : List α}
    (h : ∀ x, f x ≠ .error e) : xs.mapM f ≠ .error e := by
  induction xs with
  | nil => exact nofun
  | cons x xs ih =>
    rw [List.mapM_cons]
    intro herror
    rcases error_of_bind herror with hx | ⟨y, -, hrest⟩
    · exact h x hx
    · rcases error_of_bind hrest with hxs | ⟨ys, -, hpure⟩
      · exact ih hxs
      · cases hpure

/-- The checks know nothing of columns. -/
theorem pricedLines_ne_overflow (db : Db) (dto : CreateOrderDto) :
    pricedLines db dto ≠ .error (.prisma .P2020) := by
  intro h
  rcases error_of_bind h with hcreate | ⟨_, -, h⟩
  · unfold OrdersService.create at hcreate
    dsimp only at hcreate
    split at hcreate <;> cases hcreate
  rcases error_of_bind h with hrestaurant | ⟨_, -, h⟩
  · unfold findRestaurant at hrestaurant
    split at hrestaurant <;> cases hrestaurant
  · unfold priceItems at h
    split at h
    · cases h
    · refine mapM_ne_error (fun requested hline => ?_) h
      unfold lineItem at hline
      split at hline <;> cases hline

/-- A statement that ends with a code of the database does so on some rows. -/
theorem error_of_fails_sql {α : Type} {f : Db → Except Failure (α × Db)} {code : PrismaCode}
    (h : Fails (sql f) (.prisma code)) : ∃ db, f db = .error (.prisma code) := by
  rcases Fails.statement h with hfault | hdb
  · cases hfault
  · exact hdb

theorem auditCreate_not_overflow {row : AuditLog} :
    ¬Fails (AuditLog.create row) (.prisma .P2020) := by
  intro h
  obtain ⟨db, hdb⟩ := error_of_fails_sql h
  split at hdb <;> cases hdb

theorem eventCreate_not_overflow {row : OutboxEvent} :
    ¬Fails (OutboxEvent.create row) (.prisma .P2020) := by
  intro h
  obtain ⟨db, hdb⟩ := error_of_fails_sql h
  split at hdb <;> cases hdb

/-- An order overflows with its total or with a line. -/
theorem orderCreate_overflow {order : Order} {items : List OrderItem}
    (h : Fails (Order.create order items) (.prisma .P2020)) :
    ¬order.totalAmount.Fits ∨ ∃ i ∈ items, ¬i.unitPrice.Fits ∨ ¬i.lineTotal.Fits := by
  obtain ⟨db, hdb⟩ := error_of_fails_sql h
  split at hdb
  · next hnot => exact hnot
  · split at hdb
    · cases hdb
    · split at hdb <;> cases hdb

/-- A restaurant overflows with a price. -/
theorem restaurantCreate_overflow {row : CatalogRow}
    (h : Fails (RestaurantsRepository.create row) (.prisma .P2020)) :
    ∃ m ∈ row.menuItems, ¬m.price.Fits := by
  obtain ⟨db, hdb⟩ := error_of_fails_sql h
  split at hdb
  · next hnot => exact hnot
  · split at hdb
    · cases hdb
    · split at hdb <;> cases hdb

theorem createWrite_overflow {userId : Uuid} {dto : CreateOrderDto} {correlationId : Option String}
    {lineItems : List LineItem} {fresh : FreshIds} {now : ℕ}
    (h : Fails (createWrite userId dto correlationId lineItems fresh now) (.prisma .P2020)) :
    ¬(totalAmount lineItems).Fits ∨ ∃ l ∈ lineItems, ¬l.unitPrice.Fits ∨ ¬l.lineTotal.Fits := by
  rcases h.bind with horder | ⟨order, h⟩
  · rcases orderCreate_overflow horder with htotal | ⟨i, hi, hnot⟩
    · exact Or.inl htotal
    · obtain ⟨n, hn, rfl⟩ := List.mem_mapIdx.mp hi
      exact Or.inr ⟨_, List.getElem_mem hn, hnot⟩
  rcases h.bind with haudit | ⟨_, h⟩
  · exact absurd haudit auditCreate_not_overflow
  rcases h.bind with hevent | ⟨_, h⟩
  · exact absurd hevent eventCreate_not_overflow
  · exact absurd h Fails.pure

/-! ### Orders -/

section Orders

variable {db : Db} {dto : CreateOrderDto} {lineItems : List LineItem}

theorem priceItems_of_pricedLines (h : pricedLines db dto = .ok lineItems) :
    priceItems dto (findMenuItems db dto) = .ok lineItems := by
  obtain ⟨_, -, h⟩ := bind_eq_ok_iff.mp h
  obtain ⟨_, -, h⟩ := bind_eq_ok_iff.mp h
  exact h

/-- A line comes to the price of the item times the quantity. -/
theorem exact_eq_menuPrice {requested : CreateOrderItemDto} {l : LineItem}
    (h : lineItem (findMenuItems db dto) requested = .ok l) :
    l.exact = menuPrice db dto requested * requested.quantity := by
  have hcanonical : requested.menuItemId.value.text = requested.menuItemId :=
    (canonical_of_lineItem h).1
  -- the map is keyed by texts, and for a text in lower case that is the identifier
  have hkey : (fun m : MenuItem => decide (m.id.text = requested.menuItemId)) =
      fun m : MenuItem => decide (m.id = requested.menuItemId.value) := by
    funext m
    refine decide_eq_decide.mpr ⟨fun htext => ?_, fun hid => ?_⟩
    · rw [← htext, Uuid.value_text]
    · rw [hid, hcanonical]
  unfold lineItem at h
  rw [hkey] at h
  unfold menuPrice
  split at h
  · cases h
  · next m hm =>
    cases h
    rw [hm]
    rfl

theorem exactTotal_eq_orderValue (h : priceItems dto (findMenuItems db dto) = .ok lineItems) :
    exactTotal lineItems = orderValue db dto := by
  have hlines : List.Forall₂ (fun i l => menuPrice db dto i * i.quantity = LineItem.exact l)
      dto.items lineItems :=
    (lineItem_of_priceItems h).imp fun i l hl => (exact_eq_menuPrice hl).symm
  have hmaps : dto.items.map (fun i => menuPrice db dto i * i.quantity) =
      lineItems.map LineItem.exact := by
    rw [← List.forall₂_eq_eq_eq, List.forall₂_map_left_iff, List.forall₂_map_right_iff]
    exact hlines
  rw [exactTotal, orderValue, hmaps]

variable (hmenu : ∀ m ∈ db.menuItems, 0 < m.price.hundredths ∧ m.price.Fits)
  (h : priceItems dto (findMenuItems db dto) = .ok lineItems)
include hmenu h

/-- A line comes to no less than a piece of it, and that is more than nothing. -/
theorem line_bounds {l : LineItem} (hl : l ∈ lineItems) :
    0 < l.unitPrice.hundredths ∧ l.unitPrice.hundredths ≤ l.exact ∧
      l.lineTotal.hundredths = l.exact := by
  obtain ⟨requested, -, hline⟩ := Table.exists_of_forall₂_right (lineItem_of_priceItems h) hl
  obtain ⟨m, hm, -, -, -, hprice, hquantity, -⟩ := exists_of_lineItem hline
  have hpos : 0 < m.price.hundredths := (hmenu m (mem_findMenuItems_iff.mp hm).1).1
  have hfits : ∀ m ∈ findMenuItems db dto, m.price.Fits :=
    fun m hm => (hmenu m (mem_findMenuItems_iff.mp hm).1).2
  rw [hprice]
  refine ⟨hpos, ?_, (exact_of_lineItem hfits hline).1⟩
  rw [LineItem.exact, hprice, hquantity]
  have hone : (1 : ℤ) ≤ requested.quantity := by
    have := requested.min_quantity
    omega
  exact le_mul_of_one_le_right (Int.le_of_lt hpos) hone

/-- No line comes to more than the order. -/
theorem exact_le_orderValue {l : LineItem} (hl : l ∈ lineItems) :
    l.exact ≤ orderValue db dto := by
  rw [← exactTotal_eq_orderValue h]
  refine List.single_le_sum (fun k hk => ?_) _ (List.mem_map_of_mem hl)
  obtain ⟨l', hl', rfl⟩ := List.mem_map.mp hk
  obtain ⟨hpos, hle, -⟩ := line_bounds hmenu h hl'
  omega

/-- **The amounts of an order fit exactly when what it comes to is below the bound.** -/
theorem order_fits_iff :
    ((totalAmount lineItems).Fits ∧ ∀ l ∈ lineItems, l.unitPrice.Fits ∧ l.lineTotal.Fits) ↔
      orderValue db dto < 10 ^ 12 := by
  have hfits : ∀ m ∈ findMenuItems db dto, m.price.Fits :=
    fun m hm => (hmenu m (mem_findMenuItems_iff.mp hm).1).2
  have htotal : (totalAmount lineItems).hundredths = orderValue db dto := by
    rw [totalAmount_of_priceItems hfits h, exactTotal_eq_orderValue h]
  have hnonneg : 0 ≤ orderValue db dto := by
    rw [← exactTotal_eq_orderValue h]
    refine List.sum_nonneg fun k hk => ?_
    obtain ⟨l, hl, rfl⟩ := List.mem_map.mp hk
    obtain ⟨hpos, hle, -⟩ := line_bounds hmenu h hl
    omega
  constructor
  · rintro ⟨hfit, -⟩
    unfold Decimal.Fits at hfit
    omega
  · intro hbound
    refine ⟨?_, fun l hl => ?_⟩
    · unfold Decimal.Fits
      omega
    · obtain ⟨hpos, hle, hline⟩ := line_bounds hmenu h hl
      have hle' := exact_le_orderValue hmenu h hl
      unfold Decimal.Fits
      omega

end Orders

/-! ### One request -/

variable {t : TextRules} {db : Db} {a : MoneyAction}

/-- A request whose amounts fit does not overflow. -/
theorem not_overflow_of_writes_fit (h : ∀ d ∈ a.writes db, d.Fits) :
    (a.handle t db).1 ≠ .error (.prisma .P2020) := by
  intro herror
  unfold MoneyAction.handle at herror
  unfold MoneyAction.writes at h
  split at herror
  · next dto hdto =>
    rw [hdto] at h
    obtain ⟨m, hm, hnot⟩ := restaurantCreate_overflow (fails_of_transaction herror)
    -- the row has the prices of the request
    obtain ⟨⟨item, n⟩, hitem, rfl⟩ := List.mem_map.mp hm
    have hmem := List.mem_of_getElem? (List.mk_mem_zipIdx_iff_getElem?.mp hitem)
    obtain ⟨item', hitem', rfl⟩ := List.mem_map.mp hmem
    exact hnot (h _ (List.mem_map_of_mem hitem'))
  · next user dto hdto =>
    rw [hdto] at h
    dsimp only at h
    split at herror
    · next e he =>
      cases herror
      exact pricedLines_ne_overflow db dto he
    · next lineItems hlines =>
      rw [hlines] at h
      rcases (fails_of_transaction herror).bind with hwrite | ⟨_, hpure⟩
      · rcases createWrite_overflow hwrite with htotal | ⟨l, hl, hnot⟩
        · exact htotal (h _ List.mem_cons_self)
        · have hunit : l.unitPrice.Fits :=
            h _ (List.mem_cons_of_mem _ (List.mem_flatMap.mpr ⟨l, hl, by simp⟩))
          have hline : l.lineTotal.Fits :=
            h _ (List.mem_cons_of_mem _ (List.mem_flatMap.mpr ⟨l, hl, by simp⟩))
          exact hnot.elim (fun h => h hunit) fun h => h hline
      · exact Fails.pure hpure

theorem forall_mem_amounts_iff {P : Decimal → Prop} {total : Decimal} {lineItems : List LineItem} :
    (∀ d ∈ total :: lineItems.flatMap fun l => [l.unitPrice, l.lineTotal], P d) ↔
      P total ∧ ∀ l ∈ lineItems, P l.unitPrice ∧ P l.lineTotal := by
  rw [List.forall_mem_cons, List.forall_mem_flatMap]
  simp

/-- **One request fits exactly when its amounts are bounded.** -/
theorem fits_iff_bounded (hmenu : ∀ m ∈ db.menuItems, 0 < m.price.hundredths ∧ m.price.Fits) :
    a.Fits t db ↔ a.Bounded db := by
  have hwrites : (∀ d ∈ a.writes db, d.Fits) ↔ a.Bounded db := by
    unfold MoneyAction.writes MoneyAction.Bounded
    split
    · next dto _ =>
      rw [List.forall_mem_map]
      refine forall₂_congr fun m hm => ?_
      have hpos := dto.min_price m hm
      unfold Decimal.Fits
      omega
    · next user dto _ =>
      split
      · next e he =>
        rw [he]
        exact iff_of_true nofun nofun
      · next lineItems hlines =>
        rw [hlines, forall_mem_amounts_iff,
          order_fits_iff hmenu (priceItems_of_pricedLines hlines)]
        exact ⟨fun hbound _ => hbound, fun hbound => hbound rfl⟩
  exact ⟨fun h => hwrites.mp h.1,
    fun h => ⟨hwrites.mpr h, not_overflow_of_writes_fit (hwrites.mpr h)⟩⟩

/-! ### Runs -/

theorem RestaurantsRepository.create_commits {row : CatalogRow} {db' : Db} {u : Unit}
    (h : Commits (RestaurantsRepository.create row) db u db') :
    (∀ m ∈ row.menuItems, m.price.Fits) ∧ db'.menuItems = db.menuItems ++ row.menuItems := by
  unfold RestaurantsRepository.create at h
  have h := eq_ok_of_commits_sql h
  split at h
  · cases h
  · next hfits =>
    push Not at hfits
    split at h
    · cases h
    · split at h
      · cases h
        exact ⟨hfits, rfl⟩
      · cases h

/-- **A request leaves prices on the menu that are positive and fit.** -/
theorem menu_of_handle (hmenu : ∀ m ∈ db.menuItems, 0 < m.price.hundredths ∧ m.price.Fits) :
    ∀ m ∈ (a.handle t db).2.menuItems, 0 < m.price.hundredths ∧ m.price.Fits := by
  unfold MoneyAction.handle
  split
  · next dto _ =>
    cases hresult : (transaction (RestaurantsRepository.create
        (restaurantRow t a.fresh dto.toCreateRestaurantDto)) a.fuse db).1 with
    | error e =>
      rw [transaction_error hresult]
      exact hmenu
    | ok u =>
      obtain ⟨hfits, hrows⟩ :=
        RestaurantsRepository.create_commits (commits_of_transaction hresult)
      intro m hm
      rw [hrows] at hm
      rcases List.mem_append.mp hm with hold | hnew
      · exact hmenu m hold
      · refine ⟨?_, hfits m hnew⟩
        obtain ⟨⟨item, n⟩, hitem, rfl⟩ := List.mem_map.mp hnew
        have hmem := List.mem_of_getElem? (List.mk_mem_zipIdx_iff_getElem?.mp hitem)
        obtain ⟨item', hitem', rfl⟩ := List.mem_map.mp hmem
        exact dto.min_price item' hitem'
  · next user dto _ =>
    split
    · exact hmenu
    · next lineItems _ =>
      cases hresult : (transaction (do
          let _ ← createWrite user.id dto a.correlationId lineItems a.fresh a.now
          return ()) a.fuse db).1 with
      | error e =>
        rw [transaction_error hresult]
        exact hmenu
      | ok u =>
        obtain ⟨o, db₁, hwrite, hpure⟩ := (commits_of_transaction hresult).bind
        rw [hpure.pure.2, (createWrite_commits hwrite).2.2.2.2]
        exact hmenu

/-- **No accepted request overflows exactly when every one is bounded**: in every run of
requests, the amounts they try to write fit their columns, and none fails because they do
not, if and only if every menu price created is below 10^10 and so is what every order
comes to that passes its checks. -/
theorem money_fits_iff {db₀ : Db} {as : List MoneyAction} (h0 : (moneySystem t).init db₀) :
    (∀ v a v', (moneySystem t).Takes db₀ as v a v' → a.Fits t v) ↔
      ∀ v a v', (moneySystem t).Takes db₀ as v a v' → a.Bounded v := by
  have hmenu : ∀ v a v', (moneySystem t).Takes db₀ as v a v' →
      ∀ m ∈ v.menuItems, 0 < m.price.hundredths ∧ m.price.Fits := by
    intro v a v' htakes
    refine (htakes.reachable (.init h0)).invariant (fun v hv => hv) ?_
    intro v a v' _ hv hstep
    cases hstep
    exact menu_of_handle hv
  constructor
  · intro hfits v a v' htakes
    exact (fits_iff_bounded (hmenu v a v' htakes)).mp (hfits v a v' htakes)
  · intro hbounded v a v' htakes
    exact (fits_iff_bounded (hmenu v a v' htakes)).mpr (hbounded v a v' htakes)

/-! ### Samples -/

/-- A restaurant with one dish. -/
def bistro (hundredths : ℤ) (h : 1 ≤ hundredths) : ValidRestaurantDto where
  name := "Bistro"
  menuItems := [⟨"Soup", ⟨hundredths⟩⟩]
  name_length := by decide
  item_name_length := fun m hm => by
    rw [List.mem_singleton.mp hm]
    exact (by decide : 2 ≤ "Soup".length ∧ "Soup".length ≤ 160)
  min_price := fun m hm => by rwa [List.mem_singleton.mp hm]
  min_items := by simp
  max_items := by simp

/-- The request opens the restaurant; its dish has the nibble `7`. -/
def openBistro (hundredths : ℤ) (h : 1 ≤ hundredths) : MoneyAction :=
  ⟨.createRestaurant (bistro hundredths h), none,
    { (Choice.sample 3).fresh with item := fun _ => Uuid.repeated 7 }, none, 0⟩

/-- The customer orders three pieces of the dish. -/
def orderSoup : MoneyAction :=
  ⟨.createOrder customer ⟨(Uuid.repeated 3).text,
    [⟨(Uuid.repeated 7).text, 3, by decide, by decide⟩], by decide, by decide⟩, none,
    (Choice.sample 4).fresh, none, 0⟩

theorem sample_menu : (moneySystem .sample).init World.sample.db := by
  intro m hm
  rw [List.mem_singleton.mp hm]
  decide

/-- Three pieces of a dish at 12.50 come to 37.50, and every amount fits. -/
theorem sample_money_fits :
    orderSoup.writes ((openBistro 1250 (by decide)).handle .sample World.sample.db).2 =
      [⟨3750⟩, ⟨1250⟩, ⟨3750⟩] ∧
    ∀ v a v', (moneySystem .sample).Takes World.sample.db
      [openBistro 1250 (by decide), orderSoup] v a v' → a.Fits .sample v := by
  refine ⟨by decide, (money_fits_iff sample_menu).mpr ?_⟩
  intro v a v' htakes
  cases htakes with
  | here h =>
    intro m hm
    rw [List.mem_singleton.mp hm]
    decide
  | there h hrest =>
    cases h
    cases hrest with
    | here h =>
      intro _
      decide
    | there _ hnone => cases hnone

/-- **A price of 10000000000 is accepted and overflows its column.** -/
theorem price_overflows :
    ((openBistro (10 ^ 12) (by decide)).handle .sample World.sample.db).1 =
      .error (.prisma .P2020) ∧
    ¬∀ (t : TextRules) (db₀ : Db) (as : List MoneyAction), (moneySystem t).init db₀ →
      ∀ v a v', (moneySystem t).Takes db₀ as v a v' → a.Fits t v := by
  have hcode : ((openBistro (10 ^ 12) (by decide)).handle .sample World.sample.db).1 =
      .error (.prisma .P2020) := by rfl
  refine ⟨hcode, fun h => ?_⟩
  exact (h .sample World.sample.db [openBistro (10 ^ 12) (by decide)] sample_menu _ _ _
    (.here rfl)).2 hcode

end ScaleForge
