import ScaleForge.Catalog
import ScaleForge.Lib.Listing
import ScaleForge.Orders
import Mathlib.Data.List.Lex
import Mathlib.Data.Prod.Lex

/-!
# Listing orders

`OrdersService.list` and `OrdersRepository.list`: the filters of the query and the
scope of the caller make one condition, the rows that meet it are ordered by time
and identifier, and a page of them is returned with the number of all.

PostgreSQL orders `uuid` values by their digits.  The relations that have no order
of their own come in the order of their table.

## Main definitions

* `OrderTables` — the tables a listing reads.
* `OrderWhereInput` — the condition, and the rows that meet it.
* `OrdersRepository.list`, `OrdersService.list` — a page.
* `Pagination` — what the pages of a query are together.
* `OrderTables.AgreeFor` — two states show a user the same orders.

## Main results

* `orders_paginated` — **the pages of a query partition what the caller may see, and
  show a user nothing else.**
-/

namespace ScaleForge

/-! ### Rows and tables -/

/-- An order with all its columns. -/
structure OrderRow extends Order where
  updatedAt : ℕ
  deriving DecidableEq

/-- A payment with all its columns. -/
structure PaymentRow extends Payment where
  updatedAt : ℕ
  deriving DecidableEq

/-- The tables a listing reads. -/
structure OrderTables where
  orders : List OrderRow
  orderItems : List OrderItem
  payments : List PaymentRow
  restaurants : List CatalogRestaurant
  /-- The primary key of `orders`. -/
  orders_unique : Table.UniqueOn (fun o => o.id) orders

/-- The columns a listing is ordered by: `createdAt`, then `id`. -/
def OrderRow.key (o : OrderRow) : ℕ ×ₗ List (Fin 16) := toLex (o.createdAt, o.id.nibbles)

theorem OrderRow.id_eq_of_key {o o' : OrderRow} (h : o.key = o'.key) : o.id = o'.id := by
  obtain ⟨-, hnibbles⟩ := Prod.mk.inj (toLex.injective h)
  cases hid : o.id with
  | mk nibbles length_nibbles =>
    cases hid' : o'.id with
    | mk nibbles' length_nibbles' =>
      rw [hid, hid'] at hnibbles
      cases hnibbles
      rfl

theorem OrderTables.keys_nodup (db : OrderTables) : (db.orders.map OrderRow.key).Nodup := by
  refine List.pairwise_map.mpr ((List.pairwise_map.mp db.orders_unique).imp ?_)
  intro o o' hne hkey
  exact hne (OrderRow.id_eq_of_key hkey)

/-! ### The query -/

/-- A date text that `IsDateString` accepts and `new Date` reads. -/
structure DateText (newDate : String → Option ℤ) where
  text : String
  text_ne : text ≠ ""
  valid : (newDate text).isSome = true

/-- The time of a date text, in milliseconds. -/
def DateText.time {newDate : String → Option ℤ} (d : DateText newDate) : ℤ :=
  (newDate d.text).get d.valid

/-- A validated query. -/
structure ListOrdersQueryDto (newDate : String → Option ℤ) where
  page : ℕ := 1
  min_page : 1 ≤ page
  limit : ℕ := 20
  min_limit : 1 ≤ limit
  max_limit : limit ≤ 100
  status : Option OrderStatus
  restaurantId : Option UuidText
  createdFrom : Option (DateText newDate)
  createdTo : Option (DateText newDate)

/-- The condition of a listing.  A column that is left out is not restricted. -/
structure OrderWhereInput where
  userId : Option Uuid
  status : Option OrderStatus
  restaurantId : Option UuidText
  /-- `createdAt.gte`. -/
  gte : Option ℤ
  /-- `createdAt.lte`. -/
  lte : Option ℤ

/-- The row meets the condition; PostgreSQL compares identifiers as values. -/
def OrderWhereInput.meets (w : OrderWhereInput) (o : OrderRow) : Bool :=
  (w.userId.all fun id => o.userId = id) && (w.status.all fun status => o.status = status) &&
    (w.restaurantId.all fun id => o.restaurantId = id.value) &&
    (w.gte.all fun time => time ≤ (o.createdAt : ℤ)) &&
    (w.lte.all fun time => (o.createdAt : ℤ) ≤ time)

/-! ### The response -/

/-- `restaurant: { select: { id: true, name: true } }`. -/
structure RestaurantRef where
  id : Uuid
  name : String
  deriving DecidableEq

/-- An order with the relations of `orderInclude`. -/
structure ListedOrder where
  order : OrderRow
  restaurant : Option RestaurantRef
  items : List OrderItem
  payments : List PaymentRow

structure ListMeta where
  page : ℕ
  limit : ℕ
  total : ℕ
  pages : ℕ

structure ListOrdersResponse where
  data : List ListedOrder
  /-- `meta`. -/
  pageMeta : ListMeta

/-- `orderInclude`. -/
def orderInclude (db : OrderTables) (o : OrderRow) : ListedOrder where
  order := o
  restaurant := (db.restaurants.find? fun r => r.id = o.restaurantId).map fun r => ⟨r.id, r.name⟩
  items := db.orderItems.filter fun i => i.orderId = o.id
  payments := (db.payments.filter fun p => p.orderId = o.id).insertionSort
    fun p p' => p'.createdAt ≤ p.createdAt

section List

variable {newDate : String → Option ℤ}

namespace OrdersRepository

/-- The `where` of `list`, for the rows and for their number. -/
def listWhere (query : ListOrdersQueryDto newDate) (userId : Option Uuid) : OrderWhereInput where
  userId := userId
  status := query.status
  restaurantId := query.restaurantId
  gte := query.createdFrom.map DateText.time
  lte := query.createdTo.map DateText.time

/-- `list`. -/
def list (db : OrderTables) (query : ListOrdersQueryDto newDate) (userId : Option Uuid) :
    ListOrdersResponse :=
  let w := listWhere query userId
  let total := db.orders.countP w.meets
  { data := (Listing.page (Listing.descending w.meets OrderRow.key db.orders)
      ((query.page - 1) * query.limit) query.limit).map (orderInclude db)
    pageMeta := ⟨query.page, query.limit, total, Listing.pages total query.limit⟩ }

end OrdersRepository

/-- `list` of the service: an ordinary user sees the orders of their own. -/
def OrdersService.list (db : OrderTables) (user : AuthenticatedUser)
    (query : ListOrdersQueryDto newDate) : ListOrdersResponse :=
  OrdersRepository.list db query (if user.role = .user then some user.id else none)

/-! ### What the pages are together -/

/-- The order is in the scope of the caller. -/
def AuthenticatedUser.mayList (user : AuthenticatedUser) (o : OrderRow) : Prop :=
  user.role = .user → o.userId = user.id

/-- The order matches the filters of the query. -/
structure ListOrdersQueryDto.Matches (query : ListOrdersQueryDto newDate) (o : OrderRow) :
    Prop where
  status : ∀ status, query.status = some status → o.status = status
  restaurantId : ∀ id, query.restaurantId = some id → o.restaurantId = id.value
  createdFrom : ∀ d, query.createdFrom = some d → d.time ≤ o.createdAt
  createdTo : ∀ d, query.createdTo = some d → (o.createdAt : ℤ) ≤ d.time

/-- The query for another page, counted from zero. -/
def ListOrdersQueryDto.at (query : ListOrdersQueryDto newDate) (n : ℕ) :
    ListOrdersQueryDto newDate :=
  { query with page := n + 1, min_page := Nat.succ_pos n }

/-- The order comes before the other: it is newer, or as new with the greater
identifier. -/
def OrderRow.Precedes (o o' : OrderRow) : Prop :=
  o'.createdAt < o.createdAt ∨ o'.createdAt = o.createdAt ∧ o'.id.nibbles < o.id.nibbles

/-- The data of the pages of a query, put together. -/
def listing (db : OrderTables) (user : AuthenticatedUser) (query : ListOrdersQueryDto newDate) :
    List ListedOrder :=
  (List.range (OrdersService.list db user query).pageMeta.pages).flatMap fun n =>
    (OrdersService.list db user (query.at n)).data

/-- Two states of the database agree on the orders of a user, with their items,
payments and restaurants. -/
structure OrderTables.AgreeFor (id : Uuid) (db db' : OrderTables) : Prop where
  orders : ∀ o, o.userId = id → (o ∈ db.orders ↔ o ∈ db'.orders)
  items : ∀ o ∈ db.orders, o.userId = id →
    (db.orderItems.filter fun i => i.orderId = o.id) =
      db'.orderItems.filter fun i => i.orderId = o.id
  payments : ∀ o ∈ db.orders, o.userId = id →
    (db.payments.filter fun p => p.orderId = o.id) =
      db'.payments.filter fun p => p.orderId = o.id
  restaurants : ∀ o ∈ db.orders, o.userId = id →
    (db.restaurants.find? fun r => r.id = o.restaurantId) =
      db'.restaurants.find? fun r => r.id = o.restaurantId

/-- The pages of a query are a partition of what the caller may see, in order, and show
an ordinary user nothing else. -/
structure Pagination (db : OrderTables) (user : AuthenticatedUser)
    (query : ListOrdersQueryDto newDate) : Prop where
  /-- The orders listed are those that match the query and that the caller may see. -/
  mem_iff : ∀ o, o ∈ (listing db user query).map ListedOrder.order ↔
    o ∈ db.orders ∧ query.Matches o ∧ user.mayList o
  /-- Each comes with its relations. -/
  included : ∀ l ∈ listing db user query, l = orderInclude db l.order
  /-- Each is listed once. -/
  nodup : ((listing db user query).map ListedOrder.order).Nodup
  /-- The newest comes first, and the greater identifier breaks ties. -/
  ordered : ((listing db user query).map ListedOrder.order).Pairwise OrderRow.Precedes
  /-- Every page but the last is full. -/
  full : ∀ n, n + 1 < (OrdersService.list db user query).pageMeta.pages →
    (OrdersService.list db user (query.at n)).data.length = query.limit
  /-- Every page tells how many orders and pages there are. -/
  counted : ∀ n, (OrdersService.list db user (query.at n)).pageMeta =
    ⟨n + 1, query.limit, (listing db user query).length,
      (OrdersService.list db user query).pageMeta.pages⟩
  /-- What a user is shown depends on their own orders alone. -/
  confined : user.role = .user → ∀ db', db.AgreeFor user.id db' →
    OrdersService.list db' user query = OrdersService.list db user query

/-! ### The condition -/

theorem meets_listWhere_iff {user : AuthenticatedUser} {query : ListOrdersQueryDto newDate}
    {o : OrderRow} :
    (OrdersRepository.listWhere query
      (if user.role = .user then some user.id else none)).meets o = true ↔
        query.Matches o ∧ user.mayList o := by
  have huser : ((if user.role = .user then some user.id else none).all fun id =>
      decide (o.userId = id)) = true ↔ user.mayList o := by
    unfold AuthenticatedUser.mayList
    split
    · next hrole => simp [hrole]
    · next hrole => simp [hrole]
  simp only [OrderWhereInput.meets, OrdersRepository.listWhere, Bool.and_eq_true, huser,
    Option.all_eq_true, decide_eq_true_eq, Option.map_eq_some_iff, forall_exists_index, and_imp,
    forall_apply_eq_imp_iff₂]
  constructor
  · rintro ⟨⟨⟨⟨hscope, hstatus⟩, hrestaurant⟩, hfrom⟩, hto⟩
    exact ⟨⟨hstatus, hrestaurant, hfrom, hto⟩, hscope⟩
  · rintro ⟨⟨hstatus, hrestaurant, hfrom, hto⟩, hscope⟩
    exact ⟨⟨⟨⟨hscope, hstatus⟩, hrestaurant⟩, hfrom⟩, hto⟩

/-! ### The pages -/

/-- The orders the caller may see that match the query, in order. -/
def visible (db : OrderTables) (user : AuthenticatedUser) (query : ListOrdersQueryDto newDate) :
    List OrderRow :=
  Listing.descending (OrdersRepository.listWhere query
    (if user.role = .user then some user.id else none)).meets OrderRow.key db.orders

variable {db db' : OrderTables} {user : AuthenticatedUser} {query : ListOrdersQueryDto newDate}

theorem mem_visible_iff {o : OrderRow} :
    o ∈ visible db user query ↔ o ∈ db.orders ∧ query.Matches o ∧ user.mayList o := by
  rw [visible, Listing.mem_descending_iff, meets_listWhere_iff]

/-- The page of a query, from the orders the caller may see. -/
theorem list_eq : OrdersService.list db user query =
    ⟨(Listing.page (visible db user query) ((query.page - 1) * query.limit) query.limit).map
        (orderInclude db),
      query.page, query.limit, (visible db user query).length,
      Listing.pages (visible db user query).length query.limit⟩ := by
  rw [visible, Listing.length_descending]
  rfl

/-- **The pages, put together, have the orders the caller may see.** -/
theorem listing_eq : listing db user query = (visible db user query).map (orderInclude db) := by
  have hdata : ∀ n, (OrdersService.list db user (query.at n)).data =
      (Listing.page (visible db user query) (n * query.limit) query.limit).map
        (orderInclude db) := by
    intro n
    rw [list_eq]
    rfl
  have hpages : (OrdersService.list db user query).pageMeta.pages =
      Listing.pages (visible db user query).length query.limit := by
    rw [list_eq]
  unfold listing
  simp only [hdata, hpages]
  rw [← List.map_flatMap, Listing.flatMap_page query.min_limit]

theorem map_order_listing : (listing db user query).map ListedOrder.order =
    visible db user query := by
  rw [listing_eq, List.map_map]
  exact List.map_id _

/-- Two states that agree on a user's orders show the user the same. -/
theorem list_congr (hrole : user.role = .user) (h : db.AgreeFor user.id db') :
    OrdersService.list db' user query = OrdersService.list db user query := by
  have hvisible : visible db' user query = visible db user query := by
    refine Listing.descending_congr db'.keys_nodup db.keys_nodup fun o ho => ?_
    have hown : o.userId = user.id := (meets_listWhere_iff.mp ho).2 hrole
    exact (h.orders o hown).symm
  have hinclude : ∀ o ∈ visible db user query, orderInclude db' o = orderInclude db o := by
    intro o ho
    obtain ⟨hmem, -, hscope⟩ := mem_visible_iff.mp ho
    have hown : o.userId = user.id := hscope hrole
    unfold orderInclude
    rw [h.items o hmem hown, h.payments o hmem hown, h.restaurants o hmem hown]
  rw [list_eq, list_eq, hvisible]
  congr 1
  refine List.map_congr_left fun o ho => hinclude o ?_
  exact List.mem_of_mem_drop (List.mem_of_mem_take ho)

/-- **Pagination is a partition and leaks nothing.**  The pages of a query, put together,
list every order that matches it and that the caller may see, once, the newest first;
every page but the last is full, and the counts are right.  What an ordinary user is
shown depends on that user's own orders alone. -/
theorem orders_paginated (db : OrderTables) (user : AuthenticatedUser)
    (query : ListOrdersQueryDto newDate) : Pagination db user query where
  mem_iff o := by rw [map_order_listing, mem_visible_iff]
  included := by
    intro l hl
    rw [listing_eq] at hl
    obtain ⟨o, -, rfl⟩ := List.mem_map.mp hl
    rfl
  nodup := by
    rw [map_order_listing]
    exact (Listing.nodup_descending db.keys_nodup).of_map
  ordered := by
    rw [map_order_listing]
    refine (Listing.pairwise_descending db.keys_nodup).imp fun {o o'} hlt => ?_
    rcases Prod.Lex.toLex_lt_toLex.mp hlt with htime | ⟨htime, hid⟩
    · exact Or.inl htime
    · exact Or.inr ⟨htime, hid⟩
  full n hn := by
    rw [list_eq] at hn ⊢
    rw [List.length_map]
    exact Listing.length_page query.min_limit hn
  counted n := by
    rw [listing_eq, List.length_map, list_eq, list_eq]
    rfl
  confined hrole db' h := list_congr hrole h

end List

end ScaleForge
