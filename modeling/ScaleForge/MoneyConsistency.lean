import ScaleForge.Overpayment

/-!
# Money

An order is priced once, from the menu its transaction reads, and written with what
was computed.  The arithmetic is that of twenty significant digits: fifty lines of
fifty pieces at any price a `DECIMAL(12,2)` column can hold stay far below that, so
every product and every partial sum is exact.  What is written is not touched again:
an order keeps its total, its lines and its payments whatever happens to the menu, to
its status or to other orders.

## Main definitions

* `LineItem.exact`, `exactTotal` — what lines come to, without rounding.
* `storablePrices` — the runs in which the menu holds prices that fit their column.
* `PricedBy` — a request has read the menu, in a run, and priced its lines from it.
* `Order.Consistent`, `Order.PricedIn` — the amounts of an order, and where they come
  from.

## Main results

* `exact_of_priceItems` — pricing from storable prices is exact.
* `origin_of_orders` — every order was written by the request that priced it.
* `money_consistent` — **the amounts of an order are exact, come from the menu that
  was read, and stay.**
-/

namespace ScaleForge

open Transaction OrdersRepository

/-! ### Exact amounts -/

/-- What a line comes to, in hundredths. -/
def OrdersRepository.LineItem.exact (l : LineItem) : ℤ := l.unitPrice.hundredths * l.quantity

/-- What lines come to, in hundredths. -/
def exactTotal (lineItems : List LineItem) : ℤ := (lineItems.map LineItem.exact).sum

/-- The value is storable in a `DECIMAL(12,2)` column. -/
def Storable (hundredths : ℤ) : Prop := hundredths.natAbs < 10 ^ 12

/-- A request that goes through gives one result for each of its parts. -/
theorem forall₂_of_mapM_eq_ok {α β ε : Type} {f : α → Except ε β} {xs : List α} {ys : List β}
    (h : xs.mapM f = .ok ys) : List.Forall₂ (fun x y => f x = .ok y) xs ys := by
  induction xs generalizing ys with
  | nil =>
    cases h
    exact .nil
  | cons x xs ih =>
    rw [List.mapM_cons] at h
    cases hx : f x with
    | error e =>
      rw [hx] at h
      cases h
    | ok y =>
      cases hxs : xs.mapM f with
      | error e =>
        rw [hx, hxs] at h
        cases h
      | ok ys' =>
        rw [hx, hxs] at h
        cases h
        exact .cons hx (ih hxs)

section Pricing

variable {dto : CreateOrderDto} {menuItems : List MenuItem} {lineItems : List LineItem}

/-- Each requested item has been priced from the menu item it names. -/
theorem lineItem_of_priceItems (h : priceItems dto menuItems = .ok lineItems) :
    List.Forall₂ (fun requested l => lineItem menuItems requested = .ok l) dto.items
      lineItems := by
  unfold priceItems at h
  split at h
  · cases h
  · exact forall₂_of_mapM_eq_ok h

/-- The menu item a line comes from. -/
theorem exists_of_lineItem {requested : CreateOrderItemDto} {l : LineItem}
    (h : lineItem menuItems requested = .ok l) :
    ∃ m ∈ menuItems, m.id.text = requested.menuItemId ∧ l.menuItemId = m.id ∧ l.name = m.name ∧
      l.unitPrice = m.price ∧ l.quantity = requested.quantity ∧
      l.lineTotal = m.price.mul requested.quantity := by
  unfold lineItem at h
  split at h
  · cases h
  · next m hm =>
    cases h
    have hid := List.find?_some hm
    rw [decide_eq_true_eq] at hid
    exact ⟨m, List.mem_of_find?_eq_some hm, hid, rfl, rfl, rfl, rfl, rfl⟩

/-- The most a line can come to: fifty pieces at a storable price. -/
def lineBound : ℕ := 50 * 10 ^ 12

/-- A line of a storable price is exact, and not large. -/
theorem exact_of_lineItem {requested : CreateOrderItemDto} {l : LineItem}
    (hfits : ∀ m ∈ menuItems, m.price.Fits) (h : lineItem menuItems requested = .ok l) :
    l.lineTotal.hundredths = l.exact ∧ l.exact.natAbs ≤ lineBound := by
  obtain ⟨m, hm, -, -, -, hprice, hquantity, htotal⟩ := exists_of_lineItem h
  have hbound : l.exact.natAbs ≤ lineBound := by
    have hp : m.price.hundredths.natAbs ≤ 10 ^ 12 := Nat.le_of_lt (hfits m hm)
    rw [LineItem.exact, hprice, hquantity, Int.natAbs_mul, Int.natAbs_natCast, lineBound,
      Nat.mul_comm 50]
    exact Nat.mul_le_mul hp requested.max_quantity
  refine ⟨?_, hbound⟩
  have hexact : m.price.hundredths * requested.quantity = l.exact := by
    rw [LineItem.exact, hprice, hquantity]
  rw [htotal, Decimal.mul_hundredths, hexact]
  rw [hexact]
  exact Nat.lt_of_le_of_lt hbound (by decide)

theorem length_le_of_priceItems (h : priceItems dto menuItems = .ok lineItems) :
    lineItems.length ≤ 50 := by
  rw [← (lineItem_of_priceItems h).length_eq]
  exact dto.max_items

variable (hfits : ∀ m ∈ menuItems, m.price.Fits) (h : priceItems dto menuItems = .ok lineItems)
include hfits h

/-- **Pricing from storable prices is exact**, line by line. -/
theorem exact_of_priceItems :
    ∀ l ∈ lineItems, l.lineTotal.hundredths = l.exact ∧ l.exact.natAbs ≤ lineBound := by
  intro l hl
  obtain ⟨requested, -, hline⟩ := Table.exists_of_forall₂_right (lineItem_of_priceItems h) hl
  exact exact_of_lineItem hfits hline

/-- The sum of the first lines. -/
theorem natAbs_exactTotal_take_le (n : ℕ) :
    (exactTotal (lineItems.take n)).natAbs ≤ 50 * lineBound := by
  have hlength := length_le_of_priceItems h
  have hsum : (exactTotal (lineItems.take n)).natAbs ≤
      ((lineItems.take n).map LineItem.exact).length * lineBound := by
    refine Decimal.natAbs_sum_le fun k hk => ?_
    obtain ⟨l, hl, rfl⟩ := List.mem_map.mp hk
    exact (exact_of_priceItems hfits h l (List.mem_of_mem_take hl)).2
  refine hsum.trans (Nat.mul_le_mul_right _ ?_)
  rw [List.length_map, List.length_take]
  omega

/-- The total is the exact sum. -/
theorem totalAmount_of_priceItems : (totalAmount lineItems).hundredths = exactTotal lineItems := by
  have hlines := exact_of_priceItems hfits h
  have hlength := length_le_of_priceItems h
  have hfold : totalAmount lineItems =
      (lineItems.map LineItem.lineTotal).foldl Decimal.add .zero := by
    rw [totalAmount, List.foldl_map]
  rw [hfold, Decimal.foldl_add_hundredths lineBound]
  · have hsame : (lineItems.map LineItem.lineTotal).map Decimal.hundredths =
        lineItems.map LineItem.exact := by
      rw [List.map_map]
      exact List.map_congr_left fun l hl => (hlines l hl).1
    rw [hsame, exactTotal, Decimal.zero, Int.zero_add]
  · intro d hd
    obtain ⟨l, hl, rfl⟩ := List.mem_map.mp hd
    rw [(hlines l hl).1]
    exact (hlines l hl).2
  · rw [List.length_map]
    have hsum : lineItems.length * lineBound ≤ 50 * lineBound := Nat.mul_le_mul_right _ hlength
    exact Nat.lt_of_le_of_lt (Nat.add_le_add_left hsum _) (by decide)

/-- **No product and no partial sum needs more digits than are kept.** -/
theorem significantDigits_of_priceItems :
    (∀ l ∈ lineItems, Decimal.significantDigits l.exact ≤ Decimal.precision) ∧
    ∀ n, Decimal.significantDigits (exactTotal (lineItems.take n)) ≤ Decimal.precision := by
  refine ⟨?_, ?_⟩
  · intro l hl
    refine Decimal.significantDigits_le (by decide) ?_
    exact Nat.lt_of_le_of_lt (exact_of_priceItems hfits h l hl).2 (by decide)
  · intro n
    refine Decimal.significantDigits_le (by decide) ?_
    exact Nat.lt_of_le_of_lt (natAbs_exactTotal_take_le hfits h n) (by decide)

end Pricing

/-! ### Where the orders of a run come from -/

/-- The item rows of an order. -/
def Db.itemsOf (db : Db) (orderId : Uuid) : List OrderItem :=
  db.orderItems.filter fun x => x.orderId = orderId

/-- In the run `as` from `w₀`, the request `i` has read the menu and priced its
lines from it. -/
def PricedBy (w₀ : World) (as : List Action) (i : ℕ) (user : AuthenticatedUser)
    (dto : CreateOrderDto) (correlationId : Option String) (lineItems : List LineItem) : Prop :=
  ∃ t c t', system.Takes w₀ as t (.advance i c) t' ∧
    t.calls i = some ⟨.createOrder user dto, correlationId, .createMenu⟩ ∧
    priceItems dto (findMenuItems t.db dto) = .ok lineItems

/-- An order was written by a request that has priced it, and its items are the lines
that were priced. -/
def Order.WrittenBy (w₀ : World) (as : List Action) (w : World) (o : Order) : Prop :=
  ∃ i user dto correlationId lineItems fresh now,
    PricedBy w₀ as i user dto correlationId lineItems ∧
    w.calls i = some ⟨.createOrder user dto, correlationId,
      .returned (.order (newOrder user.id dto lineItems fresh now))⟩ ∧
    (newOrder user.id dto lineItems fresh now).Evolves o ∧
    w.db.itemsOf o.id = newItems lineItems fresh

theorem orderId_of_mem_newItems {lineItems : List LineItem} {fresh : FreshIds} {x : OrderItem}
    (hx : x ∈ newItems lineItems fresh) : x.orderId = fresh.row := by
  obtain ⟨n, hn, rfl⟩ := List.mem_mapIdx.mp hx
  rfl

/-- What a step does to the orders and their items: a request writes one order with its
items and returns it, or the orders evolve. -/
theorem orders_of_step {w w' : World} {a : Action} (h : w.step a = some w') :
    (∃ i c user dto correlationId lineItems, a = .advance i c ∧
      w.calls i = some ⟨.createOrder user dto, correlationId, .createWrite lineItems⟩ ∧
      w'.calls i = some ⟨.createOrder user dto, correlationId,
        .returned (.order (newOrder user.id dto lineItems c.fresh w.clock))⟩ ∧
      (∀ r ∈ w.db.orders, r.id ≠ c.fresh.row) ∧
      w'.db.orders = w.db.orders ++ [newOrder user.id dto lineItems c.fresh w.clock] ∧
      w'.db.orderItems = w.db.orderItems ++ newItems lineItems c.fresh) ∨
    (w'.db.orderItems = w.db.orderItems ∧
      ∀ o' ∈ w'.db.orders, ∃ o ∈ w.db.orders, o.Evolves o') := by
  -- changing statuses moves every order along
  have hbump : ∀ (p : Order → Bool) status,
      ∀ o' ∈ Table.update p (bump status) w.db.orders, ∃ o ∈ w.db.orders, o.Evolves o' := by
    intro p status o' ho'
    obtain ⟨o, ho, rfl⟩ := Table.mem_update.mp ho'
    refine ⟨o, ho, ?_⟩
    split
    · exact Order.evolves_bump status o
    · exact .refl o
  have hsame : ∀ o' ∈ w.db.orders, ∃ o ∈ w.db.orders, o.Evolves o' :=
    fun o' ho' => ⟨o', ho', .refl o'⟩
  cases a with
  | advance i c =>
    obtain ⟨⟨r, correlationId, pc⟩, db', pc', hcall, hadv, rfl⟩ := World.step_advance h
    cases hadv with
    | created hc =>
      obtain ⟨rfl, hid, -, -, rfl⟩ := createWrite_commits hc
      exact Or.inl ⟨i, c, _, _, correlationId, _, rfl, hcall, World.move_calls_self w i _ _ _, hid,
        rfl, rfl⟩
    | updated hc =>
      obtain ⟨-, -, -, -, rfl⟩ := updateStatus_commits hc
      exact Or.inr ⟨rfl, hbump _ _⟩
    | paid hc =>
      obtain ⟨order, -, -, -, -, -, -, -, -, rfl⟩ := PaymentsRepository.complete_commits hc
      refine Or.inr ⟨rfl, ?_⟩
      change ∀ o' ∈ PaymentsRepository.paidOrders order w.db.orders, _
      unfold PaymentsRepository.paidOrders
      split
      · exact hbump _ _
      · exact hsame
    | _ => exact Or.inr ⟨rfl, hsame⟩
  | request i r correlationId =>
    obtain ⟨-, rfl⟩ := World.step_request h
    exact Or.inr ⟨rfl, hsame⟩
  | poll j b =>
    obtain ⟨p, rows, new, -, rfl⟩ := World.step_poll h
    exact Or.inr ⟨rfl, hsame⟩
  | _ => cases h; exact Or.inr ⟨rfl, hsame⟩

/-- A step adds no items to an order that is there. -/
theorem itemsOf_of_step {w w' : World} {a : Action} (h : w.step a = some w') {o : Order}
    (ho : o ∈ w.db.orders) : w'.db.itemsOf o.id = w.db.itemsOf o.id := by
  rcases orders_of_step h with ⟨i, c, user, dto, correlationId, lineItems, rfl, -, -, hnew, -,
    hitems⟩ | ⟨hitems, -⟩
  · -- the new items are those of another order
    rw [Db.itemsOf, Db.itemsOf, hitems, List.filter_append, List.append_right_eq_self,
      List.filter_eq_nil_iff]
    intro x hx
    rw [decide_eq_true_eq, orderId_of_mem_newItems hx]
    exact (hnew o ho).symm
  · rw [Db.itemsOf, Db.itemsOf, hitems]

/-- What holds of the requests and the orders of a run. -/
structure Written (w₀ : World) (as : List Action) (w : World) : Prop where
  /-- A request about to write has priced its lines. -/
  calls : ∀ i user dto correlationId lineItems,
    w.calls i = some ⟨.createOrder user dto, correlationId, .createWrite lineItems⟩ →
      PricedBy w₀ as i user dto correlationId lineItems
  /-- Every order has been written so. -/
  orders : ∀ o ∈ w.db.orders, o.WrittenBy w₀ as w
  /-- Every item row belongs to an order. -/
  items : ∀ x ∈ w.db.orderItems, ∃ o ∈ w.db.orders, o.id = x.orderId

section Runs

variable {w₀ w w' : World} {as : List Action} {a : Action}

/-- A run that goes on has still read what it has read. -/
theorem PricedBy.append {i : ℕ} {user : AuthenticatedUser} {dto : CreateOrderDto}
    {correlationId : Option String} {lineItems : List LineItem}
    (h : PricedBy w₀ as i user dto correlationId lineItems) (bs : List Action) :
    PricedBy w₀ (as ++ bs) i user dto correlationId lineItems := by
  obtain ⟨t, c, t', htakes, hread⟩ := h
  exact ⟨t, c, t', htakes.append bs, hread⟩

/-- A request that is about to write after a step was so before, or has just priced its
lines. -/
theorem pricedBy_of_step (hexec : system.exec w₀ as = some w) (h : Written w₀ as w)
    (hstep : system.step w a = some w') {i : ℕ} {user : AuthenticatedUser} {dto : CreateOrderDto}
    {correlationId : Option String} {lineItems : List LineItem}
    (hcall : w'.calls i = some ⟨.createOrder user dto, correlationId, .createWrite lineItems⟩) :
    PricedBy w₀ (as ++ [a]) i user dto correlationId lineItems := by
  rcases World.calls_of_step hstep i with hsame | ⟨r, correlationId', rfl⟩ | ⟨c, rfl⟩
  · exact (h.calls i user dto correlationId lineItems (hsame ▸ hcall)).append _
  · obtain ⟨-, rfl⟩ := World.step_request hstep
    rw [World.accept_calls_self] at hcall
    cases hcall
  · have hlast := Transition.Sys.takes_last hexec hstep
    obtain ⟨⟨r, correlationId', pc⟩, db', pc', hold, hadv, rfl⟩ := World.step_advance hstep
    rw [World.move_calls_self] at hcall
    cases hcall
    cases hadv with
    | priced hprice => exact ⟨w, c, _, hlast, hold, hprice⟩

/-- An order that was there keeps its items and the request that wrote it. -/
theorem Order.WrittenBy.step (hstep : system.step w a = some w') {o o' : Order}
    (ho : o ∈ w.db.orders) (h : o.WrittenBy w₀ as w) (hev : o.Evolves o') :
    o'.WrittenBy w₀ (as ++ [a]) w' := by
  obtain ⟨i, user, dto, correlationId, lineItems, fresh, now, hpriced, hcall, hold, hlines⟩ := h
  refine ⟨i, user, dto, correlationId, lineItems, fresh, now, hpriced.append _,
    World.step_final hstep hcall rfl, hold.trans hev, ?_⟩
  rw [hev.fixed.1, itemsOf_of_step hstep ho, hlines]

/-- **Every order of a run was written by the request that priced it.** -/
theorem origin_of_orders (h0 : w₀.Initial) (hexec : system.exec w₀ as = some w) :
    Written w₀ as w := by
  refine Transition.Sys.run_invariant (I := Written w₀) ?_ ?_ hexec
  · obtain ⟨horders, hitems, -, -, -, hcalls, -⟩ := h0
    refine ⟨?_, ?_, ?_⟩
    · intro i user dto correlationId lineItems hcall
      rw [hcalls i] at hcall
      cases hcall
    · intro o ho
      rw [horders] at ho
      cases ho
    · intro x hx
      rw [hitems] at hx
      cases hx
  intro bs t a t' hbs ih hstep
  refine ⟨fun i user dto correlationId lineItems => pricedBy_of_step hbs ih hstep, ?_, ?_⟩
  · rcases orders_of_step hstep with
      ⟨i, c, user, dto, correlationId, lineItems, rfl, hcall, hcall', hnew, horders, hitems⟩ |
      ⟨hitems, horders⟩
    · intro o ho
      rw [horders, List.mem_append, List.mem_singleton] at ho
      rcases ho with ho | rfl
      · exact (ih.orders o ho).step hstep ho (.refl o)
      · refine ⟨i, user, dto, correlationId, lineItems, c.fresh, t.clock,
          (ih.calls i user dto correlationId lineItems hcall).append _, hcall', .refl _, ?_⟩
        -- no item row names the new order yet
        have hnone : t.db.itemsOf c.fresh.row = [] := by
          refine List.filter_eq_nil_iff.mpr fun x hx => ?_
          obtain ⟨o, ho, hid⟩ := ih.items x hx
          rw [decide_eq_true_eq, ← hid]
          exact hnew o ho
        have hall : (newItems lineItems c.fresh).filter (fun x => x.orderId = c.fresh.row) =
            newItems lineItems c.fresh :=
          List.filter_eq_self.mpr fun x hx => decide_eq_true (orderId_of_mem_newItems hx)
        rw [Db.itemsOf, hitems, List.filter_append]
        exact (congrArg₂ _ hnone hall).trans (List.nil_append _)
    · intro o' ho'
      obtain ⟨o, ho, hev⟩ := horders o' ho'
      exact (ih.orders o ho).step hstep ho hev
  · intro x hx
    rcases orders_of_step hstep with
      ⟨i, c, user, dto, correlationId, lineItems, rfl, -, -, -, horders, hitems⟩ |
      ⟨hitems, -⟩
    · rw [hitems, List.mem_append] at hx
      rw [horders]
      rcases hx with hx | hx
      · obtain ⟨o, ho, hid⟩ := ih.items x hx
        exact ⟨o, List.mem_append_left _ ho, hid⟩
      · exact ⟨_, List.mem_append_right _ (List.mem_singleton.mpr rfl),
          (orderId_of_mem_newItems hx).symm⟩
    · rw [hitems] at hx
      obtain ⟨o, ho, hid⟩ := ih.items x hx
      obtain ⟨o', ho', hev⟩ := (change_of_step hstep).evolves.orders o ho
      exact ⟨o', ho', hev.fixed.1.trans hid⟩

/-- The items of an order stay. -/
theorem itemsOf_of_exec (hw : system.Reachable w) {bs : List Action}
    (hbs : system.exec w bs = some w') {o : Order} (ho : o ∈ w.db.orders) :
    w'.db.itemsOf o.id = w.db.itemsOf o.id := by
  refine (Transition.Sys.exec_stable (I := fun v =>
    (∃ o' ∈ v.db.orders, o'.id = o.id) ∧ v.db.itemsOf o.id = w.db.itemsOf o.id) ?_ hw
    ⟨⟨o, ho, rfl⟩, rfl⟩ hbs).2
  rintro v a v' - ⟨⟨o', ho', hid⟩, hitems⟩ hstep
  obtain ⟨o'', ho'', hev⟩ := (change_of_step hstep).evolves.orders o' ho'
  refine ⟨⟨o'', ho'', hev.fixed.1.trans hid⟩, ?_⟩
  rw [← hid, itemsOf_of_step hstep ho', hid, hitems]

end Runs

/-! ### The amounts of an order -/

/-- The menu stays storable. -/
def storablePrices (_ : World) : Action → Bool
  | .setMenuItem item => item.price.Fits
  | _ => true

/-- Every price of the menu is storable. -/
def World.PricesFit (w : World) : Prop := ∀ m ∈ w.db.menuItems, m.price.Fits

/-- What the item row of an order took from the menu. -/
def ReadFrom (menuItems : List MenuItem) (restaurantId : Uuid) (requested : CreateOrderItemDto)
    (x : OrderItem) : Prop :=
  ∃ m ∈ menuItems, m.restaurantId = restaurantId ∧ m.available = true ∧
    m.id.text = requested.menuItemId ∧ x.menuItemId = m.id ∧ x.name = m.name ∧
    x.unitPrice = m.price ∧ x.quantity = requested.quantity

/-- The amounts of an order agree with one another. -/
structure Order.Consistent (db : Db) (o : Order) : Prop where
  lines : ∀ x ∈ db.itemsOf o.id, x.lineTotal.hundredths = x.unitPrice.hundredths * x.quantity
  total : o.totalAmount.hundredths = ((db.itemsOf o.id).map fun x => x.lineTotal.hundredths).sum
  payments : ∀ p ∈ db.payments, p.orderId = o.id → p.amount = o.totalAmount

/-- The items of an order are those its request read from the menu of its restaurant,
one for each item requested. -/
def Order.PricedIn (w₀ : World) (as : List Action) (w : World) (o : Order) : Prop :=
  ∃ i user dto correlationId created t c t',
    w.calls i = some ⟨.createOrder user dto, correlationId, .returned (.order created)⟩ ∧
    created.id = o.id ∧
    system.Takes w₀ as t (.advance i c) t' ∧
    t.calls i = some ⟨.createOrder user dto, correlationId, .createMenu⟩ ∧
    List.Forall₂ (ReadFrom t.db.menuItems o.restaurantId) dto.items (w.db.itemsOf o.id)

/-- A column of the item rows is a column of the lines. -/
theorem map_newItems {β : Type} {g : OrderItem → β} {k : LineItem → β} {fresh : FreshIds}
    (hg : ∀ n l, g ⟨fresh.item n, fresh.row, l.menuItemId, l.name, l.unitPrice, l.quantity,
      l.lineTotal⟩ = k l) (lineItems : List LineItem) :
    (newItems lineItems fresh).map g = lineItems.map k := by
  refine List.ext_getElem (by simp [newItems]) fun n hn hn' => ?_
  simp only [newItems, List.getElem_map, List.getElem_mapIdx, hg]

/-- What has been read for a line has been read for its item row. -/
theorem readFrom_newItems {db : Db} {dto : CreateOrderDto} {lineItems : List LineItem}
    {fresh : FreshIds} (h : priceItems dto (findMenuItems db dto) = .ok lineItems) :
    List.Forall₂ (ReadFrom db.menuItems dto.restaurantId.value) dto.items
      (newItems lineItems fresh) := by
  have hlines := lineItem_of_priceItems h
  rw [List.forall₂_iff_get] at hlines ⊢
  obtain ⟨hlength, hlines⟩ := hlines
  refine ⟨by rw [hlength, newItems, List.length_mapIdx], fun n hn hn' => ?_⟩
  obtain ⟨m, hm, hid, hitem, hname, hprice, hquantity, -⟩ :=
    exists_of_lineItem (hlines n hn (hlength ▸ hn))
  simp only [findMenuItems, List.mem_filter, Bool.and_eq_true, decide_eq_true_eq] at hm
  simp only [List.get_eq_getElem, newItems, List.getElem_mapIdx] at hitem hname hprice hquantity ⊢
  exact ⟨m, hm.1, hm.2.1.2, hm.2.2, hid, hitem, hname, hprice, hquantity⟩

/-- What a committed order creation has been let through with. -/
theorem fits_of_createWrite {userId : Uuid} {dto : CreateOrderDto}
    {correlationId : Option String} {lineItems : List LineItem} {fresh : FreshIds} {now : ℕ}
    {db db' : Db} {o : Order}
    (h : Commits (createWrite userId dto correlationId lineItems fresh now) db o db') :
    (totalAmount lineItems).Fits ∧ ∀ l ∈ lineItems, l.lineTotal.Fits := by
  obtain ⟨order, db₁, hcreate, -⟩ := h.bind
  obtain ⟨-, htotal, hlines, -⟩ := Order.create_commits hcreate
  refine ⟨htotal, fun l hl => ?_⟩
  have hmem : l.lineTotal ∈ (newItems lineItems fresh).map OrderItem.lineTotal := by
    rw [map_newItems (k := LineItem.lineTotal) fun _ _ => rfl]
    exact List.mem_map_of_mem hl
  obtain ⟨x, hx, hsame⟩ := List.mem_map.mp hmem
  rw [← hsame]
  exact (hlines x hx).2

section Amounts

variable {w₀ w : World} {as : List Action} (h0 : w₀.Initial) (hprices : w₀.PricesFit)
  (hexec : (system.restrict storablePrices).exec w₀ as = some w)
include h0 hprices hexec

/-- The menu is storable in every state of the run. -/
theorem pricesFit_of_exec : w.PricesFit := by
  refine Transition.Sys.exec_stable (I := World.PricesFit) ?_ (.init h0) hprices hexec
  intro w a w' _ hfits hstep
  obtain ⟨hguard, hstep⟩ := Transition.Sys.restrict_step_iff.mp hstep
  have hsame : ∀ db' : Db, db'.menuItems = w.db.menuItems → ∀ m ∈ db'.menuItems, m.price.Fits :=
    fun db' hdb m hm => hfits m (hdb ▸ hm)
  cases a with
  | setMenuItem item =>
    cases hstep
    intro m hm
    rcases List.mem_cons.mp hm with rfl | hm
    · exact of_decide_eq_true hguard
    · exact hfits m (List.mem_of_mem_filter hm)
  | advance i c =>
    obtain ⟨⟨r, correlationId, pc⟩, db', pc', hcall, hadv, rfl⟩ := World.step_advance hstep
    cases hadv with
    | created hc =>
      obtain ⟨-, -, -, -, rfl⟩ := createWrite_commits hc
      exact hsame _ rfl
    | updated hc =>
      obtain ⟨-, -, -, -, rfl⟩ := updateStatus_commits hc
      exact hsame _ rfl
    | paid hc =>
      obtain ⟨order, -, -, -, -, -, -, -, -, rfl⟩ := PaymentsRepository.complete_commits hc
      exact hsame _ rfl
    | _ => exact hfits
  | request i r correlationId =>
    obtain ⟨-, rfl⟩ := World.step_request hstep
    exact hfits
  | poll j b =>
    obtain ⟨p, rows, new, -, rfl⟩ := World.step_poll hstep
    exact hfits
  | _ => cases hstep; exact hfits

/-- The menu a request of the run has read was storable. -/
theorem fits_of_pricedBy {t t' : World} {a : Action} (htakes : system.Takes w₀ as t a t')
    (dto : CreateOrderDto) : ∀ m ∈ findMenuItems t.db dto, m.price.Fits := by
  obtain ⟨bs, -, hbs, -⟩ := (htakes.restrict hexec).split
  intro m hm
  exact pricesFit_of_exec h0 hprices hbs m (List.mem_of_mem_filter hm)

/-- **The amounts of an order agree.** -/
theorem consistent_of_exec {o : Order} (ho : o ∈ w.db.orders) : o.Consistent w.db := by
  have hrun := Transition.Sys.exec_of_restrict hexec
  have hw : system.Reachable w := Transition.Sys.Reachable.exec (.init h0) hrun
  obtain ⟨i, user, dto, correlationId, lineItems, fresh, now, ⟨t, c, t', htakes, -, hprice⟩, -,
    hev, hitems⟩ := (origin_of_orders h0 hrun).orders o ho
  have hfits := fits_of_pricedBy h0 hprices hexec htakes dto
  refine ⟨?_, ?_, ?_⟩
  · intro x hx
    rw [hitems] at hx
    have hmem : (x.lineTotal.hundredths, x.unitPrice.hundredths * (x.quantity : ℤ)) ∈
        lineItems.map fun l => (l.lineTotal.hundredths, l.exact) := by
      rw [← map_newItems (g := fun x => (x.lineTotal.hundredths,
        x.unitPrice.hundredths * (x.quantity : ℤ))) (fun _ _ => rfl)]
      exact List.mem_map_of_mem hx
    obtain ⟨l, hl, hsame⟩ := List.mem_map.mp hmem
    obtain ⟨htotal, hexact⟩ := Prod.mk.inj hsame
    rw [← htotal, ← hexact]
    exact (exact_of_priceItems hfits hprice l hl).1
  · rw [hev.fixed.2.2.2, hitems, map_newItems (k := fun l => l.lineTotal.hundredths)
      fun _ _ => rfl]
    have hsame : lineItems.map (fun l => l.lineTotal.hundredths) = lineItems.map LineItem.exact :=
      List.map_congr_left fun l hl => (exact_of_priceItems hfits hprice l hl).1
    rw [hsame]
    exact totalAmount_of_priceItems hfits hprice
  · intro p hp horder
    obtain ⟨-, o', ho', hid, htotal⟩ := payment_amounts hw p hp
    rw [← htotal, (keys_of_reachable hw).orders.eq_of_key ho' ho (hid.trans horder)]

omit hprices in
/-- **The items of an order come from the menu its request read.** -/
theorem pricedIn_of_exec {o : Order} (ho : o ∈ w.db.orders) : o.PricedIn w₀ as w := by
  obtain ⟨i, user, dto, correlationId, lineItems, fresh, now, ⟨t, c, t', htakes, hread, hprice⟩,
    hcall, hev, hitems⟩ :=
    (origin_of_orders h0 (Transition.Sys.exec_of_restrict hexec)).orders o ho
  refine ⟨i, user, dto, correlationId, _, t, c, t', hcall, hev.fixed.1.symm, htakes, hread, ?_⟩
  rw [hev.fixed.2.2.1, hitems]
  exact readFrom_newItems hprice

/-- **An order that cannot be stored is rejected**, and none of its request's steps has
changed a row. -/
theorem rejected_of_not_storable {i : ℕ} {user : AuthenticatedUser} {dto : CreateOrderDto}
    {correlationId : Option String} {lineItems : List LineItem}
    (hcall : w.calls i = some ⟨.createOrder user dto, correlationId, .createWrite lineItems⟩)
    (hnot : ¬Storable (exactTotal lineItems) ∨ ∃ l ∈ lineItems, ¬Storable l.exact)
    {c : Choice} {w' : World} (hstep : system.step w (.advance i c) = some w') :
    (∃ e, w'.calls i = some ⟨.createOrder user dto, correlationId, .rejected e⟩) ∧
    ∀ t c' t', system.Takes w₀ (as ++ [.advance i c]) t (.advance i c') t' → t'.db = t.db := by
  have hrun := Transition.Sys.exec_of_restrict hexec
  have hw₀ : system.Reachable w₀ := .init h0
  obtain ⟨t₀, c₀, t₀', htakes, -, hprice⟩ := (origin_of_orders h0 hrun).calls i user dto
    correlationId lineItems hcall
  have hfits := fits_of_pricedBy h0 hprices hexec htakes dto
  have hrejected : ∃ e, w'.calls i = some ⟨.createOrder user dto, correlationId, .rejected e⟩ := by
    obtain ⟨call, db', pc', hcall', hadv, rfl⟩ := World.step_advance hstep
    rw [hcall, Option.some.injEq] at hcall'
    subst hcall'
    cases hadv with
    | reject hpc e => exact ⟨e, World.move_calls_self w i _ _ _⟩
    | created hc =>
      -- what commits has fitted its columns
      obtain ⟨htotal, hlines⟩ := fits_of_createWrite hc
      rcases hnot with hnot | ⟨l, hl, hnot⟩
      · refine absurd ?_ hnot
        rw [Storable, ← totalAmount_of_priceItems hfits hprice]
        exact htotal
      · refine absurd ?_ hnot
        rw [Storable, ← (exact_of_priceItems hfits hprice l hl).1]
        exact hlines l hl
  refine ⟨hrejected, fun t c' t' ht => ?_⟩
  obtain ⟨e, hcall'⟩ := hrejected
  obtain ⟨-, cs, -, hrest⟩ := ht.split
  have hexec' : system.exec w₀ (as ++ [.advance i c]) = some w' := by
    rw [Transition.Sys.exec_append, hrun, Option.bind_some, Transition.Sys.exec_singleton, hstep]
  exact unchanged_of_rejected (ht.reachable hw₀) ht.step (hrest w' hexec') hcall' rfl

/-- **Money is consistent.**  In a run over storable prices, from a database without
orders: the lines of every order are exact, its total is their exact sum, and its
payments are over that total; its items are what its request read from the menu of its
restaurant.  Whatever happens later leaves its total, its items and its payments alone.
No product and no partial sum of a pricing needs more than twenty digits, and an order
that cannot be stored is rejected without a row. -/
theorem money_consistent :
    (∀ o ∈ w.db.orders, o.Consistent w.db ∧ o.PricedIn w₀ as w) ∧
    (∀ bs w', system.exec w bs = some w' → ∀ o ∈ w.db.orders,
      (∃ o' ∈ w'.db.orders, o'.id = o.id ∧ o'.totalAmount = o.totalAmount) ∧
      w'.db.itemsOf o.id = w.db.itemsOf o.id ∧ w.db.payments <+: w'.db.payments) ∧
    (∀ dto lineItems, priceItems dto (findMenuItems w.db dto) = .ok lineItems →
      (∀ l ∈ lineItems, Decimal.significantDigits l.exact ≤ Decimal.precision) ∧
      ∀ n, Decimal.significantDigits (exactTotal (lineItems.take n)) ≤ Decimal.precision) ∧
    ∀ i user dto correlationId lineItems,
      w.calls i = some ⟨.createOrder user dto, correlationId, .createWrite lineItems⟩ →
      (¬Storable (exactTotal lineItems) ∨ ∃ l ∈ lineItems, ¬Storable l.exact) →
      ∀ c w', system.step w (.advance i c) = some w' →
        (∃ e, w'.calls i = some ⟨.createOrder user dto, correlationId, .rejected e⟩) ∧
        ∀ t c' t', system.Takes w₀ (as ++ [.advance i c]) t (.advance i c') t' →
          t'.db = t.db := by
  have hrun := Transition.Sys.exec_of_restrict hexec
  have hw : system.Reachable w := Transition.Sys.Reachable.exec (.init h0) hrun
  refine ⟨?_, ?_, ?_, ?_⟩
  · intro o ho
    exact ⟨consistent_of_exec h0 hprices hexec ho, pricedIn_of_exec h0 hexec ho⟩
  · intro bs w' hbs o ho
    have hevolves := evolves_of_exec hw hbs
    obtain ⟨o', ho', hev⟩ := hevolves.orders o ho
    exact ⟨⟨o', ho', hev.fixed.1, hev.fixed.2.2.2⟩, itemsOf_of_exec hw hbs ho,
      hevolves.payments⟩
  · intro dto lineItems hprice
    refine significantDigits_of_priceItems (fun m hm => ?_) hprice
    exact pricesFit_of_exec h0 hprices hexec m (List.mem_of_mem_filter hm)
  · intro i user dto correlationId lineItems hcall hnot c w' hstep
    exact rejected_of_not_storable h0 hprices hexec hcall hnot hstep

end Amounts

/-- Two bowls at 12.50 come to 25.00, and so do both payments of them. -/
theorem sample_money_consistent : ∃ w,
    (system.restrict storablePrices).exec World.sample paidUnderTwoKeys = some w ∧
    w.db.orders.map (fun o => o.totalAmount.hundredths) = [2500] ∧
    w.db.payments.map (fun p => p.amount.hundredths) = [2500, 2500] ∧
    ∀ o ∈ w.db.orders, o.Consistent w.db ∧ o.PricedIn World.sample paidUnderTwoKeys w := by
  have hrun : ((system.restrict storablePrices).exec World.sample paidUnderTwoKeys).map
      (fun w => (w.db.orders.map fun o => o.totalAmount.hundredths,
        w.db.payments.map fun p => p.amount.hundredths)) = some ([2500], [2500, 2500]) := by decide
  obtain ⟨w, hw, hamounts⟩ := Option.map_eq_some_iff.mp hrun
  obtain ⟨htotal, hpaid⟩ := Prod.mk.inj hamounts
  have hprices : World.sample.PricesFit := by
    intro m hm
    rw [List.mem_singleton.mp hm]
    decide
  exact ⟨w, hw, htotal, hpaid, (money_consistent World.sample_initial hprices hw).1⟩

end ScaleForge
