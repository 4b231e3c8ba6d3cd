import Mathlib.Data.List.Forall2
import Mathlib.Data.List.Nodup

/-!
# Tables with a unique key

A table is the list of its rows in order of insertion, and a unique index is a
key function that is injective on the rows.  `insert` refuses a row whose key
is taken, `update` rewrites the rows that meet a condition, and `find` looks a
row up by its key.

## Main definitions

* `UniqueOn key rows` — no two rows share a key.
* `insert`, `update`, `find` — the statements of a database over one table.
* `Corresponds R xs ys` — `R` is a one-to-one correspondence between the rows
  of two tables.

## Main results

* `uniqueOn_append_singleton`, `uniqueOn_update` — the two writes keep a key
  unique.
* `find_eq_some_iff` — looking up a unique key finds exactly the row with it.
* `find_append_singleton`, `find_update` — looking up after a write.
* `forall₂_update_left`, `forall₂_update_right`, `forall₂_append_singleton` — a
  pairing of rows position by position survives updates that keep it and the
  insertion of a pair.
* `Corresponds.of_forall₂` — such a pairing is a one-to-one correspondence when
  it agrees on a unique key.
-/

namespace Table

variable {ρ κ : Type*}

/-- The key tells the rows apart. -/
def UniqueOn (key : ρ → κ) (rows : List ρ) : Prop := (rows.map key).Nodup

theorem UniqueOn.eq_of_key {key : ρ → κ} {rows : List ρ} (h : UniqueOn key rows) {r r' : ρ}
    (hr : r ∈ rows) (hr' : r' ∈ rows) (hk : key r = key r') : r = r' :=
  List.inj_on_of_nodup_map h hr hr' hk

/-- At most one row has a given key. -/
theorem UniqueOn.countP_le_one {key : ρ → κ} {rows : List ρ} (h : UniqueOn key rows) {k : κ}
    {p : ρ → Bool} (hp : ∀ r ∈ rows, p r = true → key r = k) : rows.countP p ≤ 1 := by
  induction rows with
  | nil => exact Nat.zero_le 1
  | cons row rows ih =>
    obtain ⟨hnot, hrest⟩ := List.nodup_cons.mp h
    have ih := ih hrest fun r hr => hp r (List.mem_cons_of_mem _ hr)
    by_cases hrow : p row = true
    · -- then no other row has the key
      have hzero : rows.countP p = 0 := by
        rw [List.countP_eq_zero]
        intro r hr hpr
        have hkey : key r = key row :=
          (hp r (List.mem_cons_of_mem _ hr) hpr).trans (hp row List.mem_cons_self hrow).symm
        exact hnot (hkey ▸ List.mem_map_of_mem hr)
      exact Nat.le_of_eq (by rw [List.countP_cons_of_pos hrow, hzero])
    · rw [List.countP_cons_of_neg hrow]
      exact ih

@[simp] theorem uniqueOn_nil (key : ρ → κ) : UniqueOn key [] := List.nodup_nil

theorem uniqueOn_append_singleton {key : ρ → κ} {rows : List ρ} {row : ρ} :
    UniqueOn key (rows ++ [row]) ↔ UniqueOn key rows ∧ ∀ r ∈ rows, key r ≠ key row := by
  unfold UniqueOn
  rw [List.map_append, List.map_singleton, List.nodup_append]
  constructor
  · rintro ⟨h, -, hne⟩
    exact ⟨h, fun r hr => hne _ (List.mem_map_of_mem hr) _ (List.mem_singleton.mpr rfl)⟩
  · rintro ⟨h, hne⟩
    refine ⟨h, List.nodup_singleton _, ?_⟩
    intro k hk k' hk'
    obtain ⟨r, hr, rfl⟩ := List.mem_map.mp hk
    rw [List.mem_singleton.mp hk']
    exact hne r hr

/-- The rows of a kind after an insertion. -/
theorem filter_append_singleton {p : ρ → Bool} {rows : List ρ} {row : ρ} :
    (rows ++ [row]).filter p = if p row then rows.filter p ++ [row] else rows.filter p := by
  rw [List.filter_append, List.filter_singleton]
  cases p row <;> simp

/-- Distinct keys, each of a row of a kind, are those of as many rows of the kind. -/
theorem length_filter_keys [DecidableEq κ] {key : ρ → κ} {rows : List ρ} {p : ρ → Bool}
    {keys : List κ} (hu : UniqueOn key rows) (hnodup : keys.Nodup)
    (hkeys : ∀ k ∈ keys, ∃ r ∈ rows, key r = k ∧ p r = true) :
    (rows.filter fun r => p r && decide (key r ∈ keys)).length = keys.length := by
  have hperm : ((rows.filter fun r => p r && decide (key r ∈ keys)).map key).Perm keys := by
    refine (List.perm_ext_iff_of_nodup (hu.sublist (List.filter_sublist.map key)) hnodup).mpr ?_
    intro k
    simp only [List.mem_map, List.mem_filter, Bool.and_eq_true, decide_eq_true_eq]
    constructor
    · rintro ⟨r, ⟨-, -, hk⟩, rfl⟩
      exact hk
    · intro hk
      obtain ⟨r, hr, rfl, hp⟩ := hkeys k hk
      exact ⟨r, ⟨hr, hp, hk⟩, rfl⟩
  have hlength := hperm.length_eq
  rwa [List.length_map] at hlength

/-! ### Insertion -/

section Insert

variable [DecidableEq κ]

/-- Insert a row, refusing one whose key is taken. -/
def insert (key : ρ → κ) (row : ρ) (rows : List ρ) : Option (List ρ) :=
  if key row ∈ rows.map key then none else some (rows ++ [row])

theorem insert_eq_some_iff {key : ρ → κ} {row : ρ} {rows rows' : List ρ} :
    insert key row rows = some rows' ↔
      (∀ r ∈ rows, key r ≠ key row) ∧ rows' = rows ++ [row] := by
  unfold insert
  split
  · next h =>
    obtain ⟨r, hr, hk⟩ := List.mem_map.mp h
    simp only [reduceCtorEq, false_iff]
    rintro ⟨hne, -⟩
    exact hne r hr hk
  · next h =>
    have hne : ∀ r ∈ rows, key r ≠ key row :=
      fun r hr hk => h (List.mem_map.mpr ⟨r, hr, hk⟩)
    constructor
    · intro he
      exact ⟨hne, (Option.some.inj he).symm⟩
    · rintro ⟨-, rfl⟩
      rfl

end Insert

/-! ### Updates -/

/-- Rewrite the rows that meet a condition. -/
def update (p : ρ → Bool) (f : ρ → ρ) (rows : List ρ) : List ρ :=
  rows.map fun r => if p r then f r else r

theorem mem_update {p : ρ → Bool} {f : ρ → ρ} {rows : List ρ} {r' : ρ} :
    r' ∈ update p f rows ↔ ∃ r ∈ rows, (if p r then f r else r) = r' :=
  List.mem_map

theorem mem_update_of_pos {p : ρ → Bool} {f : ρ → ρ} {rows : List ρ} {r : ρ} (hr : r ∈ rows)
    (h : p r = true) : f r ∈ update p f rows :=
  mem_update.mpr ⟨r, hr, if_pos h⟩

/-- A row that does not meet the condition stays. -/
theorem mem_update_of_neg {p : ρ → Bool} {f : ρ → ρ} {rows : List ρ} {r : ρ} (hr : r ∈ rows)
    (h : p r = false) : r ∈ update p f rows :=
  mem_update.mpr ⟨r, hr, if_neg (Bool.eq_false_iff.mp h)⟩

/-- Updating rows leaves a column alone when the rewrite does. -/
theorem map_update {β : Type*} (g : ρ → β) {p : ρ → Bool} {f : ρ → ρ} (rows : List ρ)
    (hf : ∀ r ∈ rows, p r = true → g (f r) = g r) :
    (update p f rows).map g = rows.map g := by
  unfold update
  rw [List.map_map]
  refine List.map_congr_left fun r hr => ?_
  simp only [Function.comp_apply]
  split
  · next h => exact hf r hr h
  · rfl

/-- An update that leaves the key alone adds no key. -/
theorem exists_key_of_mem_update (key : ρ → κ) {p : ρ → Bool} {f : ρ → ρ} {rows : List ρ} {r' : ρ}
    (h : r' ∈ update p f rows) (hf : ∀ r, key (f r) = key r) : ∃ r ∈ rows, key r' = key r := by
  obtain ⟨r, hr, rfl⟩ := mem_update.mp h
  refine ⟨r, hr, ?_⟩
  split
  · exact hf r
  · rfl

/-- The row with the key of `r` after such an update is what became of `r`. -/
theorem UniqueOn.eq_of_mem_update {key : ρ → κ} {p : ρ → Bool} {f : ρ → ρ} {rows : List ρ}
    (hu : UniqueOn key rows) {r r' : ρ} (hr : r ∈ rows) (hr' : r' ∈ update p f rows)
    (hkey : key r' = key r) (hf : ∀ r, key (f r) = key r) : r' = if p r then f r else r := by
  obtain ⟨s, hs, rfl⟩ := mem_update.mp hr'
  have hsame : s = r := by
    refine hu.eq_of_key hs hr ?_
    rw [← hkey]
    split
    · exact (hf s).symm
    · rfl
  rw [hsame]

theorem uniqueOn_update {key : ρ → κ} {p : ρ → Bool} {f : ρ → ρ} {rows : List ρ}
    (h : UniqueOn key rows) (hf : ∀ r ∈ rows, p r = true → key (f r) = key r) :
    UniqueOn key (update p f rows) := by
  unfold UniqueOn
  rw [map_update key rows hf]
  exact h

/-- An update that meets no row changes nothing. -/
theorem update_eq_self {p : ρ → Bool} {f : ρ → ρ} {rows : List ρ}
    (h : ∀ r ∈ rows, p r = false) : update p f rows = rows := by
  unfold update
  conv_rhs => rw [← List.map_id rows]
  refine List.map_congr_left fun r hr => ?_
  simp [h r hr]

/-- An update among rows that a filter holds back, before and after, is not seen
through it. -/
theorem filter_update_of_not {p q : ρ → Bool} {f : ρ → ρ} {rows : List ρ}
    (h : ∀ r ∈ rows, p r = true → q r = false ∧ q (f r) = false) :
    (update p f rows).filter q = rows.filter q := by
  induction rows with
  | nil => rfl
  | cons row rows ih =>
    have ih := ih fun r hr => h r (List.mem_cons_of_mem _ hr)
    unfold update at ih ⊢
    rw [List.map_cons, List.filter_cons, List.filter_cons, ih]
    split
    · next hp =>
      obtain ⟨hrow, hf⟩ := h row List.mem_cons_self hp
      simp [hrow, hf]
    · rfl

/-! ### Lookup -/

section Find

variable [DecidableEq κ]

/-- The row with a key. -/
def find (key : ρ → κ) (k : κ) (rows : List ρ) : Option ρ :=
  rows.find? fun r => key r = k

theorem find_mem {key : ρ → κ} {k : κ} {rows : List ρ} {r : ρ}
    (h : find key k rows = some r) : r ∈ rows ∧ key r = k :=
  ⟨List.mem_of_find?_eq_some h, by simpa using List.find?_some h⟩

theorem find_eq_some_iff {key : ρ → κ} {rows : List ρ} (hu : UniqueOn key rows) {k : κ} {r : ρ} :
    find key k rows = some r ↔ r ∈ rows ∧ key r = k := by
  constructor
  · exact find_mem
  · rintro ⟨hr, hk⟩
    cases hf : find key k rows with
    | none =>
      have := List.find?_eq_none.mp hf r hr
      simp [hk] at this
    | some r' =>
      obtain ⟨hr', hk'⟩ := find_mem hf
      rw [hu.eq_of_key hr' hr (hk'.trans hk.symm)]

theorem find_eq_none_iff {key : ρ → κ} {rows : List ρ} {k : κ} :
    find key k rows = none ↔ ∀ r ∈ rows, key r ≠ k := by
  unfold find
  simp

/-- Looking up after an insertion. -/
theorem find_append_singleton {key : ρ → κ} {rows : List ρ} {row : ρ} {k : κ}
    (hne : ∀ r ∈ rows, key r ≠ key row) :
    find key k (rows ++ [row]) = if key row = k then some row else find key k rows := by
  unfold find
  rw [List.find?_append]
  split
  · next hk =>
    have hnone : (rows.find? fun r => key r = k) = none :=
      List.find?_eq_none.mpr fun r hr => by simpa [hk] using hne r hr
    rw [hnone]
    simp [hk]
  · next hk => simp [hk]

/-- Looking up after an update that keeps the key. -/
theorem find_update {key : ρ → κ} {p : ρ → Bool} {f : ρ → ρ} {rows : List ρ} {k : κ}
    (hf : ∀ r, key (f r) = key r) :
    find key k (update p f rows) = (find key k rows).map fun r => if p r then f r else r := by
  unfold find update
  rw [List.find?_map]
  congr 2
  funext r
  simp only [Function.comp_apply]
  split
  · rw [hf]
  · rfl

end Find

/-! ### One-to-one correspondences between two tables -/

/-- `R` pairs the rows of `xs` with the rows of `ys`, each with exactly one. -/
structure Corresponds {α β : Type*} (R : α → β → Prop) (xs : List α) (ys : List β) : Prop where
  /-- Every row on the left has exactly one partner. -/
  left : ∀ x ∈ xs, ∃! y, y ∈ ys ∧ R x y
  /-- Every row on the right has exactly one partner. -/
  right : ∀ y ∈ ys, ∃! x, x ∈ xs ∧ R x y

section Corresponds

variable {α β : Type*} {R : α → β → Prop} {xs : List α} {ys : List β}

/-- Every row on the right of a pairing has a partner. -/
theorem exists_of_forall₂_right (h : List.Forall₂ R xs ys) {y : β} (hy : y ∈ ys) :
    ∃ x ∈ xs, R x y := by
  induction h with
  | nil => cases hy
  | cons hab _ ih =>
    rcases List.mem_cons.mp hy with rfl | hy
    · exact ⟨_, List.mem_cons_self, hab⟩
    · obtain ⟨x, hx, hR⟩ := ih hy
      exact ⟨x, List.mem_cons_of_mem _ hx, hR⟩

/-- Every row on the left of a pairing has a partner. -/
theorem exists_of_forall₂_left (h : List.Forall₂ R xs ys) {x : α} (hx : x ∈ xs) :
    ∃ y ∈ ys, R x y :=
  exists_of_forall₂_right h.flip hx

/-- A pairing position by position that agrees on a unique key is a one-to-one
correspondence. -/
theorem Corresponds.of_forall₂ {f : α → κ} {g : β → κ} (h : List.Forall₂ R xs ys)
    (hkey : ∀ x y, R x y → f x = g y) (hu : UniqueOn f xs) : Corresponds R xs ys := by
  -- both sides have the same list of keys
  have hkeys : xs.map f = ys.map g := by
    have : List.Forall₂ (fun x y => f x = g y) xs ys := h.imp hkey
    induction this with
    | nil => rfl
    | cons hab _ ih =>
      rw [List.map_cons, List.map_cons, hab, ih (List.forall₂_cons.mp h).2
        (List.nodup_cons.mp hu).2]
  have hv : UniqueOn g ys := by
    unfold UniqueOn at hu ⊢
    rwa [← hkeys]
  refine ⟨?_, ?_⟩
  · intro x hx
    obtain ⟨y, hy, hR⟩ := exists_of_forall₂_left h hx
    refine ⟨y, ⟨hy, hR⟩, ?_⟩
    rintro y' ⟨hy', hR'⟩
    exact hv.eq_of_key hy' hy ((hkey x y' hR').symm.trans (hkey x y hR))
  · intro y hy
    obtain ⟨x, hx, hR⟩ := exists_of_forall₂_right h hy
    refine ⟨x, ⟨hx, hR⟩, ?_⟩
    rintro x' ⟨hx', hR'⟩
    exact hu.eq_of_key hx' hx ((hkey x' y hR').trans (hkey x y hR).symm)

/-- An update on the left that keeps the relation keeps the pairing. -/
theorem forall₂_update_left {p : α → Bool} {f : α → α} (h : List.Forall₂ R xs ys)
    (hf : ∀ x y, R x y → R (f x) y) : List.Forall₂ R (update p f xs) ys := by
  unfold update
  rw [List.forall₂_map_left_iff]
  refine h.imp fun x y hR => ?_
  split
  · exact hf x y hR
  · exact hR

/-- An update on the right that keeps the relation and the rows a filter lets
through keeps the pairing with those rows. -/
theorem forall₂_update_right {p q : β → Bool} {f : β → β}
    (h : List.Forall₂ R xs (ys.filter q)) (hq : ∀ y, q (f y) = q y)
    (hf : ∀ x y, R x y → R x (f y)) : List.Forall₂ R xs ((update p f ys).filter q) := by
  have hcomp : (q ∘ fun y => if p y then f y else y) = q := by
    funext y
    simp only [Function.comp_apply]
    split
    · exact hq y
    · rfl
  unfold update
  rw [List.filter_map, hcomp, List.forall₂_map_right_iff]
  refine h.imp fun x y hR => ?_
  split
  · exact hf x y hR
  · exact hR

/-- Inserting a pair keeps the pairing with the rows a filter lets through. -/
theorem forall₂_insert {q : β → Bool} {x : α} {y : β} (h : List.Forall₂ R xs (ys.filter q))
    (hq : q y = true) (hxy : R x y) : List.Forall₂ R (xs ++ [x]) ((ys ++ [y]).filter q) := by
  rw [List.filter_append, List.filter_cons_of_pos hq, List.filter_nil]
  exact List.rel_append h (.cons hxy .nil)

/-- Inserting a row the filter holds back keeps the pairing. -/
theorem forall₂_insert_of_not {q : β → Bool} {y : β} (h : List.Forall₂ R xs (ys.filter q))
    (hq : q y = false) : List.Forall₂ R xs ((ys ++ [y]).filter q) := by
  rw [List.filter_append, List.filter_cons_of_neg (by rw [hq]; exact Bool.false_ne_true),
    List.filter_nil, List.append_nil]
  exact h

end Corresponds

end Table
