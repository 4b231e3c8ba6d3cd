import Mathlib.Algebra.Order.Floor.Div
import Mathlib.Data.List.Sort

/-!
# Listings and their pages

A listing of a table has the rows that meet a condition, the row with the greatest
key first.  A client reads it page by page, by the number of rows to skip and the
number of rows to take.

When no two rows have the same key, the listing is determined by which rows there
are, and its pages partition it.

## Main definitions

* `Listing.descending` — the rows that meet a condition, in order.
* `Listing.page`, `Listing.pages` — a page, and the number of them.

## Main results

* `flatMap_page` — the pages, put together, are the list.
* `length_page` — every page but the last is full.
* `countP_lt_of_mem_take` — who is on the first page has few before it.
* `pairwise_descending`, `descending_congr` — a listing is in strict order, and determined by its
  members.
-/

namespace Listing

/-! ### Pages -/

section Pages

variable {α : Type*} {xs : List α} {limit n : ℕ}

/-- The rows after the first `skip`, `take` of them at most. -/
def page (xs : List α) (skip take : ℕ) : List α := (xs.drop skip).take take

/-- How many pages there are. -/
def pages (total limit : ℕ) : ℕ := total ⌈/⌉ limit

theorem pages_le_iff (h : 0 < limit) {total : ℕ} : pages total limit ≤ n ↔ total ≤ n * limit := by
  rw [pages, ceilDiv_le_iff_le_mul h, Nat.mul_comm]

/-- The first pages have the first rows. -/
theorem flatMap_page_range (xs : List α) (limit n : ℕ) :
    (List.range n).flatMap (fun k => page xs (k * limit) limit) = xs.take (n * limit) := by
  induction n with
  | zero => simp
  | succ n ih =>
    rw [List.range_succ, List.flatMap_append, ih, List.flatMap_singleton, Nat.succ_mul,
      List.take_add]
    rfl

/-- **The pages, put together, are the list.** -/
theorem flatMap_page (h : 0 < limit) :
    (List.range (pages xs.length limit)).flatMap (fun k => page xs (k * limit) limit) = xs := by
  rw [flatMap_page_range]
  exact List.take_of_length_le ((pages_le_iff h).mp (Nat.le_refl _))

/-- **Every page but the last is full.** -/
theorem length_page (h : 0 < limit) (hn : n + 1 < pages xs.length limit) :
    (page xs (n * limit) limit).length = limit := by
  have hlt : (n + 1) * limit < xs.length := by
    by_contra hle
    have := (pages_le_iff h).mpr (Nat.le_of_not_lt hle)
    omega
  rw [Nat.succ_mul] at hlt
  simp only [page, List.length_take, List.length_drop]
  omega

/-- **Who is among the first `n` has less than `n` before it**: `p` holds of those that are
before it, and of none that is not. -/
theorem countP_lt_of_mem_take {r : α → α → Prop} {x : α} {p : α → Bool} (hsorted : xs.Pairwise r)
    (hx : x ∈ xs.take n) (hself : p x = false) (hlater : ∀ y, r x y → p y = false) :
    xs.countP p < n := by
  obtain ⟨before, after, hsplit⟩ := List.append_of_mem hx
  have hxs : xs = before ++ x :: (after ++ xs.drop n) := by
    conv_lhs => rw [← List.take_append_drop n xs, hsplit]
    simp
  have hrest : ∀ y ∈ after ++ xs.drop n, p y = false := fun y hy => by
    rw [hxs] at hsorted
    exact hlater y (List.rel_of_pairwise_cons (List.pairwise_append.mp hsorted).2.1 hy)
  have hnone : (after ++ xs.drop n).countP p = 0 :=
    List.countP_eq_zero.mpr fun y hy => by simp [hrest y hy]
  have hlength : (xs.take n).length = before.length + (after.length + 1) := by
    rw [hsplit, List.length_append, List.length_cons]
  have hle := List.countP_le_length (p := p) (l := before)
  have htake := List.length_take_le n xs
  rw [hxs, List.countP_append, List.countP_cons_of_neg (by simp [hself]), hnone]
  omega

end Pages

/-! ### The order of a listing -/

section Order

variable {ρ κ : Type*} [LinearOrder κ] {p : ρ → Bool} {key : ρ → κ} {rows rows' : List ρ}

/-- The rows that meet a condition, the one with the greatest key first. -/
def descending (p : ρ → Bool) (key : ρ → κ) (rows : List ρ) : List ρ :=
  (rows.filter p).insertionSort fun r r' => key r' ≤ key r

theorem perm_descending : (descending p key rows).Perm (rows.filter p) :=
  List.perm_insertionSort _ _

theorem mem_descending_iff {r : ρ} : r ∈ descending p key rows ↔ r ∈ rows ∧ p r = true := by
  rw [perm_descending.mem_iff, List.mem_filter]

theorem length_descending : (descending p key rows).length = rows.countP p := by
  rw [perm_descending.length_eq, List.countP_eq_length_filter]

theorem nodup_descending (h : (rows.map key).Nodup) : ((descending p key rows).map key).Nodup :=
  (perm_descending.map key).nodup_iff.mpr (h.sublist (List.filter_sublist.map key))

theorem pairwise_le_descending : (descending p key rows).Pairwise fun r r' => key r' ≤ key r := by
  have : IsTrans ρ fun r r' => key r' ≤ key r := ⟨fun _ _ _ h h' => h'.trans h⟩
  have : Std.Total fun r r' : ρ => key r' ≤ key r := ⟨fun r r' => le_total _ _⟩
  exact List.pairwise_insertionSort _ _

/-- **A listing is in strict order**, when no two rows have the same key. -/
theorem pairwise_descending (h : (rows.map key).Nodup) :
    (descending p key rows).Pairwise fun r r' => key r' < key r := by
  have hne : (descending p key rows).Pairwise fun r r' => key r ≠ key r' :=
    List.pairwise_map.mp (nodup_descending h)
  exact pairwise_le_descending.imp₂ (fun r r' hle hne => lt_of_le_of_ne hle hne.symm) hne

/-- **A listing is determined by its members**, when no two rows have the same key. -/
theorem descending_congr (h : (rows.map key).Nodup) (h' : (rows'.map key).Nodup)
    (hmem : ∀ r, p r = true → (r ∈ rows ↔ r ∈ rows')) :
    descending p key rows = descending p key rows' := by
  have hsame : ∀ r, r ∈ descending p key rows ↔ r ∈ descending p key rows' := by
    intro r
    rw [mem_descending_iff, mem_descending_iff]
    exact and_congr_left (hmem r)
  have hperm : (descending p key rows).Perm (descending p key rows') :=
    (List.perm_ext_iff_of_nodup (nodup_descending h).of_map (nodup_descending h').of_map).mpr hsame
  refine hperm.eq_of_pairwise (fun r r' _ _ hlt hlt' => ?_) (pairwise_descending h)
    (pairwise_descending h')
  exact absurd hlt (lt_asymm hlt')

end Order

end Listing
