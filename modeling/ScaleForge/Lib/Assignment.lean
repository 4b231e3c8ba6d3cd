import Mathlib.Data.List.Induction
import Mathlib.Logic.Function.Basic

/-!
# Runs of assignments

A map is filled by a list of assignments, one after the other.  A key ends up with the
value of its last assignment, so that only the order among the assignments to one key
matters.

## Main definitions

* `assign` — one assignment.
* `lastValue` — the value of the last assignment to a key.

## Main results

* `foldl_assign_apply` — a run leaves the last value at every key.
* `foldl_assign_congr` — assignments to different keys commute.
* `foldl_assign_overridden` — an assignment that a later one repeats has no effect.
-/

namespace Assignment

variable {γ κ ν : Type*} [DecidableEq κ] (key : γ → κ) (value : γ → ν)

/-- Assign the value of `g` to its key. -/
def assign (m : κ → Option ν) (g : γ) : κ → Option ν := Function.update m (key g) (some (value g))

/-- The value of the last assignment to a key. -/
def lastValue (gs : List γ) (k : κ) : Option ν :=
  (gs.filter fun g => key g = k).getLast?.map value

theorem lastValue_append (gs hs : List γ) (k : κ) :
    lastValue key value (gs ++ hs) k =
      (lastValue key value hs k).or (lastValue key value gs k) := by
  rw [lastValue, List.filter_append, List.getLast?_append, Option.map_or]
  rfl

theorem lastValue_singleton (g : γ) (k : κ) :
    lastValue key value [g] k = if key g = k then some (value g) else none := by
  by_cases h : key g = k
  · simp [lastValue, h]
  · simp [lastValue, h]

theorem lastValue_eq_none_iff {gs : List γ} {k : κ} :
    lastValue key value gs k = none ↔ ∀ g ∈ gs, key g ≠ k := by
  simp [lastValue]

/-- **A run leaves the last value at every key.** -/
theorem foldl_assign_apply (gs : List γ) (m : κ → Option ν) (k : κ) :
    gs.foldl (assign key value) m k = (lastValue key value gs k).or (m k) := by
  induction gs using List.reverseRecOn with
  | nil => rfl
  | append_singleton gs g ih =>
    rw [List.foldl_append, List.foldl_cons, List.foldl_nil, lastValue_append,
      lastValue_singleton, assign]
    by_cases h : key g = k
    · subst h
      simp
    · rw [Function.update_of_ne (Ne.symm h), ih, if_neg h]
      rfl

/-- **Assignments to different keys commute**: a run depends on the assignments to each
key alone. -/
theorem foldl_assign_congr {gs hs : List γ}
    (h : ∀ k, gs.filter (fun g => key g = k) = hs.filter fun g => key g = k)
    (m : κ → Option ν) : gs.foldl (assign key value) m = hs.foldl (assign key value) m := by
  funext k
  rw [foldl_assign_apply, foldl_assign_apply, lastValue, lastValue, h k]

/-- **An assignment that a later one repeats has no effect.** -/
theorem foldl_assign_overridden {gs hs : List γ} {g : γ} (h : ∃ g' ∈ hs, key g' = key g)
    (m : κ → Option ν) :
    (gs ++ g :: hs).foldl (assign key value) m = (gs ++ hs).foldl (assign key value) m := by
  funext k
  rw [List.foldl_append, List.foldl_append, List.foldl_cons, foldl_assign_apply,
    foldl_assign_apply key value hs]
  by_cases hk : key g = k
  · -- the value is taken from the rest
    obtain ⟨v, hv⟩ : ∃ v, lastValue key value hs k = some v := by
      rw [← Option.ne_none_iff_exists']
      intro hnone
      obtain ⟨g', hg', hkey⟩ := h
      exact (lastValue_eq_none_iff key value).mp hnone g' hg' (hkey.trans hk)
    rw [hv]
    rfl
  · rw [assign, Function.update_of_ne (Ne.symm hk)]

end Assignment
