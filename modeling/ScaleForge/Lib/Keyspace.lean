import ScaleForge.Lib.Table

/-!
# A keyspace with expiry and cursors

A keyspace is the list of its entries; an entry may expire, and may be iterated over
page by page while others write.  An iteration promises little: it returns every key
that is there from its beginning to its end at least once, and any other key or not.
To say so, an entry keeps the number of the operation since which its key has been
there without a gap.

## Main definitions

* `Entry` — a key with its value.
* `get`, `set`, `del`, `elapse` — the operations.
* `covers` — what an iteration that has ended promises.

## Main results

* `mem_set`, `mem_del`, `mem_elapse` — the entries after an operation.
* `perm_del_append_hits` — a deletion splits the entries.
* `covers_iff` — the promise, entry by entry.
-/

namespace Keyspace

open Table

/-- A key with its value. -/
structure Entry (κ ν : Type*) where
  key : κ
  value : ν
  /-- When it expires, if it does. -/
  expiresAt : Option ℕ
  /-- The operation since which the key has been there. -/
  since : ℕ
  deriving DecidableEq

variable {κ ν : Type*} [DecidableEq κ]

/-- The entry of a key. -/
def get (key : κ) (entries : List (Entry κ ν)) : Option (Entry κ ν) :=
  entries.find? fun e => e.key = key

/-- Write a key, as the operation `stamp`. -/
def set (stamp : ℕ) (key : κ) (value : ν) (expiresAt : Option ℕ) (entries : List (Entry κ ν)) :
    List (Entry κ ν) :=
  match get key entries with
  | none => entries ++ [⟨key, value, expiresAt, stamp⟩]
  | some _ => update (fun e => e.key = key)
      (fun e => { e with value := value, expiresAt := expiresAt }) entries

/-- Delete keys. -/
def del (keys : List κ) (entries : List (Entry κ ν)) : List (Entry κ ν) :=
  entries.filter fun e => e.key ∉ keys

/-- The entries a deletion finds. -/
def hits (keys : List κ) (entries : List (Entry κ ν)) : List (Entry κ ν) :=
  entries.filter fun e => e.key ∈ keys

/-- How many entries a deletion finds. -/
def delCount (keys : List κ) (entries : List (Entry κ ν)) : ℕ :=
  entries.countP fun e => e.key ∈ keys

/-- What is left at the time `now`. -/
def elapse (now : ℕ) (entries : List (Entry κ ν)) : List (Entry κ ν) :=
  entries.filter fun e => e.expiresAt.all fun t => decide (now < t)

/-- **What an iteration promises**: the keys that meet `p` and have been there since
before the operation `began` are among those it has returned. -/
def covers (p : κ → Bool) (began : ℕ) (returned : List κ) (entries : List (Entry κ ν)) : Bool :=
  entries.all fun e => !(p e.key && decide (e.since < began)) || decide (e.key ∈ returned)

section Lemmas

variable {key : κ} {entries : List (Entry κ ν)} {e : Entry κ ν}

theorem mem_of_get (h : get key entries = some e) : e ∈ entries ∧ e.key = key := by
  refine ⟨List.mem_of_find?_eq_some h, ?_⟩
  have hkey := List.find?_some h
  exact of_decide_eq_true hkey

/-- **The entries after a write**: the others, and the one written, whose key may have
been there before. -/
theorem mem_set {stamp : ℕ} {value : ν} {expiresAt : Option ℕ}
    (h : e ∈ set stamp key value expiresAt entries) :
    (e ∈ entries ∧ e.key ≠ key) ∨
      e.key = key ∧ e.value = value ∧ e.expiresAt = expiresAt ∧
        (e.since = stamp ∨ ∃ e₀ ∈ entries, e₀.key = key ∧ e₀.since = e.since) := by
  unfold set at h
  split at h
  · next hnone =>
    rcases List.mem_append.mp h with hold | hnew
    · refine Or.inl ⟨hold, ?_⟩
      have hkey := List.find?_eq_none.mp hnone e hold
      simpa using hkey
    · rw [List.mem_singleton.mp hnew]
      exact Or.inr ⟨rfl, rfl, rfl, Or.inl rfl⟩
  · obtain ⟨e₀, he₀, rfl⟩ := mem_update.mp h
    by_cases hkey : e₀.key = key
    · rw [if_pos (by simp [hkey])]
      exact Or.inr ⟨hkey, rfl, rfl, Or.inr ⟨e₀, he₀, hkey, rfl⟩⟩
    · rw [if_neg (by simp [hkey])]
      exact Or.inl ⟨he₀, hkey⟩

theorem mem_del {keys : List κ} : e ∈ del keys entries ↔ e ∈ entries ∧ e.key ∉ keys := by
  simp [del]

theorem mem_hits {keys : List κ} : e ∈ hits keys entries ↔ e ∈ entries ∧ e.key ∈ keys := by
  simp [hits]

theorem delCount_eq_length {keys : List κ} : delCount keys entries = (hits keys entries).length :=
  List.countP_eq_length_filter

/-- **A deletion splits the entries** into those left and those found. -/
theorem perm_del_append_hits (keys : List κ) (entries : List (Entry κ ν)) :
    entries.Perm (del keys entries ++ hits keys entries) := by
  have hsplit := List.filter_append_perm (fun e : Entry κ ν => decide (e.key ∈ keys)) entries
  have hdel : entries.filter (fun e => !decide (e.key ∈ keys)) = del keys entries := by
    simp only [del, decide_not]
  rw [hdel] at hsplit
  exact hsplit.symm.trans List.perm_append_comm

omit [DecidableEq κ] in
theorem mem_elapse {now : ℕ} :
    e ∈ elapse now entries ↔ e ∈ entries ∧ ∀ t, e.expiresAt = some t → now < t := by
  simp only [elapse, List.mem_filter, and_congr_right_iff]
  intro _
  cases e.expiresAt <;> simp

theorem covers_iff {p : κ → Bool} {began : ℕ} {returned : List κ} :
    covers p began returned entries = true ↔
      ∀ e ∈ entries, p e.key = true → e.since < began → e.key ∈ returned := by
  simp only [covers, List.all_eq_true, Bool.or_eq_true, Bool.not_eq_true', Bool.and_eq_false_iff,
    decide_eq_false_iff_not, decide_eq_true_eq]
  refine forall₂_congr fun e _ => ?_
  constructor
  · rintro ((hp | hsince) | hreturned) hp' hsince'
    · rw [hp] at hp'
      cases hp'
    · exact absurd hsince' hsince
    · exact hreturned
  · intro h
    by_cases hp : p e.key = true
    · by_cases hsince : e.since < began
      · exact Or.inr (h hp hsince)
      · exact Or.inl (Or.inr hsince)
    · exact Or.inl (Or.inl (Bool.eq_false_iff.mpr hp))

end Lemmas

end Keyspace
