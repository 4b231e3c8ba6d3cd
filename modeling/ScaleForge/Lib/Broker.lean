import Mathlib.Algebra.BigOperators.Group.List.Basic
import Mathlib.Algebra.GroupWithZero.Nat
import Mathlib.Data.List.Perm.Basic
import Mathlib.Logic.Function.Basic

/-!
# A message broker

Queues hold messages.  A delivery takes a message out of its queue and gives it
to a consumer under a tag; the delivery stays open until the consumer
acknowledges it, rejects it, or is lost, and a delivery closed in one of the
last two ways puts its message back into the queue.

The broker keeps the list of its deliveries, and the tag of a delivery is its
place in that list; it also keeps the list of the closings it has seen.

## Main definitions

* `Broker` — queues, deliveries and closings.
* `Broker.enqueue`, `remove`, `deliver`, `ack`, `requeue` — the operations.
* `Broker.Unacked` — an open delivery.
* `Broker.All` — a condition on every message the broker has seen.
* `Broker.select` — the messages of a kind.
* `Broker.load` — the weight of the messages in some queues.

## Main results

* `mem_enqueue_iff`, `mem_or_removed` — the messages of a queue after an
  operation.
* `All.enqueue`, `All.requeue`, `All.deliver` — only a new message has to be
  checked.
* `select_enqueue`, `length_select_remove` — the messages of a kind after an
  operation.
* `load_enqueue_le`, `load_remove` — the weight after an operation.
-/

/-- How a delivery was closed. -/
inductive Closing
  /-- The consumer acknowledged it. -/
  | ack
  /-- The consumer rejected it, to be requeued. -/
  | nack
  /-- The consumer was lost. -/
  | lost
  deriving DecidableEq, Repr

/-- The state of a broker. -/
structure Broker (θ μ : Type*) where
  /-- The messages ready in each queue. -/
  queues : θ → List μ
  /-- All deliveries so far, each at its tag. -/
  deliveries : List (θ × μ)
  /-- All closings so far. -/
  closed : List (ℕ × Closing)

namespace Broker

variable {θ μ : Type*} [DecidableEq θ]

/-- A broker whose queues are empty. -/
def empty : Broker θ μ := ⟨fun _ => [], [], []⟩

/-- Put a copy of a message into each of the queues. -/
def enqueue (b : Broker θ μ) (qs : List θ) (m : μ) : Broker θ μ :=
  { b with queues := fun q => if q ∈ qs then b.queues q ++ [m] else b.queues q }

/-- Take the message at a position out of a queue. -/
def remove (b : Broker θ μ) (q : θ) (n : ℕ) : Broker θ μ :=
  { b with queues := Function.update b.queues q ((b.queues q).eraseIdx n) }

/-- Deliver a message, under the next tag. -/
def deliver (b : Broker θ μ) (q : θ) (n : ℕ) (m : μ) : Broker θ μ :=
  { b.remove q n with deliveries := b.deliveries ++ [(q, m)] }

/-- The delivery with a tag is closed. -/
def close (b : Broker θ μ) (tag : ℕ) (how : Closing) : Broker θ μ :=
  { b with closed := (tag, how) :: b.closed }

/-- Close a delivery and put its message back. -/
def requeue (b : Broker θ μ) (tag : ℕ) (how : Closing) : Broker θ μ :=
  match b.deliveries[tag]? with
  | none => b.close tag how
  | some (q, m) => (b.close tag how).enqueue [q] m

/-- The delivery with a tag is open. -/
def Unacked (b : Broker θ μ) (tag : ℕ) (q : θ) (m : μ) : Prop :=
  b.deliveries[tag]? = some (q, m) ∧ tag ∉ b.closed.map Prod.fst

variable {b : Broker θ μ} {q q' : θ} {qs : List θ} {m x : μ} {n tag : ℕ}

/-! ### Closing a delivery -/

theorem requeue_eq {how : Closing} (h : b.deliveries[tag]? = some (q, m)) :
    b.requeue tag how = (b.close tag how).enqueue [q] m := by
  unfold requeue
  rw [h]

@[simp] theorem requeue_deliveries {how : Closing} :
    (b.requeue tag how).deliveries = b.deliveries := by
  unfold requeue
  split <;> rfl

@[simp] theorem requeue_closed {how : Closing} :
    (b.requeue tag how).closed = (tag, how) :: b.closed := by
  unfold requeue
  split <;> rfl

/-! ### The messages of a queue -/

theorem enqueue_queues : (b.enqueue qs m).queues q =
    if q ∈ qs then b.queues q ++ [m] else b.queues q := rfl

theorem mem_enqueue_iff :
    x ∈ (b.enqueue qs m).queues q ↔ x ∈ b.queues q ∨ q ∈ qs ∧ x = m := by
  rw [enqueue_queues]
  split
  · next h => simp [h]
  · next h => simp [h]

theorem mem_enqueue_of_mem (h : x ∈ b.queues q) : x ∈ (b.enqueue qs m).queues q :=
  mem_enqueue_iff.mpr (Or.inl h)

/-- What a queue holds after one message is taken out, it held before. -/
theorem mem_of_mem_remove (h : x ∈ (b.remove q n).queues q') : x ∈ b.queues q' := by
  by_cases hq : q' = q
  · subst hq
    simp only [remove, Function.update_self] at h
    exact List.mem_of_mem_eraseIdx h
  · simpa [remove, hq] using h

/-- **Only the message that is taken out is missing.** -/
theorem mem_or_removed (h : x ∈ b.queues q') (hm : (b.queues q)[n]? = some m) :
    x ∈ (b.remove q n).queues q' ∨ q' = q ∧ x = m := by
  by_cases hq : q' = q
  · subst hq
    obtain ⟨hn, heq⟩ := List.getElem?_eq_some_iff.mp hm
    have hperm := List.getElem_cons_eraseIdx_perm hn
    rcases List.mem_cons.mp (hperm.mem_iff.mpr h) with hx | hx
    · exact Or.inr ⟨rfl, hx.trans heq⟩
    · left
      simp only [remove, Function.update_self]
      exact hx
  · left
    simpa [remove, hq] using h

/-! ### A condition on all messages -/

/-- Every message, in a queue or delivered from it, meets a condition. -/
structure All (P : θ → μ → Prop) (b : Broker θ μ) : Prop where
  queues : ∀ q, ∀ m ∈ b.queues q, P q m
  deliveries : ∀ q m, (q, m) ∈ b.deliveries → P q m

namespace All

variable {P Q : θ → μ → Prop}

omit [DecidableEq θ] in
theorem empty : All P (Broker.empty : Broker θ μ) :=
  ⟨fun _ _ hm => (List.not_mem_nil hm).elim, fun _ _ hm => (List.not_mem_nil hm).elim⟩

variable (h : All P b)

include h

omit [DecidableEq θ] in
theorem mono (hPQ : ∀ q m, P q m → Q q m) : All Q b :=
  ⟨fun q m hm => hPQ q m (h.queues q m hm), fun q m hm => hPQ q m (h.deliveries q m hm)⟩

theorem enqueue (hqs : ∀ q ∈ qs, P q m) : All P (b.enqueue qs m) := by
  refine ⟨fun q x hx => ?_, h.deliveries⟩
  rcases mem_enqueue_iff.mp hx with hold | ⟨hq, rfl⟩
  · exact h.queues q x hold
  · exact hqs q hq

theorem remove (q : θ) (n : ℕ) : All P (b.remove q n) :=
  ⟨fun q' x hx => h.queues q' x (mem_of_mem_remove hx), h.deliveries⟩

omit [DecidableEq θ] in
theorem close (tag : ℕ) (how : Closing) : All P (b.close tag how) := ⟨h.queues, h.deliveries⟩

theorem requeue (tag : ℕ) (how : Closing) : All P (b.requeue tag how) := by
  unfold Broker.requeue
  split
  · exact h.close tag how
  · next q m hm =>
    refine (h.close tag how).enqueue fun q' hq' => ?_
    rw [List.mem_singleton.mp hq']
    exact h.deliveries q m (List.mem_of_getElem? hm)

theorem deliver (hm : (b.queues q)[n]? = some m) : All P (b.deliver q n m) := by
  refine ⟨(h.remove q n).queues, fun q' m' hmem => ?_⟩
  rcases List.mem_append.mp hmem with hold | hnew
  · exact h.deliveries q' m' hold
  · cases List.mem_singleton.mp hnew
    exact h.queues q m (List.mem_of_getElem? hm)

end All

/-! ### The messages of a kind -/

/-- The messages of a queue that meet a condition. -/
def select (b : Broker θ μ) (p : μ → Bool) (q : θ) : List μ := (b.queues q).filter p

variable {p : μ → Bool}

omit [DecidableEq θ] in
theorem mem_select_iff : x ∈ b.select p q ↔ x ∈ b.queues q ∧ p x = true := List.mem_filter

theorem select_enqueue : (b.enqueue qs m).select p q =
    if q ∈ qs ∧ p m = true then b.select p q ++ [m] else b.select p q := by
  unfold select
  rw [enqueue_queues]
  by_cases hq : q ∈ qs
  · by_cases hm : p m = true
    · simp [hq, hm]
    · simp [hq, hm]
  · simp [hq]

/-- Taking out a message takes it out of its kind alone. -/
theorem length_select_remove (hm : (b.queues q)[n]? = some m) :
    ((b.remove q n).select p q').length + (if q' = q ∧ p m = true then 1 else 0) =
      (b.select p q').length := by
  by_cases hq : q' = q
  · subst hq
    obtain ⟨hn, heq⟩ := List.getElem?_eq_some_iff.mp hm
    have hperm := List.getElem_cons_eraseIdx_perm hn
    have hcount := hperm.countP_eq p
    rw [List.countP_cons, heq] at hcount
    simp only [select, ← List.countP_eq_length_filter, remove, Function.update_self, true_and]
    exact hcount
  · simp [select, remove, hq]

/-- Taking out a message of another kind or from another queue changes nothing. -/
theorem select_remove_of_not (hm : (b.queues q)[n]? = some m) (hnot : ¬(q' = q ∧ p m = true)) :
    (b.remove q n).select p q' = b.select p q' := by
  have hsub : ((b.remove q n).select p q').Sublist (b.select p q') := by
    refine List.Sublist.filter p ?_
    by_cases hq : q' = q
    · subst hq
      simp only [remove, Function.update_self]
      exact List.eraseIdx_sublist _ _
    · simp [remove, hq]
  have hlength : ((b.remove q n).select p q').length + (if q' = q ∧ p m = true then 1 else 0) =
      (b.select p q').length := length_select_remove hm
  rw [if_neg hnot, Nat.add_zero] at hlength
  exact hsub.eq_of_length hlength

/-! ### The weight of the messages -/

/-- The weight of the messages in some queues. -/
def load (b : Broker θ μ) (f : μ → ℕ) (qs : List θ) : ℕ :=
  (qs.map fun q => ((b.queues q).map f).sum).sum

variable {f : μ → ℕ} {qs' : List θ}

omit [DecidableEq θ] in
theorem load_cons : b.load f (q :: qs) = ((b.queues q).map f).sum + b.load f qs := rfl

omit [DecidableEq θ] in
theorem load_congr {b' : Broker θ μ} (h : ∀ q ∈ qs, b'.queues q = b.queues q) :
    b'.load f qs = b.load f qs := by
  unfold load
  rw [List.map_congr_left fun q hq => by rw [h q hq]]

/-- A message adds its weight once for each of the queues, at most. -/
theorem load_enqueue_le : (b.enqueue qs' m).load f qs ≤ b.load f qs + qs.length * f m := by
  induction qs with
  | nil => exact Nat.zero_le _
  | cons q qs ih =>
    have hq : (((b.enqueue qs' m).queues q).map f).sum ≤ ((b.queues q).map f).sum + f m := by
      rw [enqueue_queues]
      split
      · simp
      · exact Nat.le_add_right _ _
    rw [load_cons, load_cons, List.length_cons, Nat.succ_mul]
    omega

/-- A message adds nothing to queues it is not put into. -/
theorem load_enqueue_of_not (h : ∀ q ∈ qs, q ∉ qs') :
    (b.enqueue qs' m).load f qs = b.load f qs := by
  refine load_congr fun q hq => ?_
  rw [enqueue_queues, if_neg (h q hq)]

theorem sum_remove_queues (hm : (b.queues q)[n]? = some m) :
    (((b.remove q n).queues q).map f).sum + f m = ((b.queues q).map f).sum := by
  obtain ⟨hn, heq⟩ := List.getElem?_eq_some_iff.mp hm
  have hperm := ((List.getElem_cons_eraseIdx_perm hn).map f).sum_eq
  rw [List.map_cons, List.sum_cons, heq] at hperm
  simp only [remove, Function.update_self]
  omega

/-- Taking out a message never adds weight. -/
theorem load_remove_le (hm : (b.queues q)[n]? = some m) :
    (b.remove q n).load f qs ≤ b.load f qs := by
  induction qs with
  | nil => exact Nat.le_refl _
  | cons q' qs ih =>
    rw [load_cons, load_cons]
    by_cases hq : q' = q
    · have hsum := sum_remove_queues (f := f) hm
      rw [hq]
      omega
    · have hsame : (b.remove q n).queues q' = b.queues q' := by simp [remove, hq]
      rw [hsame]
      omega

/-- Taking out a message takes its weight off the queues. -/
theorem load_remove (hq : q ∈ qs) (hm : (b.queues q)[n]? = some m) :
    (b.remove q n).load f qs + f m ≤ b.load f qs := by
  induction qs with
  | nil => exact absurd hq List.not_mem_nil
  | cons q' qs ih =>
    rw [load_cons, load_cons]
    by_cases hqq : q' = q
    · have hsum := sum_remove_queues (f := f) hm
      have hrest : (b.remove q n).load f qs ≤ b.load f qs := load_remove_le hm
      rw [hqq]
      omega
    · have hsame : (b.remove q n).queues q' = b.queues q' := by simp [remove, hqq]
      have hrest := ih (List.mem_of_ne_of_mem (Ne.symm hqq) hq)
      rw [hsame]
      omega

end Broker
