import ScaleForge.Lib.Transition
import Mathlib.Algebra.BigOperators.Group.Finset.Basic

/-!
# Concurrent calls on a shared state

Any number of calls run on one shared state, each as a sequence of atomic steps.
A `Machine` says what the next step of a call does to the shared state and where
the call stands afterwards; the environment may change the shared state between
the steps.  An action of the system is a step of the environment, the arrival of
a call, or one step of one call, so a run is any interleaving of all of them.

## Main definitions

* `Machine` — the steps of a call.
* `State`, `Action`, `system` — the calls on the shared state.
* `State.total` — the weight of some calls.

## Main results

* `step_cases` — a step of the system, taken apart.
* `shared_invariant`, `call_invariant` — the invariant rules for the shared state
  and for what a call knows.
* `final_stable` — a call that can take no step stays where it is.
* `exclusive` — calls that take only free locks never hold the same one.
-/

namespace Calls

open Transition

/-- A call, and how far it has come. -/
structure Call (ρ π : Type*) where
  /-- What was asked for. -/
  request : ρ
  /-- Where the call stands. -/
  pc : π
  deriving DecidableEq

/-- The steps of a call; `κ` is what the surroundings decide in a step. -/
structure Machine (δ κ ρ π : Type*) where
  /-- Where a call starts. -/
  start : π
  /-- One step: the shared state and the place of the call after it. -/
  advance : δ → κ → ρ → π → Option (δ × π)

/-- The shared state and the calls. -/
structure State (δ ρ π : Type*) where
  shared : δ
  calls : ℕ → Option (Call ρ π)

/-- One step of the system. -/
inductive Action (ε κ ρ : Type*)
  /-- The environment changes the shared state. -/
  | environment (e : ε)
  /-- A call arrives. -/
  | request (i : ℕ) (r : ρ)
  /-- A call takes a step. -/
  | advance (i : ℕ) (c : κ)

section System

variable {δ κ ρ π ε : Type*} (M : Machine δ κ ρ π) (env : δ → ε → Option δ)

/-- The state after a call has moved. -/
def State.move (s : State δ ρ π) (i : ℕ) (r : ρ) (d : δ) (pc : π) : State δ ρ π where
  shared := d
  calls := Function.update s.calls i (some ⟨r, pc⟩)

/-- The state after an action, when it is enabled. -/
def step (s : State δ ρ π) : Action ε κ ρ → Option (State δ ρ π)
  | .environment e => (env s.shared e).map fun d => { s with shared := d }
  | .request i r =>
    match s.calls i with
    | none => some (s.move i r s.shared M.start)
    | some _ => none
  | .advance i c =>
    match s.calls i with
    | none => none
    | some call =>
      (M.advance s.shared c call.request call.pc).map fun q => s.move i call.request q.1 q.2

/-- The system from the shared states that meet `init`, before any call. -/
def system (init : δ → Prop) : Sys (State δ ρ π) (Action ε κ ρ) where
  init s := init s.shared ∧ ∀ i, s.calls i = none
  step := step M env

variable {M env} {s s' : State δ ρ π} {a : Action ε κ ρ}

@[simp] theorem move_calls_self (s : State δ ρ π) (i : ℕ) (r : ρ) (d : δ) (pc : π) :
    (s.move i r d pc).calls i = some ⟨r, pc⟩ :=
  Function.update_self _ _ _

theorem move_calls_of_ne (s : State δ ρ π) {i j : ℕ} (h : j ≠ i) (r : ρ) (d : δ) (pc : π) :
    (s.move i r d pc).calls j = s.calls j :=
  Function.update_of_ne h _ _

/-- Of two moves of a call the second counts. -/
theorem State.move_move (s : State δ ρ π) (i : ℕ) (r : ρ) (d : δ) (pc : π) (d' : δ) (pc' : π) :
    (s.move i r d pc).move i r d' pc' = s.move i r d' pc' := by
  simp only [State.move, Function.update_idem]

/-- A call after a move: it is the one that moved, or stands where it stood. -/
theorem move_calls_cases {i j : ℕ} {r r' : ρ} {d : δ} {pc pc' : π}
    (h : (s.move j r d pc).calls i = some ⟨r', pc'⟩) :
    (i = j ∧ r = r' ∧ pc = pc') ∨ (i ≠ j ∧ s.calls i = some ⟨r', pc'⟩) := by
  by_cases hi : i = j
  · rw [hi, move_calls_self, Option.some.injEq, Call.mk.injEq] at h
    exact Or.inl ⟨hi, h⟩
  · rw [move_calls_of_ne s hi] at h
    exact Or.inr ⟨hi, h⟩

/-- **A step of the system, taken apart.** -/
theorem step_cases (h : step M env s a = some s') :
    (∃ e d, a = .environment e ∧ env s.shared e = some d ∧ s' = { s with shared := d }) ∨
    (∃ i r, a = .request i r ∧ s.calls i = none ∧ s' = s.move i r s.shared M.start) ∨
    ∃ i c r pc d pc', a = .advance i c ∧ s.calls i = some ⟨r, pc⟩ ∧
      M.advance s.shared c r pc = some (d, pc') ∧ s' = s.move i r d pc' := by
  cases a with
  | environment e =>
    simp only [step, Option.map_eq_some_iff] at h
    obtain ⟨d, hd, rfl⟩ := h
    exact Or.inl ⟨e, d, rfl, hd, rfl⟩
  | request i r =>
    simp only [step] at h
    split at h
    · next hnone => exact Or.inr (Or.inl ⟨i, r, rfl, hnone, (Option.some.inj h).symm⟩)
    · cases h
  | advance i c =>
    simp only [step] at h
    split at h
    · cases h
    · next call hcall =>
      rw [Option.map_eq_some_iff] at h
      obtain ⟨⟨d, pc'⟩, hadv, rfl⟩ := h
      exact Or.inr (Or.inr ⟨i, c, call.request, call.pc, d, pc', rfl, hcall, hadv, rfl⟩)

/-- What a step does to the shared state: a step of the environment, of a call,
or nothing. -/
theorem shared_of_step (h : step M env s a = some s') :
    (∃ e, env s.shared e = some s'.shared) ∨ s'.shared = s.shared ∨
      ∃ c r pc pc', M.advance s.shared c r pc = some (s'.shared, pc') := by
  rcases step_cases h with ⟨e, d, -, hd, rfl⟩ | ⟨i, r, -, -, rfl⟩ |
    ⟨i, c, r, pc, d, pc', -, -, hadv, rfl⟩
  · exact Or.inl ⟨e, hd⟩
  · exact Or.inr (Or.inl rfl)
  · exact Or.inr (Or.inr ⟨c, r, pc, pc', hadv⟩)

/-- A call after a step: it stands where it stood, it has just arrived, or it is
the one that moved. -/
theorem calls_of_step (h : step M env s a = some s') {i : ℕ} {r : ρ} {pc : π}
    (hcall : s'.calls i = some ⟨r, pc⟩) :
    s.calls i = some ⟨r, pc⟩ ∨ (s.calls i = none ∧ pc = M.start) ∨
      ∃ c pc₀, a = .advance i c ∧ s.calls i = some ⟨r, pc₀⟩ ∧
        M.advance s.shared c r pc₀ = some (s'.shared, pc) := by
  rcases step_cases h with ⟨e, d, -, -, rfl⟩ | ⟨j, r', -, hnone, rfl⟩ |
    ⟨j, c, r', pc₀, d, pc', rfl, hold, hadv, rfl⟩
  · exact Or.inl hcall
  · rcases move_calls_cases hcall with ⟨rfl, -, rfl⟩ | ⟨-, hsame⟩
    · exact Or.inr (Or.inl ⟨hnone, rfl⟩)
    · exact Or.inl hsame
  · rcases move_calls_cases hcall with ⟨rfl, rfl, rfl⟩ | ⟨-, hsame⟩
    · exact Or.inr (Or.inr ⟨c, pc₀, rfl, hold, hadv⟩)
    · exact Or.inl hsame

/-- A call that is there after a step was there before, or has just arrived. -/
theorem arrived_of_step (h : step M env s a = some s') {i : ℕ} {r : ρ} {pc : π}
    (hcall : s'.calls i = some ⟨r, pc⟩) :
    (∃ pc₀, s.calls i = some ⟨r, pc₀⟩) ∨ a = .request i r := by
  rcases step_cases h with ⟨e, d, -, -, rfl⟩ | ⟨j, r', rfl, -, rfl⟩ |
    ⟨j, c, r', pc₀, d, pc', -, hold, -, rfl⟩
  · exact Or.inl ⟨pc, hcall⟩
  · rcases move_calls_cases hcall with ⟨rfl, rfl, -⟩ | ⟨-, hsame⟩
    · exact Or.inr rfl
    · exact Or.inl ⟨pc, hsame⟩
  · rcases move_calls_cases hcall with ⟨rfl, rfl, -⟩ | ⟨-, hsame⟩
    · exact Or.inl ⟨pc₀, hold⟩
    · exact Or.inl ⟨pc, hsame⟩

/-- What a call was asked for never changes. -/
theorem request_stable (h : step M env s a = some s') {i : ℕ} {r : ρ}
    (hcall : ∃ pc, s.calls i = some ⟨r, pc⟩) : ∃ pc, s'.calls i = some ⟨r, pc⟩ := by
  obtain ⟨pc, hcall⟩ := hcall
  rcases step_cases h with ⟨e, d, -, -, rfl⟩ | ⟨j, r', -, hnone, rfl⟩ |
    ⟨j, c, r', pc₀, d, pc', -, hold, -, rfl⟩
  · exact ⟨pc, hcall⟩
  · have hi : i ≠ j := by
      rintro rfl
      rw [hnone] at hcall
      cases hcall
    exact ⟨pc, (move_calls_of_ne s hi _ _ _).trans hcall⟩
  · by_cases hi : i = j
    · subst hi
      rw [hold, Option.some.injEq, Call.mk.injEq] at hcall
      exact ⟨pc', by rw [move_calls_self, hcall.1]⟩
    · exact ⟨pc, (move_calls_of_ne s hi _ _ _).trans hcall⟩

/-- A call that can take no step stays where it is. -/
theorem final_stable (h : step M env s a = some s') {i : ℕ} {r : ρ} {pc : π}
    (hcall : s.calls i = some ⟨r, pc⟩) (hfinal : ∀ d c, M.advance d c r pc = none) :
    s'.calls i = some ⟨r, pc⟩ := by
  rcases step_cases h with ⟨e, d, -, -, rfl⟩ | ⟨j, r', -, hnone, rfl⟩ |
    ⟨j, c, r', pc₀, d, pc', -, hold, hadv, rfl⟩
  · exact hcall
  · have hi : i ≠ j := by
      rintro rfl
      rw [hnone] at hcall
      cases hcall
    exact (move_calls_of_ne s hi _ _ _).trans hcall
  · have hi : i ≠ j := by
      rintro rfl
      rw [hold, Option.some.injEq, Call.mk.injEq] at hcall
      rw [hcall.1, hcall.2, hfinal] at hadv
      cases hadv
    exact (move_calls_of_ne s hi _ _ _).trans hcall

/-- The weight of the calls with numbers in `I`. -/
def State.total (s : State δ ρ π) (f : π → ℕ) (I : Finset ℕ) : ℕ :=
  ∑ i ∈ I, (s.calls i).elim 0 fun call => f call.pc

/-- A move changes the weight of the call that moves alone. -/
theorem total_move {I : Finset ℕ} {i : ℕ} (hi : i ∈ I) (f : π → ℕ) (r : ρ) (d : δ) (pc : π) :
    (s.move i r d pc).total f I + (s.calls i).elim 0 (fun call => f call.pc) =
      s.total f I + f pc := by
  have hrest : ∑ j ∈ I.erase i, ((s.move i r d pc).calls j).elim 0 (fun call => f call.pc) =
      ∑ j ∈ I.erase i, (s.calls j).elim 0 fun call => f call.pc := by
    refine Finset.sum_congr rfl fun j hj => ?_
    rw [move_calls_of_ne s (Finset.ne_of_mem_erase hj)]
  have hself : ((s.move i r d pc).calls i).elim 0 (fun call => f call.pc) = f pc := by
    rw [move_calls_self, Option.elim_some]
  unfold State.total
  rw [← Finset.add_sum_erase I _ hi, ← Finset.add_sum_erase I _ hi, hrest, hself]
  omega

end System

section Rules

variable {δ κ ρ π ε : Type*} {M : Machine δ κ ρ π} {env : δ → ε → Option δ} {init : δ → Prop}
  {s : State δ ρ π}

/-- **The rule for the shared state**: what holds at first and is kept by the
environment and by every step of a call holds in every reachable state. -/
theorem shared_invariant {I : δ → Prop} (h0 : ∀ d, init d → I d)
    (henv : ∀ d e d', I d → env d e = some d' → I d')
    (hadv : ∀ d c r pc d' pc', I d → M.advance d c r pc = some (d', pc') → I d')
    (hs : (system M env init).Reachable s) : I s.shared := by
  refine hs.invariant (I := fun s => I s.shared) ?_ ?_
  · intro s hinit
    exact h0 _ hinit.1
  intro s a s' _ hI hstep
  rcases shared_of_step hstep with ⟨e, hd⟩ | hsame | ⟨c, r, pc, pc', hd⟩
  · exact henv _ _ _ hI hd
  · exact hsame ▸ hI
  · exact hadv _ _ _ _ _ _ hI hd

/-- A call that is there at the end of a run arrived in it. -/
theorem request_mem {s' : State δ ρ π} {as : List (Action ε κ ρ)}
    (h : (system M env init).exec s as = some s') {i : ℕ} (hs : s.calls i = none)
    (hs' : s'.calls i ≠ none) : ∃ r, Action.request i r ∈ as := by
  obtain ⟨t, a, t', htakes, ht, ht'⟩ := Sys.exists_takes (P := fun s => s.calls i ≠ none) h
    (not_not.mpr hs) hs'
  rw [not_not] at ht
  rcases step_cases htakes.step with ⟨e, d, -, -, rfl⟩ | ⟨j, r, rfl, -, rfl⟩ |
    ⟨j, c, r, pc, d, pc', -, hold, -, rfl⟩
  · exact absurd ht ht'
  · by_cases hi : i = j
    · exact ⟨r, hi ▸ htakes.mem⟩
    · rw [move_calls_of_ne t hi] at ht'
      exact absurd ht ht'
  · by_cases hi : i = j
    · rw [← hi, ht] at hold
      cases hold
    · rw [move_calls_of_ne t hi] at ht'
      exact absurd ht ht'

/-- **The rule for calls**: what a call knows when it starts, what its own steps
establish, and what every other step keeps. -/
theorem call_invariant {J : δ → ρ → π → Prop}
    (hstart : ∀ s r, (system M env init).Reachable s → J s.shared r M.start)
    (hadv : ∀ s c r pc d pc', (system M env init).Reachable s → J s.shared r pc →
      M.advance s.shared c r pc = some (d, pc') → J d r pc')
    (hkeep : ∀ s a s' r pc, (system M env init).Reachable s →
      step M env s a = some s' → J s.shared r pc → J s'.shared r pc)
    (hs : (system M env init).Reachable s) {i : ℕ} {r : ρ} {pc : π}
    (hcall : s.calls i = some ⟨r, pc⟩) : J s.shared r pc := by
  refine hs.invariant (I := fun s => ∀ i r pc, s.calls i = some ⟨r, pc⟩ → J s.shared r pc)
    ?_ ?_ i r pc hcall
  · intro s h0 i r pc hcall
    rw [h0.2 i] at hcall
    cases hcall
  · intro s a s' hs ih hstep i r pc hcall
    rcases calls_of_step hstep hcall with hsame | ⟨-, rfl⟩ | ⟨c, pc₀, -, hold, hstep'⟩
    · exact hkeep s a s' r pc hs hstep (ih i r pc hsame)
    · exact hkeep s a s' r _ hs hstep (hstart s r hs)
    · exact hadv s c r pc₀ _ pc hs (ih i r pc₀ hold) hstep'

/-- **Locks are exclusive.**  Suppose a call holds nothing at first, takes only
locks that are free, and leaves the locks of others alone.  Then every lock a
call holds is taken, and no two calls hold the same one. -/
theorem exclusive {κ' : Type*} (locked : δ → κ' → Prop) (holds : ρ → π → κ' → Prop)
    (hstart : ∀ r k, ¬holds r M.start k)
    (henv : ∀ d e d' k, env d e = some d' → locked d k → locked d' k)
    (hfree : ∀ d c r pc d' pc' k, M.advance d c r pc = some (d', pc') → holds r pc' k →
      ¬holds r pc k → ¬locked d k)
    (htaken : ∀ d c r pc d' pc' k, M.advance d c r pc = some (d', pc') → holds r pc' k →
      (holds r pc k → locked d k) → locked d' k)
    (hothers : ∀ d c r pc d' pc' k, M.advance d c r pc = some (d', pc') → locked d k →
      ¬holds r pc k → locked d' k)
    (hs : (system M env init).Reachable s) :
    (∀ i r pc k, s.calls i = some ⟨r, pc⟩ → holds r pc k → locked s.shared k) ∧
      ∀ i j r pc r' pc' k, s.calls i = some ⟨r, pc⟩ → s.calls j = some ⟨r', pc'⟩ →
        holds r pc k → holds r' pc' k → i = j := by
  refine hs.invariant (I := fun s =>
    (∀ i r pc k, s.calls i = some ⟨r, pc⟩ → holds r pc k → locked s.shared k) ∧
      ∀ i j r pc r' pc' k, s.calls i = some ⟨r, pc⟩ → s.calls j = some ⟨r', pc'⟩ →
        holds r pc k → holds r' pc' k → i = j) ?_ ?_
  · rintro s ⟨-, hnone⟩
    refine ⟨?_, ?_⟩
    · intro i r pc k hcall
      rw [hnone i] at hcall
      cases hcall
    · intro i j r pc r' pc' k hcall
      rw [hnone i] at hcall
      cases hcall
  · rintro s a s' - ⟨htook, hone⟩ h
    rcases step_cases h with ⟨e, d, rfl, he, rfl⟩ | ⟨n, rn, rfl, -, rfl⟩ |
      ⟨n, c, rn, pn, d, pn', rfl, hn, hadv, rfl⟩
    · exact ⟨fun i r pc k hcall hh => henv _ _ _ k he (htook i r pc k hcall hh), hone⟩
    · -- the new call holds nothing
      have hold : ∀ i r pc k, (s.move n rn s.shared M.start).calls i = some ⟨r, pc⟩ →
          holds r pc k → s.calls i = some ⟨r, pc⟩ := by
        intro i r pc k hcall hh
        rcases move_calls_cases hcall with ⟨-, rfl, rfl⟩ | ⟨-, hsame⟩
        · exact absurd hh (hstart _ _)
        · exact hsame
      exact ⟨fun i r pc k hcall hh => htook i r pc k (hold i r pc k hcall hh) hh,
        fun i j r pc r' pc' k hi hj hh hh' =>
          hone i j r pc r' pc' k (hold i r pc k hi hh) (hold j r' pc' k hj hh') hh hh'⟩
    · -- a lock of another call is not one of the call that moves, before or after
      have hother : ∀ j r pc k, j ≠ n → s.calls j = some ⟨r, pc⟩ → holds r pc k →
          ¬holds rn pn k ∧ ¬holds rn pn' k := by
        intro j r pc k hj hcall hh
        have hbefore : ¬holds rn pn k := fun hh' => hj (hone j n _ _ _ _ k hcall hn hh hh')
        exact ⟨hbefore, fun hh' =>
          hfree _ _ _ _ _ _ k hadv hh' hbefore (htook j r pc k hcall hh)⟩
      refine ⟨?_, ?_⟩
      · intro i r pc k hcall hh
        rcases move_calls_cases hcall with ⟨-, rfl, rfl⟩ | ⟨hi, hsame⟩
        · exact htaken _ _ _ _ _ _ k hadv hh fun hh' => htook n _ _ k hn hh'
        · exact hothers _ _ _ _ _ _ k hadv (htook i r pc k hsame hh) (hother i r pc k hi hsame hh).1
      · intro i j r pc r' pc' k hi hj hh hh'
        rcases move_calls_cases hi with ⟨hin, rfl, rfl⟩ | ⟨hin, hi⟩
        · rcases move_calls_cases hj with ⟨hjn, -, -⟩ | ⟨hjn, hj⟩
          · rw [hin, hjn]
          · exact absurd hh (hother j r' pc' k hjn hj hh').2
        · rcases move_calls_cases hj with ⟨-, rfl, rfl⟩ | ⟨hjn, hj⟩
          · exact absurd hh' (hother i r pc k hin hi hh).2
          · exact hone i j r pc r' pc' k hi hj hh hh'

end Rules

end Calls
