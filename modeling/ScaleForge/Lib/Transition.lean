import Mathlib.Data.List.Basic
import Mathlib.Data.List.Induction
import Mathlib.Logic.Function.Basic

/-!
# Transition systems with partial, executable steps

A system is a set of initial states and a partial step function: `step s a` is
the state after the action `a`, or `none` when `a` is not enabled in `s`.
Concurrency is interleaving, so all the nondeterminism of a run is in the list
of its actions; a run can then be evaluated, and a statement about every run is
a statement about every list of actions.

## Main definitions

* `Sys` — initial states and a step function.
* `Sys.exec` — run a list of actions.
* `Sys.Reachable` — the states of some run.
* `Sys.Takes` — the steps of a run.
* `Sys.count` — how many steps of a run are of a kind.
* `Sys.restrict` — the runs all of whose steps meet a condition on the state
  before the step and the action.

## Main results

* `Sys.Reachable.invariant` — a property that holds initially and is kept by
  every step from a reachable state holds in every reachable state.
* `Sys.exec_rel` — a preorder that every step respects relates the two ends of
  every run.
* `Sys.run_invariant` — the invariant rule for what depends on the run so far.
* `Sys.count_balance` — a quantity that the steps of one kind raise by one.
* `Sys.add_count_le` — a measure that the steps of one kind lower.
-/

namespace Transition

/-- A labelled transition system with an executable, partial step. -/
structure Sys (σ α : Type*) where
  /-- The initial states. -/
  init : σ → Prop
  /-- The state after an action, or `none` when it is not enabled. -/
  step : σ → α → Option σ

namespace Sys

variable {σ α : Type*} (S : Sys σ α)

/-- Run a list of actions; `none` as soon as one of them is not enabled. -/
def exec : σ → List α → Option σ
  | s, [] => some s
  | s, a :: as => (S.step s a).bind fun s' => exec s' as

@[simp] theorem exec_nil (s : σ) : S.exec s [] = some s := rfl

@[simp] theorem exec_cons (s : σ) (a : α) (as : List α) :
    S.exec s (a :: as) = (S.step s a).bind fun s' => S.exec s' as := rfl

theorem exec_singleton (s : σ) (a : α) : S.exec s [a] = S.step s a := by
  rw [exec_cons]
  cases S.step s a <;> rfl

/-- Running a concatenation is running its two halves. -/
theorem exec_append (s : σ) (as bs : List α) :
    S.exec s (as ++ bs) = (S.exec s as).bind fun s' => S.exec s' bs := by
  induction as generalizing s with
  | nil => rfl
  | cons a as ih =>
    rw [List.cons_append, exec_cons, exec_cons]
    cases S.step s a with
    | none => rfl
    | some s' => exact ih s'

/-- The states reached by some run from an initial state. -/
inductive Reachable : σ → Prop
  /-- Initial states are reachable. -/
  | init {s : σ} (h : S.init s) : Reachable s
  /-- A step from a reachable state reaches its target. -/
  | step {s s' : σ} {a : α} (hs : Reachable s) (h : S.step s a = some s') : Reachable s'

variable {S}

/-- The end of a run from a reachable state is reachable. -/
theorem Reachable.exec {s s' : σ} {as : List α} (hs : S.Reachable s)
    (h : S.exec s as = some s') : S.Reachable s' := by
  induction as generalizing s with
  | nil =>
    rw [exec_nil, Option.some.injEq] at h
    exact h ▸ hs
  | cons a as ih =>
    rw [exec_cons, Option.bind_eq_some_iff] at h
    obtain ⟨t, hstep, hrest⟩ := h
    exact ih (hs.step hstep) hrest

/-- **The invariant rule.**  The step may use that the state before it is
reachable, so an invariant can be proved on top of those already known. -/
theorem Reachable.invariant {I : σ → Prop} (h0 : ∀ s, S.init s → I s)
    (hstep : ∀ s a s', S.Reachable s → I s → S.step s a = some s' → I s')
    {s : σ} (hs : S.Reachable s) : I s := by
  induction hs with
  | init h => exact h0 _ h
  | step hs h ih => exact hstep _ _ _ hs ih h

/-- A property kept by every step from a reachable state is kept by every run. -/
theorem exec_stable {I : σ → Prop}
    (hstep : ∀ s a s', S.Reachable s → I s → S.step s a = some s' → I s')
    {s s' : σ} {as : List α} (hs : S.Reachable s) (hI : I s)
    (h : S.exec s as = some s') : I s' := by
  induction as generalizing s with
  | nil =>
    rw [exec_nil, Option.some.injEq] at h
    exact h ▸ hI
  | cons a as ih =>
    rw [exec_cons, Option.bind_eq_some_iff] at h
    obtain ⟨t, ht, hrest⟩ := h
    exact ih (hs.step ht) (hstep _ _ _ hs hI ht) hrest

/-- **The two ends of a run.**  A reflexive and transitive relation that every
step from a reachable state respects relates the ends of every run. -/
theorem exec_rel {R : σ → σ → Prop} (hrefl : ∀ s, R s s)
    (htrans : ∀ s t u, R s t → R t u → R s u)
    (hstep : ∀ s a s', S.Reachable s → S.step s a = some s' → R s s')
    {s s' : σ} {as : List α} (hs : S.Reachable s) (h : S.exec s as = some s') : R s s' :=
  exec_stable (I := fun t => R s t)
    (fun t a t' ht hR hst => htrans _ _ _ hR (hstep t a t' ht hst)) hs (hrefl s) h

/-! ### The steps of a run -/

/-- The run `as` from `s` takes the step `a` from `t` to `t'`. -/
inductive Takes (S : Sys σ α) : σ → List α → σ → α → σ → Prop
  /-- It is the first step. -/
  | here {s s' : σ} {a : α} {as : List α} (h : S.step s a = some s') :
      Takes S s (a :: as) s a s'
  /-- It is a later step. -/
  | there {s s' t t' : σ} {a b : α} {as : List α} (h : S.step s a = some s')
      (ht : Takes S s' as t b t') : Takes S s (a :: as) t b t'

section Takes

variable {s t t' u u' v : σ} {a b : α} {as : List α}

theorem Takes.step (h : S.Takes s as t a t') : S.step t a = some t' := by
  induction h with
  | here h => exact h
  | there _ _ ih => exact ih

/-- A run comes to its step by a run of its own, and goes on from there. -/
theorem Takes.split (h : S.Takes s as t a t') :
    ∃ bs cs, S.exec s bs = some t ∧ ∀ u, S.exec s as = some u → S.exec t' cs = some u := by
  induction h with
  | here h => exact ⟨[], _, rfl, fun u hu => by rwa [exec_cons, h, Option.bind_some] at hu⟩
  | there h _ ih =>
    obtain ⟨bs, cs, hbs, hcs⟩ := ih
    refine ⟨_ :: bs, cs, by rw [exec_cons, h, Option.bind_some, hbs], fun u hu => hcs u ?_⟩
    rwa [exec_cons, h, Option.bind_some] at hu

theorem Takes.mem (h : S.Takes s as t a t') : a ∈ as := by
  induction h with
  | here _ => exact List.mem_cons_self
  | there _ _ ih => exact List.mem_cons_of_mem _ ih

/-- A run that has been cut at a step takes it. -/
theorem takes_of_exec (bs cs : List α) (h : S.exec s (bs ++ a :: cs) = some u) :
    ∃ t t', S.exec s bs = some t ∧ S.exec s (bs ++ [a]) = some t' ∧
      S.Takes s (bs ++ a :: cs) t a t' := by
  induction bs generalizing s with
  | nil =>
    rw [List.nil_append, exec_cons, Option.bind_eq_some_iff] at h
    obtain ⟨s', hstep, -⟩ := h
    exact ⟨s, s', rfl, by rw [List.nil_append, exec_singleton, hstep], .here hstep⟩
  | cons b bs ih =>
    rw [List.cons_append, exec_cons, Option.bind_eq_some_iff] at h
    obtain ⟨s', hstep, hrest⟩ := h
    obtain ⟨t, t', ht, ht', htakes⟩ := ih hrest
    refine ⟨t, t', ?_, ?_, .there hstep htakes⟩
    · rw [exec_cons, hstep, Option.bind_some, ht]
    · rw [List.cons_append, exec_cons, hstep, Option.bind_some, ht']

theorem Takes.reachable (h : S.Takes s as t a t') (hs : S.Reachable s) : S.Reachable t := by
  obtain ⟨bs, -, hbs, -⟩ := h.split
  exact hs.exec hbs

/-- A property that a run gains, it gains in one of its steps. -/
theorem exists_takes {P : σ → Prop} (h : S.exec s as = some u) (hs : ¬P s) (hu : P u) :
    ∃ t a t', S.Takes s as t a t' ∧ ¬P t ∧ P t' := by
  induction as generalizing s with
  | nil =>
    rw [exec_nil, Option.some.injEq] at h
    exact absurd (h ▸ hu) hs
  | cons a as ih =>
    rw [exec_cons, Option.bind_eq_some_iff] at h
    obtain ⟨s', hstep, hrest⟩ := h
    by_cases hs' : P s'
    · exact ⟨s, a, s', .here hstep, hs, hs'⟩
    · obtain ⟨t, b, t', ht, hP⟩ := ih hrest hs'
      exact ⟨t, b, t', .there hstep ht, hP⟩

/-- **A property that is never lost is gained once**: the steps in which a run
gains it are one and the same. -/
theorem Takes.unique {P : σ → Prop}
    (hstable : ∀ s a s', S.Reachable s → P s → S.step s a = some s' → P s')
    (hs : S.Reachable s) (h₁ : S.Takes s as t a t') (ht : ¬P t) (ht' : P t')
    (h₂ : S.Takes s as u b u') (hu : ¬P u) (hu' : P u') : t = u ∧ a = b ∧ t' = u' := by
  -- what holds at the start of a run still holds where it takes a step
  have hkeep : ∀ {s t t' : σ} {b : α} {as : List α}, S.Reachable s → P s →
      S.Takes s as t b t' → P t := fun hs hP h => by
    obtain ⟨bs, -, hbs, -⟩ := h.split
    exact exec_stable hstable hs hP hbs
  induction h₁ with
  | here h =>
    cases h₂ with
    | here h' =>
      rw [h, Option.some.injEq] at h'
      exact ⟨rfl, rfl, h'⟩
    | there h' hlater =>
      rw [h, Option.some.injEq] at h'
      subst h'
      exact absurd (hkeep (hs.step h) ht' hlater) hu
  | there h hlater ih =>
    cases h₂ with
    | here h' =>
      rw [h, Option.some.injEq] at h'
      subst h'
      exact absurd (hkeep (hs.step h) hu' hlater) ht
    | there h' hlater' =>
      rw [h, Option.some.injEq] at h'
      subst h'
      exact ih (hs.step h) ht ht' hlater'

end Takes

/-- A run that has been continued still takes its steps. -/
theorem Takes.append {s t t' : σ} {a : α} {as : List α} (h : S.Takes s as t a t')
    (bs : List α) : S.Takes s (as ++ bs) t a t' := by
  induction h with
  | here h => exact .here h
  | there h _ ih => exact .there h ih

/-- The last step of a run. -/
theorem takes_last {s t t' : σ} {a : α} {as : List α} (h : S.exec s as = some t)
    (hstep : S.step t a = some t') : S.Takes s (as ++ [a]) t a t' := by
  induction as generalizing s with
  | nil =>
    rw [exec_nil, Option.some.injEq] at h
    subst h
    exact .here hstep
  | cons b as ih =>
    rw [exec_cons, Option.bind_eq_some_iff] at h
    obtain ⟨s', hs', hrest⟩ := h
    exact .there hs' (ih hrest)

/-- **The invariant rule for runs.**  What is kept may speak of the actions so
far. -/
theorem run_invariant {I : List α → σ → Prop} {s u : σ} {as : List α} (h0 : I [] s)
    (hstep : ∀ bs t a t', S.exec s bs = some t → I bs t → S.step t a = some t' → I (bs ++ [a]) t')
    (h : S.exec s as = some u) : I as u := by
  -- the actions are taken off the end, where the last step is
  induction as using List.reverseRecOn generalizing u with
  | nil =>
    rw [exec_nil, Option.some.injEq] at h
    exact h ▸ h0
  | append_singleton as a ih =>
    rw [exec_append, Option.bind_eq_some_iff] at h
    obtain ⟨t, ht, hlast⟩ := h
    rw [exec_singleton] at hlast
    exact hstep as t a u ht (ih ht) hlast

/-! ### Counting steps -/

/-- How many steps of the run `as` from a state are of the kind `p`. -/
def count (S : Sys σ α) (p : σ → α → σ → Bool) : σ → List α → ℕ
  | _, [] => 0
  | s, a :: as =>
    match S.step s a with
    | none => 0
    | some s' => (if p s a s' then 1 else 0) + count S p s' as

section Count

variable {p : σ → α → σ → Bool} {s t : σ} {as : List α}

theorem count_cons {a : α} {s' : σ} (h : S.step s a = some s') :
    S.count p s (a :: as) = (if p s a s' then 1 else 0) + S.count p s' as := by
  simp only [count, h]

/-- The last step is counted after the others. -/
theorem count_concat {a : α} {t' : σ} (h : S.exec s as = some t) (hstep : S.step t a = some t') :
    S.count p s (as ++ [a]) = S.count p s as + if p t a t' then 1 else 0 := by
  induction as generalizing s with
  | nil =>
    rw [exec_nil, Option.some.injEq] at h
    subst h
    rw [List.nil_append, count_cons hstep, count, count, Nat.add_comm]
  | cons b as ih =>
    rw [exec_cons, Option.bind_eq_some_iff] at h
    obtain ⟨s', hfirst, hrest⟩ := h
    rw [List.cons_append, count_cons hfirst, count_cons hfirst, ih hrest, Nat.add_assoc]

/-- The count is zero when no step is of the kind. -/
theorem count_eq_zero_iff (h : S.exec s as = some t) :
    S.count p s as = 0 ↔ ∀ v a v', S.Takes s as v a v' → p v a v' = false := by
  induction as generalizing s with
  | nil => exact ⟨fun _ _ _ _ hv => (nomatch hv), fun _ => rfl⟩
  | cons b as ih =>
    rw [exec_cons, Option.bind_eq_some_iff] at h
    obtain ⟨s', hstep, hrest⟩ := h
    rw [count_cons hstep, Nat.add_eq_zero_iff, ih hrest]
    constructor
    · rintro ⟨hfirst, hlater⟩ v a v' hv
      cases hv with
      | here hv =>
        rw [hstep, Option.some.injEq] at hv
        subst hv
        by_contra hp
        simp [hp] at hfirst
      | there hv hv' =>
        rw [hstep, Option.some.injEq] at hv
        subst hv
        exact hlater v a v' hv'
    · intro hall
      refine ⟨?_, fun v a v' hv => hall v a v' (.there hstep hv)⟩
      simp [hall s b s' (.here hstep)]

/-- **A balance along a run.**  If a step raises `f` by what it raises `g`, and by
one more when it is of the kind `p`, then a run does so by the number of those
steps. -/
theorem count_balance {f g : σ → ℕ}
    (hbalance : ∀ s a s', S.Reachable s → S.step s a = some s' →
      f s' + g s = f s + g s' + if p s a s' then 1 else 0)
    (hs : S.Reachable s) (h : S.exec s as = some t) :
    f t + g s = f s + g t + S.count p s as := by
  induction as generalizing s with
  | nil =>
    rw [exec_nil, Option.some.injEq] at h
    subst h
    rfl
  | cons a as ih =>
    rw [exec_cons, Option.bind_eq_some_iff] at h
    obtain ⟨s', hstep, hrest⟩ := h
    have hfirst := hbalance s a s' hs hstep
    have hlater := ih (hs.step hstep) hrest
    rw [count_cons hstep]
    omega

/-- **A measure along a run.**  If no step raises `f`, and those of the kind `p` lower
it, then `f` at the start bounds the number of those steps. -/
theorem add_count_le {f : σ → ℕ}
    (hdown : ∀ v a v', S.Takes s as v a v' → f v' + (if p v a v' then 1 else 0) ≤ f v)
    (h : S.exec s as = some t) : f t + S.count p s as ≤ f s := by
  induction as generalizing s with
  | nil =>
    rw [exec_nil, Option.some.injEq] at h
    subst h
    exact Nat.le_refl _
  | cons a as ih =>
    rw [exec_cons, Option.bind_eq_some_iff] at h
    obtain ⟨s', hstep, hrest⟩ := h
    have hfirst := hdown s a s' (.here hstep)
    have hlater := ih (fun v b v' htakes => hdown v b v' (.there hstep htakes)) hrest
    rw [count_cons hstep]
    omega

/-- **A potential along a run.**  If every step of the kind `p` is paid for out of `f`, and
steps of the kinds `q` and `r` may each pay one in, then their numbers and `f` at the start
bound the number of steps of the kind `p`. -/
theorem add_count_le_add {q r : σ → α → σ → Bool} {f : σ → ℕ}
    (hpaid : ∀ v a v', S.Takes s as v a v' → f v' + (if p v a v' then 1 else 0) ≤
      f v + (if q v a v' then 1 else 0) + if r v a v' then 1 else 0)
    (h : S.exec s as = some t) :
    f t + S.count p s as ≤ f s + S.count q s as + S.count r s as := by
  induction as generalizing s with
  | nil =>
    rw [exec_nil, Option.some.injEq] at h
    subst h
    exact Nat.le_refl _
  | cons a as ih =>
    rw [exec_cons, Option.bind_eq_some_iff] at h
    obtain ⟨s', hstep, hrest⟩ := h
    have hfirst := hpaid s a s' (.here hstep)
    have hlater := ih (fun v b v' htakes => hpaid v b v' (.there hstep htakes)) hrest
    rw [count_cons hstep, count_cons hstep, count_cons hstep]
    omega

end Count

/-! ### Runs whose steps meet a condition -/

/-- The system in which only the steps that meet `g` are enabled: its runs are
the runs of `S` all of whose steps meet `g`. -/
def restrict (S : Sys σ α) (g : σ → α → Bool) : Sys σ α where
  init := S.init
  step s a := if g s a then S.step s a else none

section Restrict

variable {g : σ → α → Bool}

theorem restrict_step_iff {s s' : σ} {a : α} :
    (S.restrict g).step s a = some s' ↔ g s a = true ∧ S.step s a = some s' := by
  simp only [restrict]
  split
  · next h => simp [h]
  · next h => simp [h]

theorem Reachable.of_restrict {s : σ} (hs : (S.restrict g).Reachable s) : S.Reachable s := by
  induction hs with
  | init h => exact .init h
  | step _ h ih => exact ih.step (restrict_step_iff.mp h).2

/-- The runs of the restricted system are runs of the system. -/
theorem exec_of_restrict {s t : σ} {as : List α} (h : (S.restrict g).exec s as = some t) :
    S.exec s as = some t := by
  induction as generalizing s with
  | nil => exact h
  | cons a as ih =>
    rw [exec_cons, Option.bind_eq_some_iff] at h
    obtain ⟨s', hstep, hrest⟩ := h
    rw [exec_cons, (restrict_step_iff.mp hstep).2, Option.bind_some]
    exact ih hrest

/-- A run whose steps meet the condition is a run of the restricted system. -/
theorem exec_restrict {s t : σ} {as : List α}
    (hall : ∀ v a v', S.Takes s as v a v' → g v a = true) (h : S.exec s as = some t) :
    (S.restrict g).exec s as = some t := by
  induction as generalizing s with
  | nil => exact h
  | cons a as ih =>
    rw [exec_cons, Option.bind_eq_some_iff] at h
    obtain ⟨s', hstep, hrest⟩ := h
    have hfirst := restrict_step_iff.mpr ⟨hall s a s' (.here hstep), hstep⟩
    rw [exec_cons, hfirst, Option.bind_some]
    exact ih (fun v b v' htakes => hall v b v' (.there hstep htakes)) hrest

/-- The steps of a run of the restricted system are steps of that system. -/
theorem Takes.restrict {s t v v' : σ} {a : α} {as : List α} (hv : S.Takes s as v a v')
    (h : (S.restrict g).exec s as = some t) : (S.restrict g).Takes s as v a v' := by
  induction hv with
  | here hstep =>
    rw [exec_cons, Option.bind_eq_some_iff] at h
    obtain ⟨s', hstep', -⟩ := h
    have hsame := (restrict_step_iff.mp hstep').2
    rw [hstep, Option.some.injEq] at hsame
    exact .here (hsame ▸ hstep')
  | there hstep _ ih =>
    rw [exec_cons, Option.bind_eq_some_iff] at h
    obtain ⟨s', hstep', hrest⟩ := h
    have hsame := (restrict_step_iff.mp hstep').2
    rw [hstep, Option.some.injEq] at hsame
    subst hsame
    exact .there hstep' (ih hrest)

end Restrict

end Sys

end Transition
