import ScaleForge.Lib.Calls
import Mathlib.Data.Set.Finite.Lemmas

/-!
# Progress

Where something is left to do, a measure goes down; so a run that does it all is found
by induction on the measure.  Calls that wait for each other come to an end when
every call waits for one that is closer to its end than itself: the closest one waits
for nobody.

## Main results

* `Sys.exists_exec` — the rule for progress.
* `Sys.Leads` — some run leads from one state to another.
* `Sys.exec_sim`, `Sys.leads_of_exec`, `Sys.Reachable.simulated` — the steps of one system,
  taken in another.
* `Sys.exec_traced` — and with what they show.
* `finite_calls`, `exists_fresh` — there is always room for another call.
* `lock_held` — every lock is held by a call, dual to `exclusive`.
* `exists_free` — some call does not wait.
* `exec_of_runs` — a call that goes on alone.
-/

namespace Transition.Sys

variable {σ α : Type*} {S : Sys σ α}

/-- **The rule for progress.**  If a measure can be lowered as long as `Q` does not hold,
then some run leads to where it does. -/
theorem exists_exec {M : σ → ℕ → Prop} {Q : σ → Prop}
    (hdown : ∀ s n, M s n → Q s ∨ ∃ as s' m, S.exec s as = some s' ∧ m < n ∧ M s' m)
    {s : σ} {n : ℕ} (h : M s n) : ∃ as s' m, S.exec s as = some s' ∧ Q s' ∧ M s' m := by
  induction n using Nat.strong_induction_on generalizing s with
  | _ n ih =>
    rcases hdown s n h with hQ | ⟨as, t, m, hrun, hlt, ht⟩
    · exact ⟨[], s, n, rfl, hQ, h⟩
    · obtain ⟨bs, s', m', hrun', hQ, hs'⟩ := ih m hlt ht
      refine ⟨as ++ bs, s', m', ?_, hQ, hs'⟩
      rw [exec_append, hrun, Option.bind_some, hrun']

/-- Some run leads from one state to another. -/
def Leads (S : Sys σ α) (s t : σ) : Prop := ∃ as, S.exec s as = some t

theorem Leads.refl (s : σ) : S.Leads s s := ⟨[], rfl⟩

theorem Leads.step {s t : σ} {a : α} (h : S.step s a = some t) : S.Leads s t :=
  ⟨[a], by rw [exec_singleton, h]⟩

theorem Leads.trans {s t u : σ} (h : S.Leads s t) (h' : S.Leads t u) : S.Leads s u := by
  obtain ⟨as, has⟩ := h
  obtain ⟨bs, hbs⟩ := h'
  exact ⟨as ++ bs, by rw [exec_append, has, Option.bind_some, hbs]⟩

theorem Leads.reachable {s t : σ} (h : S.Leads s t) (hs : S.Reachable s) : S.Reachable t := by
  obtain ⟨as, has⟩ := h
  exact hs.exec has

/-- **A run is followed in another system**, when each of its steps is. -/
theorem exec_sim {τ β : Type*} {T : Sys τ β} {R : σ → τ → Prop} {f : α → β} {as : List α}
    (hstep : ∀ s a s' t, a ∈ as → R s t → S.step s a = some s' →
      ∃ t', T.step t (f a) = some t' ∧ R s' t')
    {s s' : σ} {t : τ} (hR : R s t) (h : S.exec s as = some s') :
    ∃ t', T.exec t (as.map f) = some t' ∧ R s' t' := by
  induction as generalizing s t with
  | nil =>
    rw [exec_nil, Option.some.injEq] at h
    exact ⟨t, rfl, h ▸ hR⟩
  | cons a as ih =>
    rw [exec_cons, Option.bind_eq_some_iff] at h
    obtain ⟨v, hfirst, hrest⟩ := h
    obtain ⟨v', hfirst', hv⟩ := hstep s a v t List.mem_cons_self hR hfirst
    obtain ⟨t', hrest', ht'⟩ :=
      ih (fun s a s' t ha => hstep s a s' t (List.mem_cons_of_mem _ ha)) hv hrest
    refine ⟨t', ?_, ht'⟩
    rw [List.map_cons, exec_cons, hfirst', Option.bind_some, hrest']

section Refinement

variable {τ β : Type*} {T : Sys τ β} {R : σ → τ → Prop}

/-- **The rule for refinement**: when every step between related states is followed by a run, so
is every run. -/
theorem leads_of_exec (hstep : ∀ s a s' t, S.Reachable s → T.Reachable t → R s t →
      S.step s a = some s' → ∃ t', T.Leads t t' ∧ R s' t')
    {s s' : σ} {t : τ} {as : List α} (hs : S.Reachable s) (ht : T.Reachable t) (hR : R s t)
    (h : S.exec s as = some s') : ∃ t', T.Leads t t' ∧ R s' t' := by
  induction as generalizing s t with
  | nil =>
    rw [exec_nil, Option.some.injEq] at h
    exact ⟨t, .refl t, h ▸ hR⟩
  | cons a as ih =>
    rw [exec_cons, Option.bind_eq_some_iff] at h
    obtain ⟨v, hfirst, hrest⟩ := h
    obtain ⟨v', hleads, hv⟩ := hstep s a v t hs ht hR hfirst
    obtain ⟨t', hleads', hR'⟩ := ih (hs.step hfirst) (hleads.reachable ht) hv hrest
    exact ⟨t', hleads.trans hleads', hR'⟩

/-- The rule for refinement, for reachable states. -/
theorem Reachable.simulated (hinit : ∀ s, S.init s → ∃ t, T.init t ∧ R s t)
    (hstep : ∀ s a s' t, S.Reachable s → T.Reachable t → R s t → S.step s a = some s' →
      ∃ t', T.Leads t t' ∧ R s' t')
    {s : σ} (hs : S.Reachable s) : ∃ t, T.Reachable t ∧ R s t := by
  induction hs with
  | init h =>
    obtain ⟨t, ht, hR⟩ := hinit _ h
    exact ⟨t, .init ht, hR⟩
  | step hs h ih =>
    obtain ⟨t, ht, hR⟩ := ih
    obtain ⟨t', hleads, hR'⟩ := hstep _ _ _ _ hs ht hR h
    exact ⟨t', hleads.reachable ht, hR'⟩

end Refinement

/-! ### What a run shows -/

/-- What `f` sees of the steps of a run, in their order. -/
def observe {β : Type*} (S : Sys σ α) (f : σ → α → σ → Option β) : σ → List α → List β
  | _, [] => []
  | s, a :: as =>
    match S.step s a with
    | none => []
    | some s' => (f s a s').toList ++ observe S f s' as

/-- **The rule for traces.**  If what a step does to the abstract state is one step of `T`, which
shows the same, or nothing, and then it shows nothing, then a run of `T` does what a run does
and shows the same. -/
theorem exec_traced {τ γ β : Type*} {T : Sys τ γ} {abs : σ → τ} {f : σ → α → σ → Option β}
    {g : γ → β}
    (hstep : ∀ s a s', S.Reachable s → S.step s a = some s' →
      abs s' = abs s ∧ f s a s' = none ∨
        ∃ b, T.step (abs s) b = some (abs s') ∧ f s a s' = some (g b))
    {s t : σ} {as : List α} (hs : S.Reachable s) (h : S.exec s as = some t) :
    ∃ bs, T.exec (abs s) bs = some (abs t) ∧ bs.map g = S.observe f s as := by
  induction as generalizing s with
  | nil =>
    rw [exec_nil, Option.some.injEq] at h
    exact ⟨[], h ▸ rfl, rfl⟩
  | cons a as ih =>
    rw [exec_cons, Option.bind_eq_some_iff] at h
    obtain ⟨s', hfirst, hrest⟩ := h
    obtain ⟨bs, hbs, hshown⟩ := ih (hs.step hfirst) hrest
    have hobserve : S.observe f s (a :: as) = (f s a s').toList ++ S.observe f s' as := by
      simp only [observe, hfirst]
    rcases hstep s a s' hs hfirst with ⟨hsame, hsilent⟩ | ⟨b, hb, hlabel⟩
    · refine ⟨bs, hsame ▸ hbs, ?_⟩
      rw [hobserve, hsilent, hshown]
      rfl
    · refine ⟨b :: bs, ?_, ?_⟩
      · rw [exec_cons, hb, Option.bind_some, hbs]
      · rw [hobserve, hlabel, ← hshown]
        rfl

end Transition.Sys

namespace Calls

open Transition

section Rules

variable {δ κ ρ π ε : Type*} {M : Machine δ κ ρ π} {env : δ → ε → Option δ} {init : δ → Prop}
  {s : State δ ρ π}

/-- What a call can do, the system can. -/
theorem step_advance {i : ℕ} {c : κ} {r : ρ} {pc : π} {q : δ × π}
    (hcall : s.calls i = some ⟨r, pc⟩) (h : M.advance s.shared c r pc = some q) :
    (system M env init).step s (.advance i c) = some (s.move i r q.1 q.2) := by
  simp only [system, step, hcall, h, Option.map_some]

/-- A number that is free can be taken. -/
theorem step_request {i : ℕ} {r : ρ} (h : s.calls i = none) :
    (system M env init).step s (.request i r) = some (s.move i r s.shared M.start) := by
  simp only [system, step, h]

/-! A run, put together step by step. -/

theorem leads_environment {e : ε} {d : δ} (h : env s.shared e = some d) :
    (system M env init).Leads s { s with shared := d } := by
  refine Sys.Leads.step (a := .environment e) ?_
  simp only [system, step, h, Option.map_some]

theorem leads_request (i : ℕ) (r : ρ) (h : s.calls i = none) :
    (system M env init).Leads s (s.move i r s.shared M.start) :=
  Sys.Leads.step (step_request h)

theorem leads_advance {i : ℕ} {c : κ} {r : ρ} {pc pc' : π} {d : δ}
    (hcall : s.calls i = some ⟨r, pc⟩) (h : M.advance s.shared c r pc = some (d, pc')) :
    (system M env init).Leads s (s.move i r d pc') :=
  Sys.Leads.step (step_advance hcall h)

/-- Only so many calls have arrived in a run. -/
theorem finite_calls (hs : (system M env init).Reachable s) : {i | s.calls i ≠ none}.Finite := by
  refine hs.invariant (I := fun s => {i | s.calls i ≠ none}.Finite) ?_ ?_
  · rintro s ⟨-, hnone⟩
    simp [hnone]
  intro s a s' _ ih hstep
  have hmove : ∀ i r d pc, {j | (State.move s i r d pc).calls j ≠ none}.Finite := by
    intro i r d pc
    refine (ih.insert i).subset fun j hj => ?_
    by_cases hij : j = i
    · exact Or.inl hij
    · have hsome : (s.move i r d pc).calls j ≠ none := hj
      rw [move_calls_of_ne s hij] at hsome
      exact Or.inr hsome
  rcases step_cases hstep with ⟨e, d, -, -, rfl⟩ | ⟨i, r, -, -, rfl⟩ |
    ⟨i, c, r, pc, d, pc', -, -, -, rfl⟩
  · exact ih
  · exact hmove _ _ _ _
  · exact hmove _ _ _ _

/-- **There is always room for another call.** -/
theorem exists_fresh (hs : (system M env init).Reachable s) : ∃ i, s.calls i = none := by
  obtain ⟨i, hi⟩ := (finite_calls hs).exists_notMem
  exact ⟨i, not_not.mp hi⟩

/-- **Every lock is held.**  Suppose no lock is taken at first, the environment takes none,
and a lock that is taken after a step of a call is held by it, or was taken before and is
not one of those the call has held.  Then a call holds every lock that is taken. -/
theorem lock_held {κ' : Type*} (locked : δ → κ' → Prop) (holds : ρ → π → κ' → Prop)
    (hinit : ∀ d k, init d → ¬locked d k)
    (henv : ∀ d e d' k, env d e = some d' → locked d' k → locked d k)
    (hadv : ∀ d c r pc d' pc' k, M.advance d c r pc = some (d', pc') → locked d' k →
      holds r pc' k ∨ locked d k ∧ ¬holds r pc k)
    (hs : (system M env init).Reachable s) {k : κ'} (hk : locked s.shared k) :
    ∃ i r pc, s.calls i = some ⟨r, pc⟩ ∧ holds r pc k := by
  refine hs.invariant (I := fun s => ∀ k, locked s.shared k →
    ∃ i r pc, s.calls i = some ⟨r, pc⟩ ∧ holds r pc k) ?_ ?_ k hk
  · rintro s ⟨h0, -⟩ k hk
    exact absurd hk (hinit _ _ h0)
  intro s a s' _ ih hstep k hk
  rcases step_cases hstep with ⟨e, d, -, he, rfl⟩ | ⟨j, r', -, hnone, rfl⟩ |
    ⟨j, c, r', pc₀, d, pc', -, hold, hmoved, rfl⟩
  · exact ih k (henv _ _ _ k he hk)
  · obtain ⟨i, r, pc, hcall, hholds⟩ := ih k hk
    have hij : i ≠ j := by
      rintro rfl
      rw [hnone] at hcall
      cases hcall
    exact ⟨i, r, pc, (move_calls_of_ne s hij _ _ _).trans hcall, hholds⟩
  · rcases hadv _ _ _ _ _ _ k hmoved hk with hnew | ⟨hbefore, hnot⟩
    · exact ⟨j, r', pc', move_calls_self _ _ _ _ _, hnew⟩
    · obtain ⟨i, r, pc, hcall, hholds⟩ := ih k hbefore
      have hij : i ≠ j := by
        rintro rfl
        rw [hold, Option.some.injEq, Call.mk.injEq] at hcall
        obtain ⟨rfl, rfl⟩ := hcall
        exact hnot hholds
      exact ⟨i, r, pc, (move_calls_of_ne s hij _ _ _).trans hcall, hholds⟩

/-- **Some call does not wait.**  If every call that is not at its end is free or waits for
one that is closer to its end, then one of them is free. -/
theorem exists_free (weight : π → ℕ) (free : ℕ → Prop)
    (hwait : ∀ i r pc, s.calls i = some ⟨r, pc⟩ → weight pc ≠ 0 → free i ∨
      ∃ j r' pc', s.calls j = some ⟨r', pc'⟩ ∧ weight pc' ≠ 0 ∧ weight pc' < weight pc)
    {i : ℕ} {r : ρ} {pc : π} (hcall : s.calls i = some ⟨r, pc⟩) (hpc : weight pc ≠ 0) :
    ∃ j r' pc', s.calls j = some ⟨r', pc'⟩ ∧ weight pc' ≠ 0 ∧ free j := by
  -- by induction on how far the call is from its end
  induction hn : weight pc using Nat.strong_induction_on generalizing i r pc with
  | _ n ih =>
    rcases hwait i r pc hcall hpc with hfree | ⟨j, r', pc', hj, hpc', hlt⟩
    · exact ⟨i, r, pc, hcall, hpc, hfree⟩
    · exact ih (weight pc') (hn ▸ hlt) hj hpc' rfl

/-- A call goes on alone, with choices that meet a condition. -/
inductive Runs (M : Machine δ κ ρ π) (g : κ → Bool) (r : ρ) : δ → π → δ → π → Prop
  /-- It stays where it is. -/
  | refl (d : δ) (pc : π) : Runs M g r d pc d pc
  /-- It takes a step and goes on. -/
  | step {d d' d'' : δ} {pc pc' pc'' : π} (c : κ) (hc : g c = true)
      (h : M.advance d c r pc = some (d', pc')) (hrest : Runs M g r d' pc' d'' pc'') :
      Runs M g r d pc d'' pc''

/-- **A call that goes on alone** moves, and nothing else does. -/
theorem exec_of_runs {g : κ → Bool} {g' : State δ ρ π → Action ε κ ρ → Bool}
    (hg : ∀ s i c, g c = true → g' s (.advance i c) = true) {r : ρ} {d d' : δ} {pc pc' : π}
    (h : Runs M g r d pc d' pc') {i : ℕ} (hd : s.shared = d) (hcall : s.calls i = some ⟨r, pc⟩) :
    ∃ as, ((system M env init).restrict g').exec s as = some (s.move i r d' pc') := by
  induction h generalizing s with
  | refl d pc =>
    refine ⟨[], ?_⟩
    unfold State.move
    rw [← hd, ← hcall, Function.update_eq_self]
    rfl
  | step c hc h _ ih =>
    subst hd
    obtain ⟨as, hrun⟩ := ih (s := s.move i r _ _) rfl (move_calls_self _ _ _ _ _)
    refine ⟨.advance i c :: as, ?_⟩
    rw [Sys.exec_cons, Sys.restrict_step_iff.mpr ⟨hg s i c hc, step_advance hcall h⟩,
      Option.bind_some, hrun]
    unfold State.move
    rw [Function.update_idem]

/-- A call that is not at its end weighs something. -/
theorem exists_of_total_ne_zero {f : π → ℕ} {I : Finset ℕ} (h : s.total f I ≠ 0) :
    ∃ i r pc, s.calls i = some ⟨r, pc⟩ ∧ f pc ≠ 0 := by
  obtain ⟨i, -, hi⟩ := Finset.exists_ne_zero_of_sum_ne_zero h
  cases hcall : s.calls i with
  | none =>
    rw [hcall] at hi
    exact absurd rfl hi
  | some call =>
    rw [hcall] at hi
    exact ⟨i, call.request, call.pc, hcall, hi⟩

/-- Where the calls weigh nothing, each is at its end. -/
theorem eq_zero_of_total {f : π → ℕ} {I : Finset ℕ} (h : s.total f I = 0) {i : ℕ} {r : ρ} {pc : π}
    (hi : i ∈ I) (hcall : s.calls i = some ⟨r, pc⟩) : f pc = 0 := by
  have hzero := Finset.sum_eq_zero_iff.mp h i hi
  rwa [hcall, Option.elim_some] at hzero

end Rules

end Calls
