import ScaleForge.Auth

/-!
# Refresh tokens are consumed once

A logout revokes under the condition that the row is not revoked yet.  A
rotation does not: `rotateRefreshToken` updates by id alone, so a refresh that
passed its check before somebody else consumed the token consumes it again.
That is the only way: in a run in which every rotation still finds its row
unrevoked, revoking is a step that happens once to a row, every consumption is
such a step, and so there is one consumption for each token.

## Main definitions

* `Revoked id db` — the row of a token is revoked.
* `Consumed env id w i` — call `i` presented the token and has consumed it.
* `RotatesAt id v v' i` — the step from `v` to `v'` is a rotation of the token.

## Main results

* `consumed_of_revoked` — a revoked row has been consumed by a call.
* `token_consumed_once_iff` — a token is consumed at most once exactly in the
  runs whose rotations of it find its row unrevoked.
* `token_consumed_twice` — two refreshes that race both get a pair.
-/

namespace ScaleForge.Auth

open Transition

/-- The calls on the tables. -/
abbrev AuthState := Calls.State Shared Request Pc

/-- The row of a token is revoked. -/
def Revoked (id : Uuid) (db : Tables) : Prop :=
  ∃ t ∈ db.refreshTokens, t.id = id ∧ t.revokedAt.isSome

/-- Call `i` presented the token and has consumed it. -/
def Consumed (env : Env) (id : Uuid) (w : AuthState) (i : ℕ) : Prop :=
  ∃ r pc, w.calls i = some ⟨r, pc⟩ ∧ Presents env id r ∧ Consumes r pc

/-- The step from `v` to `v'` rotates the token, for call `i`. -/
def RotatesAt (id : Uuid) (v v' : AuthState) (i : ℕ) : Prop :=
  ∃ token user pair, v.calls i = some ⟨.refresh token, .rotating user id⟩ ∧
    v'.calls i = some ⟨.refresh token, .returned (.tokens pair)⟩

variable {env : Env}

/-! ### Rows -/

theorem uniqueOn_of_reachable {w : AuthState} (hw : (authSystem env).Reachable w) :
    Table.UniqueOn RefreshToken.id w.shared.db.refreshTokens := by
  refine Calls.shared_invariant (I := fun s => Table.UniqueOn RefreshToken.id s.db.refreshTokens)
    ?_ ?_ ?_ hw
  · intro s h0
    rw [h0]
    exact Table.uniqueOn_nil _
  · intro s e s' hI h
    cases e with
    | tick ms => cases h; exact hI
    | setUser id role active => cases h; exact hI
  · intro s c r pc s' pc' hI h
    obtain ⟨db', hadv, rfl⟩ := advance_cases h
    cases hadv with
    | kept => exact hI
    | issued _ hnew => exact Table.uniqueOn_append_singleton.mpr ⟨hI, hnew⟩
    | rotated _ _ hnew =>
      refine Table.uniqueOn_append_singleton.mpr ⟨Table.uniqueOn_update hI fun _ _ _ => rfl, ?_⟩
      intro t ht
      obtain ⟨t₀, ht₀, hid⟩ := Table.exists_key_of_mem_update RefreshToken.id ht fun _ => rfl
      exact hid ▸ hnew t₀ ht₀
    | revoked => exact Table.uniqueOn_update hI fun _ _ _ => rfl

/-- Revoking some rows keeps revoked rows revoked. -/
theorem revoked_update {id : Uuid} {db db' : Tables} {p : RefreshToken → Bool} {now : ℕ}
    (h : Revoked id db)
    (hsub : Table.update p (revoke now) db.refreshTokens ⊆ db'.refreshTokens) :
    Revoked id db' := by
  obtain ⟨t, ht, hid, hrevoked⟩ := h
  refine ⟨_, hsub (Table.mem_update.mpr ⟨t, ht, rfl⟩), ?_⟩
  split
  · exact ⟨hid, rfl⟩
  · exact ⟨hid, hrevoked⟩

/-- A row that is revoked after such an update met its condition, or was revoked
before. -/
theorem revoked_of_mem_update {id : Uuid} {db : Tables} {p : RefreshToken → Bool} {now : ℕ}
    {t : RefreshToken} (ht : t ∈ Table.update p (revoke now) db.refreshTokens)
    (hid : t.id = id) (hrevoked : t.revokedAt.isSome = true) :
    (∃ t₀, p t₀ = true ∧ t₀.id = id) ∨ Revoked id db := by
  obtain ⟨t₀, ht₀, rfl⟩ := Table.mem_update.mp ht
  by_cases hp : p t₀ = true
  · rw [if_pos hp] at hid
    exact Or.inl ⟨t₀, hp, hid⟩
  · rw [if_neg hp] at hid hrevoked
    exact Or.inr ⟨t₀, ht₀, hid, hrevoked⟩

/-- **A revoked row stays revoked.** -/
theorem revoked_stable {w w' : AuthState} {a : Calls.Action Environment Choice Request} {id : Uuid}
    (h : (authSystem env).step w a = some w') (hrevoked : Revoked id w.shared.db) :
    Revoked id w'.shared.db := by
  rcases Calls.shared_of_step h with ⟨e, he⟩ | hsame | ⟨c, r, pc, pc', hadv⟩
  · cases e with
    | tick ms => rw [← Option.some.inj he]; exact hrevoked
    | setUser id role active => rw [← Option.some.inj he]; exact hrevoked
  · rw [hsame]
    exact hrevoked
  · obtain ⟨db', hadv, hdb'⟩ := advance_cases hadv
    rw [hdb']
    cases hadv with
    | kept => exact hrevoked
    | issued =>
      obtain ⟨t, ht, hid⟩ := hrevoked
      exact ⟨t, List.mem_append_left _ ht, hid⟩
    | rotated => exact revoked_update hrevoked (List.subset_append_left _ _)
    | revoked => exact revoked_update hrevoked (List.Subset.refl _)

/-! ### Calls -/

theorem ok_of_reachable {w : AuthState} (hw : (authSystem env).Reachable w) {i : ℕ} {r : Request}
    {pc : Pc} (hcall : w.calls i = some ⟨r, pc⟩) : pc.Ok env r := by
  refine Calls.call_invariant (J := fun _ r pc => Pc.Ok env r pc) ?_ ?_ ?_ hw hcall
  · intro s r _
    trivial
  · intro s c r pc d pc' _ _ h
    obtain ⟨db', hadv, rfl⟩ := advance_cases h
    cases hadv with
    | kept _ hok => exact hok
    | issued _ _ hok => exact hok
    | rotated => trivial
    | revoked => trivial
  · exact fun _ _ _ _ _ _ _ hok => hok

/-- A call presents one token. -/
theorem presents_unique {id id' : Uuid} {r : Request} (h : Presents env id r)
    (h' : Presents env id' r) : id = id' := by
  cases r with
  | register => exact h.elim
  | login => exact h.elim
  | _ =>
    obtain ⟨payload, jti, hdecode, hjti, rfl⟩ := h
    obtain ⟨payload', jti', hdecode', hjti', rfl⟩ := h'
    rw [hdecode, Option.some.injEq] at hdecode'
    subst hdecode'
    rw [hjti, Option.some.injEq] at hjti'
    rw [hjti']

/-- A call that has consumed its token has come to its end. -/
theorem advance_of_consumes {r : Request} {pc : Pc} (h : Consumes r pc) (s : Shared)
    (c : Choice) : (machine env).advance s c r pc = none := by
  unfold Consumes at h
  split at h
  · rfl
  · rfl
  · exact h.elim

theorem consumed_stable {w w' : AuthState} {a : Calls.Action Environment Choice Request}
    {id : Uuid} {i : ℕ} (h : (authSystem env).step w a = some w') (hc : Consumed env id w i) :
    Consumed env id w' i := by
  obtain ⟨r, pc, hcall, hp, hconsumes⟩ := hc
  exact ⟨r, pc, Calls.final_stable h hcall (advance_of_consumes hconsumes), hp, hconsumes⟩

/-- **The step in which a call consumes its token** is a rotation, or it finds
the row unrevoked; and it leaves the row revoked. -/
theorem consumes_at {w w' : AuthState} {a : Calls.Action Environment Choice Request} {id : Uuid}
    {i : ℕ} (hw : (authSystem env).Reachable w) (h : (authSystem env).step w a = some w')
    (hbefore : ¬Consumed env id w i) (hafter : Consumed env id w' i) :
    (∃ c, a = .advance i c) ∧ (RotatesAt id w w' i ∨ ¬Revoked id w.shared.db) ∧
      Revoked id w'.shared.db := by
  obtain ⟨r, pc, hcall, hpresents, hconsumes⟩ := hafter
  rcases Calls.calls_of_step h hcall with hsame | ⟨-, rfl⟩ | ⟨c, pc₀, rfl, hold, hadv⟩
  · exact absurd ⟨r, pc, hsame, hpresents, hconsumes⟩ hbefore
  · cases r <;> exact hconsumes.elim
  · have hok := ok_of_reachable hw hold
    obtain ⟨db', hadv, hdb'⟩ := advance_cases hadv
    rw [hdb']
    refine ⟨⟨c, rfl⟩, ?_⟩
    cases hadv with
    | kept _ _ hnot => exact absurd hconsumes hnot
    | issued _ _ _ hnot => exact absurd hconsumes hnot
    | @rotated token user old row pair hrow =>
      have hpresents' : Presents env old (.refresh token) := hok
      obtain rfl := presents_unique hpresents' hpresents
      obtain ⟨t, ht, hid⟩ := hrow
      refine ⟨Or.inl ⟨_, _, _, hold, hcall⟩, revoke w.shared.clock t, ?_, hid, rfl⟩
      exact List.mem_append_left _ (Table.mem_update_of_pos ht (decide_eq_true hid))
    | @revoked token jti hmet =>
      have hpresents' : Presents env jti.value (.logout token) := hok
      obtain rfl := presents_unique hpresents' hpresents
      obtain ⟨t, ht, hun⟩ := hmet
      have hmem : revoke w.shared.clock t ∈
          Table.update (unrevoked jti) (revoke w.shared.clock) w.shared.db.refreshTokens :=
        Table.mem_update_of_pos ht hun
      simp only [unrevoked, Bool.and_eq_true, decide_eq_true_eq, Option.isNone_iff_eq_none] at hun
      refine ⟨Or.inr ?_, _, hmem, hun.1, rfl⟩
      -- the row the update met is the only one of the token
      rintro ⟨t', ht', hid', hrevoked⟩
      have hsame : t' = t :=
        (uniqueOn_of_reachable hw).eq_of_key ht' ht (hid'.trans hun.1.symm)
      rw [hsame, hun.2] at hrevoked
      cases hrevoked

/-- **A revoked row has been consumed by a call.** -/
theorem consumed_of_revoked {w : AuthState} (hw : (authSystem env).Reachable w) {id : Uuid}
    (hrevoked : Revoked id w.shared.db) : ∃ i, Consumed env id w i := by
  refine hw.invariant (I := fun w => ∀ id, Revoked id w.shared.db → ∃ i, Consumed env id w i)
    ?_ ?_ id hrevoked
  · rintro w ⟨h0, -⟩ id ⟨t, ht, -⟩
    rw [h0] at ht
    cases ht
  · intro w a w' hw ih h id hrevoked
    -- a row revoked before was consumed before
    have hbefore : Revoked id w.shared.db → ∃ i, Consumed env id w' i := by
      intro hr
      obtain ⟨i, hi⟩ := ih id hr
      exact ⟨i, consumed_stable h hi⟩
    rcases Calls.step_cases h with ⟨e, d, rfl, he, rfl⟩ | ⟨i, r, rfl, -, rfl⟩ |
      ⟨i, c, r, pc, d, pc', rfl, hcall, hstep, rfl⟩
    · cases e with
      | tick ms => cases he; exact hbefore hrevoked
      | setUser id role active => cases he; exact hbefore hrevoked
    · exact hbefore hrevoked
    · have hok := ok_of_reachable hw hcall
      obtain ⟨db', hadv, rfl⟩ := advance_cases hstep
      cases hadv with
      | kept => exact hbefore hrevoked
      | issued hrow =>
        obtain ⟨t, ht, hid, hr⟩ := hrevoked
        rcases List.mem_append.mp ht with ht | ht
        · exact hbefore ⟨t, ht, hid, hr⟩
        · rw [List.mem_singleton.mp ht, hrow] at hr
          cases hr
      | @rotated token user old row pair hold hrow =>
        obtain ⟨t, ht, hid, hr⟩ := hrevoked
        rcases List.mem_append.mp ht with ht | ht
        · rcases revoked_of_mem_update ht hid hr with ⟨t₀, hmet, hid₀⟩ | hearlier
          · -- this rotation has just revoked it
            have hid' : t₀.id = old := by simpa using hmet
            refine ⟨i, .refresh token, .returned (.tokens pair), Calls.move_calls_self .., ?_,
              trivial⟩
            rw [← hid₀]
            exact hid' ▸ hok
          · exact hbefore hearlier
        · rw [List.mem_singleton.mp ht, hrow] at hr
          cases hr
      | @revoked token jti hmet =>
        obtain ⟨t, ht, hid, hr⟩ := hrevoked
        rcases revoked_of_mem_update ht hid hr with ⟨t₀, hun, hid₀⟩ | hearlier
        · -- this logout has just revoked it
          simp only [unrevoked, Bool.and_eq_true, decide_eq_true_eq] at hun
          refine ⟨i, .logout token, .returned (.logout true), Calls.move_calls_self .., ?_,
            trivial⟩
          rw [← hid₀]
          exact hun.1 ▸ hok
        · exact hbefore hearlier

section Run

variable {w₀ w : AuthState} {as : List (Calls.Action Environment Choice Request)} {id : Uuid}

/-- A call that rotates a revoked token is the second one to consume it. -/
theorem not_revoked_of_once (h0 : (authSystem env).init w₀)
    (h : (authSystem env).exec w₀ as = some w)
    (honce : ∀ i j, Consumed env id w i → Consumed env id w j → i = j) {v v' : AuthState} {i : ℕ}
    {c : Choice} (htakes : (authSystem env).Takes w₀ as v (.advance i c) v')
    (hrotates : RotatesAt id v v' i) : ¬Revoked id v.shared.db := by
  intro hrevoked
  have hv := htakes.reachable (.init h0)
  obtain ⟨-, cs, -, hrest⟩ := htakes.split
  have hend : ∀ k, Consumed env id v' k → Consumed env id w k := fun k hk =>
    Sys.exec_stable (I := fun s => Consumed env id s k) (fun _ _ _ _ hc hs => consumed_stable hs hc)
      (hv.step htakes.step) hk (hrest w h)
  -- somebody had consumed the token before, and this call does now
  obtain ⟨j, hj⟩ := consumed_of_revoked hv hrevoked
  obtain ⟨token, user, pair, hbefore, hafter⟩ := hrotates
  have hi : Consumed env id v' i := ⟨_, _, hafter, ok_of_reachable hv hbefore, trivial⟩
  have hij : i = j := honce i j (hend i hi) (hend j (consumed_stable htakes.step hj))
  -- but this call had not come to its end
  obtain ⟨r, pc, hcall, -, hconsumes⟩ := hj
  rw [← hij, hbefore, Option.some.injEq, Calls.Call.mk.injEq] at hcall
  obtain ⟨rfl, rfl⟩ := hcall
  exact hconsumes

/-- The step in which a call consumes the token revokes its row, when every rotation
finds it unrevoked. -/
theorem revokes_of_consumed (h0 : (authSystem env).init w₀)
    (h : (authSystem env).exec w₀ as = some w)
    (hrotations : ∀ v i c v', (authSystem env).Takes w₀ as v (.advance i c) v' →
      RotatesAt id v v' i → ¬Revoked id v.shared.db) {k : ℕ} (hk : Consumed env id w k) :
    ∃ v c v', (authSystem env).Takes w₀ as v (.advance k c) v' ∧ ¬Revoked id v.shared.db ∧
      Revoked id v'.shared.db := by
  have hstart : ¬Consumed env id w₀ k := by
    rintro ⟨r, pc, hcall, -⟩
    rw [h0.2 k] at hcall
    cases hcall
  obtain ⟨v, a, v', htakes, hbefore, hafter⟩ :=
    Sys.exists_takes (P := fun v => Consumed env id v k) h hstart hk
  obtain ⟨⟨c, rfl⟩, hrow, hrevoked⟩ :=
    consumes_at (htakes.reachable (.init h0)) htakes.step hbefore hafter
  refine ⟨v, c, v', htakes, ?_, hrevoked⟩
  rcases hrow with hrotates | hrow
  · exact hrotations v k c v' htakes hrotates
  · exact hrow

end Run

/-- **When a token is consumed at most once.**  In a run of refresh, logout,
login and register calls, at most one call has consumed a token exactly when
every rotation of it that committed found its row unrevoked. -/
theorem token_consumed_once_iff {w₀ w : AuthState}
    {as : List (Calls.Action Environment Choice Request)} (h0 : (authSystem env).init w₀)
    (h : (authSystem env).exec w₀ as = some w) (id : Uuid) :
    (∀ i j, Consumed env id w i → Consumed env id w j → i = j) ↔
      ∀ v i c v', (authSystem env).Takes w₀ as v (.advance i c) v' → RotatesAt id v v' i →
        ¬Revoked id v.shared.db := by
  constructor
  · intro honce v i c v' htakes hrotates
    exact not_revoked_of_once h0 h honce htakes hrotates
  · intro hrotations i j hi hj
    obtain ⟨v, c, v', htakes, hout, hin⟩ := revokes_of_consumed h0 h hrotations hi
    obtain ⟨u, c', u', htakes', hout', hin'⟩ := revokes_of_consumed h0 h hrotations hj
    obtain ⟨-, haction, -⟩ := Sys.Takes.unique (P := fun v => Revoked id v.shared.db)
      (fun _ _ _ _ hr hs => revoked_stable hs hr) (.init h0) htakes hout hin htakes' hout' hin'
    cases haction
    rfl

/-! ### Two refreshes that race -/

/-- The account of the sample runs. -/
def sampleUser : User := ⟨Uuid.repeated 9, "ada@example.com", "a long password", "Ada", .user, true⟩

/-- The refresh token of the sample runs, as the library below signs it. -/
def sampleToken : String := (Uuid.repeated 1).text.toString

/-- Libraries that sign a token as its id, and hash a text as itself. -/
def sampleEnv : Env where
  accessTtl := 900
  refreshTtl := 3600
  decodeRefresh token :=
    if token = sampleToken then
      some ⟨(Uuid.repeated 9).text, some (Uuid.repeated 1).text, "refresh", 3600⟩
    else none
  signAccess user _ := user.email
  signRefresh _ id _ := id.text.toString
  hash _ s := s
  verify h s := h = s
  trim := id
  toLowerCase := id

/-- The account, and no calls. -/
def sampleState : AuthState := ⟨⟨0, [sampleUser], []⟩, fun _ => none⟩

/-- No fault, and identifiers from one nibble. -/
def sampleChoice (n : ℕ) : Choice := ⟨none, Uuid.repeated n, 0⟩

/-- Call `0` logs in and gets the sample token. -/
def sampleLogin : List (Calls.Action Environment Choice Request) :=
  [.request 0 (.login ⟨"ada@example.com", "a long password"⟩), .advance 0 (sampleChoice 1),
    .advance 0 (sampleChoice 1)]

/-- Calls `1` and `2` refresh with the sample token, and both have passed the
check before either rotates. -/
def racingRefreshes : List (Calls.Action Environment Choice Request) :=
  sampleLogin ++ [.request 1 (.refresh sampleToken), .request 2 (.refresh sampleToken),
    .advance 1 (sampleChoice 2), .advance 2 (sampleChoice 3), .advance 1 (sampleChoice 2),
    .advance 2 (sampleChoice 3)]

theorem sampleState_init : (authSystem sampleEnv).init sampleState := ⟨rfl, fun _ => rfl⟩

theorem presents_sampleToken : Presents sampleEnv (Uuid.repeated 1) (.refresh sampleToken) :=
  ⟨_, _, rfl, rfl, by decide⟩

/-- **Two racing refreshes both consume the token.** -/
theorem token_consumed_twice : ¬∀ (env : Env) (w₀ w : AuthState)
    (as : List (Calls.Action Environment Choice Request)), (authSystem env).init w₀ →
      (authSystem env).exec w₀ as = some w → ∀ id i j, Consumed env id w i →
        Consumed env id w j → i = j := by
  intro hclaim
  have hrun : ((authSystem sampleEnv).exec sampleState racingRefreshes).map
      (fun w => (w.calls 1, w.calls 2)) =
        some (some ⟨.refresh sampleToken, .returned (.tokens
            (tokenPair sampleEnv sampleUser 0 (sampleChoice 2)))⟩,
          some ⟨.refresh sampleToken, .returned (.tokens
            (tokenPair sampleEnv sampleUser 0 (sampleChoice 3)))⟩) := by decide +kernel
  obtain ⟨w, hw, hcalls⟩ := Option.map_eq_some_iff.mp hrun
  rw [Prod.mk.injEq] at hcalls
  have hsame : (1 : ℕ) = 2 := hclaim sampleEnv sampleState w racingRefreshes sampleState_init hw
    (Uuid.repeated 1) 1 2 ⟨_, _, hcalls.1, presents_sampleToken, trivial⟩
    ⟨_, _, hcalls.2, presents_sampleToken, trivial⟩
  cases hsame

/-- Call `1` refreshes, and call `2` comes with the same token afterwards. -/
def sequentialRefreshes : List (Calls.Action Environment Choice Request) :=
  sampleLogin ++ [.request 1 (.refresh sampleToken), .advance 1 (sampleChoice 2),
    .advance 1 (sampleChoice 2), .request 2 (.refresh sampleToken), .advance 2 (sampleChoice 3)]

/-- In the sequential run the second refresh is rejected, so the token is consumed
once, and its one rotation found the row unrevoked. -/
theorem sample_token_consumed_once : ∃ w,
    (authSystem sampleEnv).exec sampleState sequentialRefreshes = some w ∧
    Consumed sampleEnv (Uuid.repeated 1) w 1 ∧
    ∀ v i c v', (authSystem sampleEnv).Takes sampleState sequentialRefreshes v (.advance i c) v' →
      RotatesAt (Uuid.repeated 1) v v' i → ¬Revoked (Uuid.repeated 1) v.shared.db := by
  have hrun : ((authSystem sampleEnv).exec sampleState sequentialRefreshes).map
      (fun w => ((w.calls 0).map Calls.Call.request, w.calls 1, w.calls 2)) =
        some (some (.login ⟨"ada@example.com", "a long password"⟩),
          some ⟨.refresh sampleToken, .returned (.tokens
            (tokenPair sampleEnv sampleUser 0 (sampleChoice 2)))⟩,
          some ⟨.refresh sampleToken,
            .rejected (.unauthorized "Refresh token is invalid or expired")⟩) := by decide +kernel
  obtain ⟨w, hw, hcalls⟩ := Option.map_eq_some_iff.mp hrun
  simp only [Prod.mk.injEq] at hcalls
  obtain ⟨hlogin, hfirst, hsecond⟩ := hcalls
  refine ⟨w, hw, ⟨_, _, hfirst, presents_sampleToken, trivial⟩, ?_⟩
  refine (token_consumed_once_iff sampleState_init hw (Uuid.repeated 1)).mp ?_
  -- no call but the first refresh has consumed the token
  have hone : ∀ i, Consumed sampleEnv (Uuid.repeated 1) w i → i = 1 := by
    rintro i ⟨r, pc, hcall, hpresents, hconsumes⟩
    obtain ⟨r', hmem⟩ := Calls.request_mem hw (sampleState_init.2 i) (by rw [hcall]; nofun)
    simp only [sequentialRefreshes, sampleLogin, List.mem_append, List.mem_cons,
      Calls.Action.request.injEq, reduceCtorEq, false_or, or_false, List.not_mem_nil] at hmem
    rcases hmem with ⟨rfl, -⟩ | ⟨rfl, -⟩ | ⟨rfl, -⟩
    · rw [hcall, Option.map_some, Option.some.injEq] at hlogin
      subst hlogin
      exact hpresents.elim
    · rfl
    · rw [hcall, Option.some.injEq, Calls.Call.mk.injEq] at hsecond
      rw [hsecond.1, hsecond.2] at hconsumes
      exact hconsumes.elim
  intro i j hi hj
  rw [hone i hi, hone j hj]

end ScaleForge.Auth
