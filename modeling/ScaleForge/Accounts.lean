import ScaleForge.RefreshTokens

/-!
# Accounts

A registration looks its email up and inserts its row in a later statement, so two of them
can both find the email free.  The unique index decides: whoever inserts first has the
account.  From then on the row keeps everything but its role and its `active` flag, which
administrators edit; so whoever is answered with tokens is answered for an account that is
still there.

## Main definitions

* `Pc.signing` — the row a call is about to sign tokens for.
* `Pc.account` — the row a call answers, or will answer, with tokens for.
* `AccountStep` — the ways a step of a call can go, as far as accounts are concerned.
* `User.Same` — two versions of one account.
* `Entitled` — what a call has shown to be answered for an account.
* `Adds`, `Inserts` — the steps that bring an account, and those in which a registration
  inserts one.

## Main results

* `accountStep_of_machine` — every step of a call is one of them.
* `extends_of_exec` — no account disappears.
* `account_of_reachable` — the row of a call is of an account that is there.
* `adds_iff_inserts`, `inserts_unique` — accounts come from registrations alone, one for each
  email.
* `registrations_exclusive` — **of the registrations of one email at most one has the
  account**, and only if nobody had it before.
-/

namespace ScaleForge.Auth

open Transaction Table

/-! ### A step taken apart -/

/-- The row a call is about to sign tokens for. -/
def Pc.signing : Pc → Option User
  | issuing user => some user
  | rotating user _ => some user
  | _ => none

/-- The row a call answers, or will answer, with tokens for. -/
def Pc.account : Pc → Option User
  | returned (.tokens pair) => some pair.user
  | pc => pc.signing

theorem Pc.account_of_signing {pc : Pc} {user : User} (h : pc.signing = some user) :
    pc.account = some user := by
  cases pc with
  | issuing => exact h
  | rotating => exact h
  | _ => cases h

/-- `dto.email.trim().toLowerCase()`. -/
def Env.normalized (env : Env) (email : String) : String := env.toLowerCase (env.trim email)

/-- The ways a step of a call can go, as far as accounts are concerned. -/
inductive AccountStep (env : Env) (s : Shared) : Request → Pc → Shared → Pc → Prop
  /-- The users stay, and the call has no row. -/
  | kept {r : Request} {pc pc' : Pc} {db : Tables} (husers : db.users = s.db.users)
      (haccount : pc'.account = none) :
      AccountStep env s r pc { s with db := db } pc'
  /-- A registration inserts its user. -/
  | registered {dto : RegisterDto} (c : Choice)
      (hid : ∀ u ∈ s.db.users, u.id ≠ (newUser env dto c).id)
      (hemail : ∀ u ∈ s.db.users, u.email ≠ env.normalized dto.email) :
      AccountStep env s (.register dto) .registering
        { s with db := { s.db with users := s.db.users ++ [newUser env dto c] } }
        (.issuing (newUser env dto c))
  /-- A login has found its user, and the password is right. -/
  | loggedIn {dto : LoginDto} {user : User} (hmem : user ∈ s.db.users)
      (hemail : user.email = env.normalized dto.email) (hactive : user.active = true)
      (hverify : env.verify user.passwordHash dto.password = true) :
      AccountStep env s (.login dto) .start s (.issuing user)
  /-- A refresh has found its token, and the user it belongs to. -/
  | refreshing {token : String} {row : RefreshToken} {user : User}
      (hrow : row ∈ s.db.refreshTokens) (hmem : user ∈ s.db.users) (hid : user.id = row.userId)
      (hactive : user.active = true) (hrevoked : row.revokedAt = none)
      (hexpires : s.clock < row.expiresAt) :
      AccountStep env s (.refresh token) .start s (.rotating user row.id)
  /-- A pair is issued for the row the call has. -/
  | issued {r : Request} {pc : Pc} {db : Tables} {c : Choice} {user : User}
      (husers : db.users = s.db.users) (hsigning : pc.signing = some user) :
      AccountStep env s r pc { s with db := db }
        (.returned (.tokens (tokenPair env user s.clock c)))

section Step

variable {env : Env} {s s' : Shared} {c : Choice} {r : Request} {pc pc' : Pc}

/-- A step that only reads. -/
theorem AccountStep.of_read (haccount : pc'.account = none) : AccountStep env s r pc s pc' :=
  @kept env s r pc pc' s.db rfl haccount

theorem AccountStep.reject (e : Failure) : AccountStep env s r pc s (.rejected e) :=
  .of_read rfl

/-- A call does not move the clock. -/
theorem AccountStep.clock (h : AccountStep env s r pc s' pc') : s'.clock = s.clock := by
  cases h with
  | kept => rfl
  | registered => rfl
  | loggedIn => rfl
  | refreshing => rfl
  | issued => rfl

theorem checkLogin_eq_ok {dto : LoginDto} {found : Option User} {user : User}
    (h : checkLogin env dto found = .ok user) : found = some user ∧ user.active = true ∧
      env.verify user.passwordHash dto.password = true := by
  unfold checkLogin at h
  split at h
  · cases h
  · split at h
    · cases h
    · next hcheck =>
      cases h
      push Not at hcheck
      exact ⟨rfl, by simpa using hcheck.1, by simpa using hcheck.2⟩

theorem accountStep_of_eq {q : Shared × Pc} (h : advance env s c r pc = some q) :
    AccountStep env s r pc q.1 q.2 := by
  unfold advance at h
  split at h <;> cases h
  case h_1 =>
    refine read_rule (P := AccountStep env s _ _ s) ?_ .reject
    split
    · exact .reject _
    · exact .of_read rfl
  case h_2 dto =>
    refine commit_rule (P := AccountStep env s _ _) ?_ .reject
    intro u db' hc
    obtain ⟨rfl, hid, hemail, rfl⟩ := createUser_commits hc
    exact .registered c hid hemail
  case h_3 dto =>
    refine read_rule (P := AccountStep env s _ _ s) (orReject_rule ?_ .reject) .reject
    intro user hcheck
    obtain ⟨hfound, hactive, hverify⟩ := checkLogin_eq_ok hcheck
    obtain ⟨hmem, hemail⟩ := find_mem hfound
    exact .loggedIn hmem hemail hactive hverify
  case h_4 user =>
    refine commit_rule (P := AccountStep env s _ _) ?_ .reject
    intro u db' hc
    obtain ⟨-, rfl⟩ := createRefreshToken_commits hc
    exact .issued rfl rfl
  case h_5 user =>
    refine commit_rule (P := AccountStep env s _ _) ?_ .reject
    intro u db' hc
    obtain ⟨-, rfl⟩ := createRefreshToken_commits hc
    exact .issued rfl rfl
  case h_6 token =>
    refine orReject_rule (P := AccountStep env s _ _ s) (fun ⟨sub, jti⟩ hverify => ?_) .reject
    refine read_rule (P := AccountStep env s _ _ s) ?_ .reject
    refine orReject_rule (P := AccountStep env s _ _ s) (fun ⟨row, user⟩ hcheck => ?_) .reject
    obtain ⟨hfound, hrevoked, hactive, hexpires⟩ := checkStored_eq_ok hcheck
    obtain ⟨⟨hrow, -⟩, hmem, hid⟩ := findRefreshToken_eq_some hfound
    exact .refreshing hrow hmem hid hactive hrevoked hexpires
  case h_7 user rotatedTokenId =>
    refine commit_rule (P := AccountStep env s _ _) ?_ .reject
    intro u db' hc
    obtain ⟨-, -, rfl⟩ := rotateRefreshToken_commits hc
    exact .issued rfl rfl
  case h_8 token =>
    split
    · exact .of_read rfl
    · exact .of_read rfl
  case h_9 jti =>
    refine commit_rule (P := AccountStep env s _ _) ?_ fun e => .of_read rfl
    intro count db' hc
    obtain ⟨-, rfl⟩ := revokeRefreshToken_commits hc
    exact .kept rfl rfl

/-- **The ways one step of a call can go.** -/
theorem accountStep_of_machine (h : (machine env).advance s c r pc = some (s', pc')) :
    AccountStep env s r pc s' pc' :=
  accountStep_of_eq h

end Step

/-! ### Accounts over a run -/

/-- The calls from given rows. -/
abbrev accountSystem (env : Env) (s₀ : Shared) :
    Transition.Sys (Calls.State Shared Request Pc) (Calls.Action Environment Choice Request) :=
  Calls.system (machine env) environment fun s => s = s₀

/-- Two versions of one account: all but the role and the flag is the same. -/
structure User.Same (u v : User) : Prop where
  id : u.id = v.id
  email : u.email = v.email
  passwordHash : u.passwordHash = v.passwordHash
  displayName : u.displayName = v.displayName

theorem User.Same.refl (u : User) : u.Same u := ⟨rfl, rfl, rfl, rfl⟩

/-- The account of a row is there. -/
def Tables.Has (db : Tables) (user : User) : Prop := ∃ u ∈ db.users, u.Same user

/-- What a call has shown to be answered for an account. -/
def Entitled (env : Env) : Request → User → Prop
  | .register dto, user => user.email = env.normalized dto.email ∧
      ∃ salt, user.passwordHash = env.hash salt dto.password
  | .login dto, user => user.email = env.normalized dto.email ∧
      env.verify user.passwordHash dto.password = true
  | _, _ => True

section Run

variable {env : Env} {s₀ s s' : Shared}

/-- The accounts after a step are those before it, and perhaps one that is new. -/
structure Extends (s s' : Shared) : Prop where
  has : ∀ user, s.db.Has user → s'.db.Has user
  unique : Table.UniqueOn User.id s.db.users → Table.UniqueOn User.id s'.db.users
  uniqueEmail : Table.UniqueOn User.email s.db.users → Table.UniqueOn User.email s'.db.users

theorem Extends.of_eq (h : s'.db.users = s.db.users) : Extends s s' := by
  refine ⟨fun user hu => ?_, fun hu => ?_, fun hu => ?_⟩
  · unfold Tables.Has
    rw [h]
    exact hu
  · rw [h]
    exact hu
  · rw [h]
    exact hu

theorem Extends.trans {s'' : Shared} (h : Extends s s') (h' : Extends s' s'') :
    Extends s s'' where
  has user hu := h'.has user (h.has user hu)
  unique hu := h'.unique (h.unique hu)
  uniqueEmail hu := h'.uniqueEmail (h.uniqueEmail hu)

theorem extends_of_environment {e : Environment} (h : environment s e = some s') :
    Extends s s' := by
  cases e with
  | tick ms =>
    cases h
    exact .of_eq rfl
  | setUser id role active =>
    cases h
    refine ⟨?_, fun hu => Table.uniqueOn_update hu fun _ _ _ => rfl,
      fun hu => Table.uniqueOn_update hu fun _ _ _ => rfl⟩
    rintro user ⟨u, hu, hsame⟩
    refine ⟨_, Table.mem_update.mpr ⟨u, hu, rfl⟩, ?_⟩
    split
    · exact ⟨hsame.id, hsame.email, hsame.passwordHash, hsame.displayName⟩
    · exact hsame

theorem AccountStep.extends {r : Request} {pc pc' : Pc} (h : AccountStep env s r pc s' pc') :
    Extends s s' := by
  cases h with
  | kept husers => exact .of_eq husers
  | registered c hid hemail =>
    refine ⟨?_, fun hu => uniqueOn_append_singleton.mpr ⟨hu, hid⟩,
      fun hu => uniqueOn_append_singleton.mpr ⟨hu, hemail⟩⟩
    rintro user ⟨u, hu, hsame⟩
    exact ⟨u, List.mem_append_left _ hu, hsame⟩
  | loggedIn => exact .of_eq rfl
  | refreshing => exact .of_eq rfl
  | issued husers => exact .of_eq husers

/-- **No step takes an account away.** -/
theorem extends_of_step {w w' : Calls.State Shared Request Pc}
    {a : Calls.Action Environment Choice Request}
    (h : Calls.step (machine env) environment w a = some w') : Extends w.shared w'.shared := by
  rcases Calls.shared_of_step h with ⟨e, he⟩ | hsame | ⟨c, r, pc, pc', hadv⟩
  · exact extends_of_environment he
  · rw [hsame]
    exact .of_eq rfl
  · exact (accountStep_of_machine hadv).extends

/-- What is there somewhere in a run is there at its end. -/
theorem extends_of_exec {w w' : Calls.State Shared Request Pc}
    {as : List (Calls.Action Environment Choice Request)}
    (hw : (accountSystem env s₀).Reachable w)
    (h : (accountSystem env s₀).exec w as = some w') : Extends w.shared w'.shared :=
  Transition.Sys.exec_rel (R := fun w w' => Extends w.shared w'.shared) (fun _ => .of_eq rfl)
    (fun _ _ _ => Extends.trans) (fun _ _ _ _ => extends_of_step) hw h

/-- What was there at first is there in every reachable state. -/
theorem extends_of_reachable {w : Calls.State Shared Request Pc}
    (hw : (accountSystem env s₀).Reachable w) : Extends s₀ w.shared := by
  refine hw.invariant (I := fun w => Extends s₀ w.shared) ?_ ?_
  · rintro w ⟨h0, -⟩
    exact .of_eq (congrArg (fun s => s.db.users) h0)
  · intro w a w' _ hI h
    exact hI.trans (extends_of_step h)

/-- **The row of a call is of an account that is there**, and the call is entitled to it. -/
theorem account_of_reachable {w : Calls.State Shared Request Pc}
    (hw : (accountSystem env s₀).Reachable w) {i : ℕ} {r : Request} {pc : Pc} {user : User}
    (hcall : w.calls i = some ⟨r, pc⟩) (haccount : pc.account = some user) :
    w.shared.db.Has user ∧ Entitled env r user := by
  refine Calls.call_invariant (J := fun s r pc => ∀ user, pc.account = some user →
    s.db.Has user ∧ Entitled env r user) ?_ ?_ ?_ hw hcall user haccount
  · intro w r _ user h
    cases h
  · intro w c r pc s' pc' _ hJ h user haccount
    cases accountStep_of_machine h with
    | kept _ hnone =>
      rw [hnone] at haccount
      cases haccount
    | registered c =>
      cases haccount
      exact ⟨⟨_, List.mem_append_right _ (List.mem_singleton_self _), .refl _⟩, rfl, c.salt, rfl⟩
    | loggedIn hmem hemail _ hverify =>
      cases haccount
      exact ⟨⟨_, hmem, .refl _⟩, hemail, hverify⟩
    | refreshing _ hmem =>
      cases haccount
      exact ⟨⟨_, hmem, .refl _⟩, trivial⟩
    | issued husers hold =>
      cases haccount
      obtain ⟨hhas, hentitled⟩ := hJ _ (Pc.account_of_signing hold)
      exact ⟨(Extends.of_eq husers).has _ hhas, hentitled⟩
  · intro w a w' r pc _ hstep hJ user haccount
    obtain ⟨hhas, hentitled⟩ := hJ user haccount
    exact ⟨(extends_of_step hstep).has user hhas, hentitled⟩

theorem Extends.email (h : Extends s s') {email : String}
    (hs : ∃ u ∈ s.db.users, u.email = email) : ∃ u ∈ s'.db.users, u.email = email := by
  obtain ⟨u, hu, rfl⟩ := hs
  obtain ⟨u', hu', hsame⟩ := h.has u ⟨u, hu, .refl u⟩
  exact ⟨u', hu', hsame.email⟩

end Run

/-! ### Registrations over a run -/

/-- The step brings a row of an account that was not there. -/
def Adds (s s' : Shared) (user : User) : Prop := user ∈ s'.db.users ∧ ¬s.db.Has user

/-- Call `i` registers an account and inserts its row in the step. -/
structure Inserts (env : Env) (w : Calls.State Shared Request Pc)
    (a : Calls.Action Environment Choice Request) (w' : Calls.State Shared Request Pc) (i : ℕ)
    (dto : RegisterDto) (user : User) : Prop where
  action : ∃ c, a = .advance i c
  before : w.calls i = some ⟨.register dto, .registering⟩
  after : w'.calls i = some ⟨.register dto, .issuing user⟩
  row : ∃ c, user = newUser env dto c

section Registrations

variable {env : Env} {s₀ s s' : Shared} {w₀ w w' : Calls.State Shared Request Pc}
  {a : Calls.Action Environment Choice Request} {i : ℕ} {dto : RegisterDto} {user : User}

theorem not_adds_of_eq (h : s'.db.users = s.db.users) : ¬Adds s s' user := by
  rintro ⟨hmem, hnew⟩
  exact hnew ⟨user, h ▸ hmem, .refl user⟩

/-- An administrator adds no account. -/
theorem not_adds_of_environment {e : Environment} (h : environment s e = some s') :
    ¬Adds s s' user := by
  cases e with
  | tick ms =>
    cases h
    exact not_adds_of_eq rfl
  | setUser id role active =>
    cases h
    rintro ⟨hmem, hnew⟩
    obtain ⟨u, hu, rfl⟩ := Table.mem_update.mp hmem
    refine hnew ⟨u, hu, ?_⟩
    split
    · exact ⟨rfl, rfl, rfl, rfl⟩
    · exact .refl u

/-- Only the insertion of a registration adds an account. -/
theorem AccountStep.of_adds {r : Request} {pc pc' : Pc} (h : AccountStep env s r pc s' pc')
    (hadds : Adds s s' user) : ∃ dto, r = .register dto ∧ pc = .registering ∧
      pc' = .issuing user ∧ ∃ c, user = newUser env dto c := by
  cases h with
  | kept husers => exact absurd hadds (not_adds_of_eq husers)
  | @registered dto c =>
    obtain ⟨hmem, hnew⟩ := hadds
    rcases List.mem_append.mp hmem with hold | hnew'
    · exact absurd ⟨user, hold, .refl user⟩ hnew
    · rw [List.mem_singleton] at hnew'
      subst hnew'
      exact ⟨dto, rfl, rfl, rfl, c, rfl⟩
  | loggedIn => exact absurd hadds (not_adds_of_eq rfl)
  | refreshing => exact absurd hadds (not_adds_of_eq rfl)
  | issued husers => exact absurd hadds (not_adds_of_eq husers)

/-- A registration comes to a row by inserting it, or has it already. -/
theorem AccountStep.of_account {pc pc' : Pc} (h : AccountStep env s (.register dto) pc s' pc')
    (haccount : pc'.account = some user) : pc.account = some user ∨
      pc = .registering ∧ pc' = .issuing user ∧ ∃ c, user = newUser env dto c := by
  cases h with
  | kept _ hnone =>
    rw [hnone] at haccount
    cases haccount
  | registered c =>
    cases haccount
    exact .inr ⟨rfl, rfl, c, rfl⟩
  | issued _ hsigning =>
    cases haccount
    exact .inl (Pc.account_of_signing hsigning)

/-- **What the insertion of a registration does**: nobody had the id or the email. -/
theorem AccountStep.of_inserts
    (h : AccountStep env s (.register dto) .registering s' (.issuing user)) :
    user.email = env.normalized dto.email ∧ (∀ u ∈ s.db.users, u.email ≠ user.email) ∧
      Adds s s' user := by
  cases h with
  | kept _ hnone => cases hnone
  | registered c hid hemail =>
    refine ⟨rfl, hemail, List.mem_append_right _ (List.mem_singleton_self _), ?_⟩
    rintro ⟨u, hu, hsame⟩
    exact hid u hu hsame.id

/-- An insertion is a step of its call. -/
theorem Inserts.accountStep (hins : Inserts env w a w' i dto user)
    (h : Calls.step (machine env) environment w a = some w') :
    AccountStep env w.shared (.register dto) .registering w'.shared (.issuing user) := by
  rcases Calls.calls_of_step h hins.after with hsame | ⟨-, hstart⟩ | ⟨c, pc, -, hold, hadv⟩
  · rw [hins.before] at hsame
    cases hsame
  · cases hstart
  · rw [hins.before] at hold
    cases hold
    exact accountStep_of_machine hadv

/-- **The accounts that come are those the registrations insert.** -/
theorem adds_iff_inserts (h : Calls.step (machine env) environment w a = some w') :
    Adds w.shared w'.shared user ↔ ∃ i dto, Inserts env w a w' i dto user := by
  constructor
  · intro hadds
    rcases Calls.step_cases h with ⟨e, d, -, he, rfl⟩ | ⟨j, r, -, -, rfl⟩ |
      ⟨j, c, r, pc, d, pc', rfl, hcall, hadv, rfl⟩
    · exact absurd hadds (not_adds_of_environment he)
    · exact absurd hadds (not_adds_of_eq rfl)
    · obtain ⟨dto, rfl, rfl, rfl, hrow⟩ := (accountStep_of_machine hadv).of_adds hadds
      exact ⟨j, dto, ⟨c, rfl⟩, hcall, Calls.move_calls_self _ _ _ _ _, hrow⟩
  · rintro ⟨i, dto, hins⟩
    exact (hins.accountStep h).of_inserts.2.2

/-- A call that registers and comes to a row inserts it. -/
theorem inserts_of_step (h : Calls.step (machine env) environment w a = some w') {pc' : Pc}
    (hcall : w'.calls i = some ⟨.register dto, pc'⟩) (haccount : pc'.account = some user)
    (hbefore : ∀ pc, w.calls i = some ⟨.register dto, pc⟩ → pc.account ≠ some user) :
    Inserts env w a w' i dto user := by
  rcases Calls.calls_of_step h hcall with hsame | ⟨-, rfl⟩ | ⟨c, pc, rfl, hold, hadv⟩
  · exact absurd haccount (hbefore pc' hsame)
  · cases haccount
  · rcases (accountStep_of_machine hadv).of_account haccount with hsame | ⟨rfl, rfl, hrow⟩
    · exact absurd hsame (hbefore pc hold)
    · exact ⟨⟨c, rfl⟩, hold, hcall, hrow⟩

section Run

variable {as : List (Calls.Action Environment Choice Request)}

/-- Whoever registers and has a row has inserted it in the run. -/
theorem exists_inserts (h0 : (accountSystem env s₀).init w₀)
    (h : (accountSystem env s₀).exec w₀ as = some w) {pc : Pc}
    (hcall : w.calls i = some ⟨.register dto, pc⟩) (haccount : pc.account = some user) :
    ∃ v a v', (accountSystem env s₀).Takes w₀ as v a v' ∧ Inserts env v a v' i dto user := by
  have hnone : ¬∃ pc, w₀.calls i = some ⟨.register dto, pc⟩ ∧ pc.account = some user := by
    rintro ⟨pc, hcall, -⟩
    rw [h0.2 i] at hcall
    cases hcall
  obtain ⟨v, a, v', htakes, hbefore, pc', hcall', haccount'⟩ :=
    Transition.Sys.exists_takes
      (P := fun w => ∃ pc, w.calls i = some ⟨.register dto, pc⟩ ∧ pc.account = some user)
      h hnone ⟨pc, hcall, haccount⟩
  exact ⟨v, a, v', htakes, inserts_of_step htakes.step hcall' haccount'
    fun pc hold haccount => hbefore ⟨pc, hold, haccount⟩⟩

/-- An account that is inserted has an email that nobody had at first. -/
theorem free_of_inserts (h0 : (accountSystem env s₀).init w₀) {v v' : Calls.State Shared Request Pc}
    (htakes : (accountSystem env s₀).Takes w₀ as v a v') (hins : Inserts env v a v' i dto user) :
    ∀ u ∈ s₀.db.users, u.email ≠ env.normalized dto.email := by
  obtain ⟨hemail, hfree, -⟩ := (hins.accountStep htakes.step).of_inserts
  intro u hu hsame
  have hreach := htakes.reachable (.init h0)
  obtain ⟨u', hu', hsame'⟩ := (extends_of_reachable hreach).email ⟨u, hu, hsame⟩
  exact hfree u' hu' (hsame'.trans hemail.symm)

/-- **One insertion for each email.** -/
theorem inserts_unique (h0 : (accountSystem env s₀).init w₀)
    {v v' u u' : Calls.State Shared Request Pc} {b : Calls.Action Environment Choice Request}
    {j : ℕ} {dto' : RegisterDto} {other : User}
    (hv : (accountSystem env s₀).Takes w₀ as v a v') (hins : Inserts env v a v' i dto user)
    (hu : (accountSystem env s₀).Takes w₀ as u b u') (hins' : Inserts env u b u' j dto' other)
    (hsame : env.normalized dto'.email = env.normalized dto.email) : j = i ∧ u = v ∧ u' = v' := by
  obtain ⟨hemail, hfree, hadds⟩ := (hins.accountStep hv.step).of_inserts
  obtain ⟨hemail', hfree', hadds'⟩ := (hins'.accountStep hu.step).of_inserts
  have hequal : other.email = user.email := by rw [hemail', hsame, hemail]
  have hstable : ∀ w a w', (accountSystem env s₀).Reachable w →
      (∃ x ∈ w.shared.db.users, x.email = user.email) → (accountSystem env s₀).step w a = some w' →
      ∃ x ∈ w'.shared.db.users, x.email = user.email :=
    fun w a w' _ htaken hstep => (extends_of_step hstep).email htaken
  obtain ⟨hstate, haction, hstate'⟩ := hv.unique hstable (.init h0)
    (fun ⟨x, hx, hxe⟩ => hfree x hx hxe) ⟨user, hadds.1, rfl⟩ hu
    (fun ⟨x, hx, hxe⟩ => hfree' x hx (hxe.trans hequal.symm)) ⟨other, hadds'.1, hequal⟩
  obtain ⟨c, rfl⟩ := hins.action
  obtain ⟨c', rfl⟩ := hins'.action
  cases haction
  exact ⟨rfl, hstate.symm, hstate'.symm⟩

/-- **Of the registrations of one email at most one has the account.**  In every run of
calls from rows with distinct ids and emails: ids and emails stay distinct; no account of
any state of the run is gone at its end; the row a call issues tokens for is of an account
that is there, with the password the call has given; the accounts that come are those that
registrations insert, a registration that issues tokens among them; and of the
registrations of one email, in whatever spelling, at most one ever inserts its row, once,
and only if nobody had the email at first. -/
theorem registrations_exclusive (hid : Table.UniqueOn User.id s₀.db.users)
    (hemail : Table.UniqueOn User.email s₀.db.users) (h0 : (accountSystem env s₀).init w₀)
    (h : (accountSystem env s₀).exec w₀ as = some w) :
    Table.UniqueOn User.id w.shared.db.users ∧ Table.UniqueOn User.email w.shared.db.users ∧
    (∀ bs v, bs <+: as → (accountSystem env s₀).exec w₀ bs = some v →
      ∀ user, v.shared.db.Has user → w.shared.db.Has user) ∧
    (∀ i r pc user, w.calls i = some ⟨r, pc⟩ → pc.account = some user →
      w.shared.db.Has user ∧ Entitled env r user) ∧
    (∀ v a v' user, (accountSystem env s₀).Takes w₀ as v a v' →
      (Adds v.shared v'.shared user ↔ ∃ i dto, Inserts env v a v' i dto user)) ∧
    (∀ i dto pc user, w.calls i = some ⟨.register dto, pc⟩ → pc.account = some user →
      ∃ v a v', (accountSystem env s₀).Takes w₀ as v a v' ∧ Inserts env v a v' i dto user) ∧
    ∀ v a v' i dto user, (accountSystem env s₀).Takes w₀ as v a v' →
      Inserts env v a v' i dto user →
      (∀ u ∈ s₀.db.users, u.email ≠ env.normalized dto.email) ∧
      ∀ u b u' j dto' other, (accountSystem env s₀).Takes w₀ as u b u' →
        Inserts env u b u' j dto' other → env.normalized dto'.email = env.normalized dto.email →
        j = i ∧ u = v ∧ u' = v' := by
  have hreach : (accountSystem env s₀).Reachable w := (Transition.Sys.Reachable.init h0).exec h
  have hext := extends_of_reachable hreach
  refine ⟨hext.unique hid, hext.uniqueEmail hemail, ?_, ?_, ?_, ?_, ?_⟩
  · rintro bs v ⟨cs, rfl⟩ hv user hhas
    rw [Transition.Sys.exec_append, hv, Option.bind_some] at h
    exact (extends_of_exec ((Transition.Sys.Reachable.init h0).exec hv) h).has user hhas
  · intro i r pc user hcall haccount
    exact account_of_reachable hreach hcall haccount
  · intro v a v' user htakes
    exact adds_iff_inserts htakes.step
  · intro i dto pc user hcall haccount
    exact exists_inserts h0 h hcall haccount
  · intro v a v' i dto user hv hins
    exact ⟨free_of_inserts h0 hv hins, fun u b u' j dto' other hu hins' hsame =>
      inserts_unique h0 hv hins hu hins' hsame⟩

end Run

end Registrations

/-- Calls `0` and `1` register one email, and both have found it free before either inserts
its row. -/
def racingRegistrations : List (Calls.Action Environment Choice Request) :=
  [.request 0 (.register ⟨"grace@example.com", "a long password", "Grace"⟩),
    .request 1 (.register ⟨"grace@example.com", "another password", "Grace"⟩),
    .advance 0 (sampleChoice 1), .advance 1 (sampleChoice 2), .advance 0 (sampleChoice 1),
    .advance 1 (sampleChoice 2), .advance 0 (sampleChoice 3)]

/-- Call `0` has inserted its row, and so call `1` never does. -/
theorem sample_registrations_exclusive : ∃ w,
    (accountSystem sampleEnv sampleState.shared).exec sampleState racingRegistrations = some w ∧
    (∀ u ∈ sampleState.shared.db.users, u.email ≠ "grace@example.com") ∧
    (∃ v a v' dto user, (accountSystem sampleEnv sampleState.shared).Takes sampleState
      racingRegistrations v a v' ∧ Inserts sampleEnv v a v' 0 dto user) ∧
    ∀ v a v' j dto user, (accountSystem sampleEnv sampleState.shared).Takes sampleState
      racingRegistrations v a v' → Inserts sampleEnv v a v' j dto user →
      dto.email = "grace@example.com" → j = 0 := by
  have hrun : ((accountSystem sampleEnv sampleState.shared).exec sampleState
      racingRegistrations).map (fun w => w.calls 0) =
        some (some ⟨.register ⟨"grace@example.com", "a long password", "Grace"⟩,
          .returned (.tokens (tokenPair sampleEnv
            ⟨Uuid.repeated 1, "grace@example.com", "a long password", "Grace", .user, true⟩ 0
              (sampleChoice 3)))⟩) := by decide +kernel
  obtain ⟨w, hw, hcall⟩ := Option.map_eq_some_iff.mp hrun
  have hinit : (accountSystem sampleEnv sampleState.shared).init sampleState :=
    ⟨rfl, fun _ => rfl⟩
  have hid : Table.UniqueOn User.id sampleState.shared.db.users := List.nodup_singleton _
  have hemail : Table.UniqueOn User.email sampleState.shared.db.users := List.nodup_singleton _
  obtain ⟨-, -, -, -, -, hinserted, hone⟩ := registrations_exclusive hid hemail hinit hw
  obtain ⟨v, a, v', htakes, hins⟩ := hinserted 0 _ _ _ hcall rfl
  obtain ⟨hfree, hunique⟩ := hone v a v' 0 _ _ htakes hins
  refine ⟨w, hw, hfree, ⟨v, a, v', _, _, htakes, hins⟩, ?_⟩
  intro u b u' j dto user hu hins' hsame
  exact (hunique u b u' j dto user hu hins' hsame).1

end ScaleForge.Auth
