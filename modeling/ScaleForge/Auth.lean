import ScaleForge.Lib.Calls
import ScaleForge.Schema

/-!
# Accounts and refresh tokens

`AuthService` and the part of `UsersRepository` it uses.  A refresh looks its
token up and rotates it in a later statement; a logout revokes with one
conditional update.  Signing and verifying JWTs and hashing with argon2 are
outside the repository and enter as the fields of `Env`.

## Main definitions

* `Env` — the JWT and argon2 libraries and the configuration.
* `verifyRefreshToken`, `checkStored`, `newToken` — the parts of `AuthService`
  that touch no rows.
* `rotateRefreshToken`, `revokeRefreshToken` — the writes of `UsersRepository`.
* `machine`, `authSystem` — register, login, refresh and logout calls on the
  tables.

## Main results

* `advance_cases` — the ways a step of a call can go.
-/

namespace ScaleForge.Auth

open Transaction

/-! ### Rows -/

structure User where
  id : Uuid
  email : String
  passwordHash : String
  displayName : String
  role : Role
  active : Bool
  deriving DecidableEq

structure RefreshToken where
  id : Uuid
  userId : Uuid
  tokenHash : String
  expiresAt : ℕ
  revokedAt : Option ℕ
  deriving DecidableEq

/-- The committed rows. -/
structure Tables where
  users : List User
  refreshTokens : List RefreshToken

/-! ### Libraries and configuration -/

/-- The claims of a refresh JWT; `exp` is in seconds. -/
structure RefreshPayload where
  sub : UuidText
  jti : Option UuidText
  type : String
  exp : ℕ
  deriving DecidableEq

/-- What the service takes from its libraries and its configuration. -/
structure Env where
  /-- `JWT_ACCESS_TTL_SECONDS`. -/
  accessTtl : ℕ
  /-- `JWT_REFRESH_TTL_SECONDS`. -/
  refreshTtl : ℕ
  /-- The claims of a JWT whose signature under `JWT_REFRESH_SECRET` is right. -/
  decodeRefresh : String → Option RefreshPayload
  /-- `jwt.signAsync` of an access token, at a time. -/
  signAccess : User → ℕ → String
  /-- `jwt.signAsync` of a refresh token for a user under a `jti`, at a time. -/
  signRefresh : User → Uuid → ℕ → String
  /-- `argon2.hash`, with its salt. -/
  hash : ℕ → String → String
  /-- `argon2.verify`. -/
  verify : String → String → Bool
  /-- `s.trim()`. -/
  trim : String → String
  /-- `s.toLowerCase()`. -/
  toLowerCase : String → String

/-! ### Requests -/

structure RegisterDto where
  email : String
  password : String
  displayName : String
  deriving DecidableEq

structure LoginDto where
  email : String
  password : String
  deriving DecidableEq

inductive Request
  | register (dto : RegisterDto)
  | login (dto : LoginDto)
  | refresh (refreshToken : String)
  | logout (refreshToken : String)
  deriving DecidableEq

/-- The answer of `issueTokenPair`. -/
structure TokenPair where
  accessToken : String
  refreshToken : String
  tokenType : String
  expiresIn : ℕ
  user : User
  deriving DecidableEq

inductive Response
  | tokens (pair : TokenPair)
  | logout (revoked : Bool)
  deriving DecidableEq

/-- How far a call has come. -/
inductive Pc
  /-- Nothing has run. -/
  | start
  /-- `register` has found the email free. -/
  | registering
  /-- `register` or `login` issues a token pair. -/
  | issuing (user : User)
  /-- `refresh` has passed its checks and rotates the token. -/
  | rotating (user : User) (rotatedTokenId : Uuid)
  /-- `logout` has verified the token and revokes it. -/
  | revoking (jti : UuidText)
  /-- The call has returned. -/
  | returned (response : Response)
  /-- The call has been rejected. -/
  | rejected (failure : Failure)
  deriving DecidableEq

/-- What the environment decides in one step: where the fuse stands, the
identifier `randomUUID` draws, and the salt. -/
structure Choice where
  fuse : Option ℕ
  id : Uuid
  salt : ℕ

section Service

variable (env : Env)

/-! ### `AuthService` -/

/-- `verifyRefreshToken`: signature and expiry by the library, then the type and
the presence of a `jti`.  The result is `sub` and `jti`. -/
def verifyRefreshToken (now : ℕ) (token : String) : Except Failure (UuidText × UuidText) :=
  match env.decodeRefresh token with
  | some ⟨sub, some jti, type, exp⟩ =>
    if exp ≤ now / 1000 ∨ type ≠ "refresh" then
      .error (.unauthorized "Refresh token is invalid or expired")
    else .ok (sub, jti)
  | _ => .error (.unauthorized "Refresh token is invalid or expired")

/-- The check of `refresh` on the stored token. -/
def checkStored (now : ℕ) (token : String) (sub : UuidText)
    (stored : Option (RefreshToken × User)) : Except Failure (RefreshToken × User) :=
  match stored with
  | none => .error (.unauthorized "Refresh token is invalid or expired")
  | some (row, user) =>
    if row.userId.text ≠ sub ∨ row.revokedAt.isSome ∨ row.expiresAt ≤ now ∨ user.active = false ∨
        env.verify row.tokenHash token = false then
      .error (.unauthorized "Refresh token is invalid or expired")
    else .ok (row, user)

/-- The check of `login`. -/
def checkLogin (dto : LoginDto) (found : Option User) : Except Failure User :=
  match found with
  | none => .error (.unauthorized "Invalid email or password")
  | some user =>
    if user.active = false ∨ env.verify user.passwordHash dto.password = false then
      .error (.unauthorized "Invalid email or password")
    else .ok user

/-- The user `register` creates. -/
def newUser (dto : RegisterDto) (c : Choice) : User where
  id := c.id
  email := env.toLowerCase (env.trim dto.email)
  passwordHash := env.hash c.salt dto.password
  displayName := env.trim dto.displayName
  role := .user
  active := true

/-- The record of `issueTokenPair`. -/
def newToken (user : User) (now : ℕ) (c : Choice) : RefreshToken where
  id := c.id
  userId := user.id
  tokenHash := env.hash c.salt (env.signRefresh user c.id now)
  expiresAt := now + env.refreshTtl * 1000
  revokedAt := none

/-- The answer of `issueTokenPair`. -/
def tokenPair (user : User) (now : ℕ) (c : Choice) : TokenPair where
  accessToken := env.signAccess user now
  refreshToken := env.signRefresh user c.id now
  tokenType := "Bearer"
  expiresIn := env.accessTtl
  user := user

end Service

/-! ### `UsersRepository` -/

/-- `findByEmailForAuth`. -/
def findByEmailForAuth (db : Tables) (email : String) : Option User :=
  Table.find User.email email db.users

/-- `findRefreshToken`, with the user it belongs to. -/
def findRefreshToken (db : Tables) (id : UuidText) : Option (RefreshToken × User) :=
  (Table.find RefreshToken.id id.value db.refreshTokens).bind fun row =>
    (Table.find User.id row.userId db.users).map fun user => (row, user)

/-- One statement against these tables. -/
def sql {α : Type} (f : Tables → Except Failure (α × Tables)) : Tx Tables Failure α :=
  statement .infrastructure f

/-- `user.create`: `id` and `email` are unique. -/
def createUser (user : User) : Tx Tables Failure User :=
  sql fun db =>
    match Table.insert User.id user db.users, Table.insert User.email user db.users with
    | some users, some _ => .ok (user, { db with users := users })
    | _, _ => .error (.prisma .P2002)

/-- `refreshToken.create`. -/
def createRefreshToken (row : RefreshToken) : Tx Tables Failure Unit :=
  sql fun db =>
    match Table.insert RefreshToken.id row db.refreshTokens with
    | some refreshTokens => .ok ((), { db with refreshTokens := refreshTokens })
    | none => .error (.prisma .P2002)

/-- What revoking does to a row. -/
def revoke (now : ℕ) (row : RefreshToken) : RefreshToken := { row with revokedAt := some now }

/-- `refreshToken.update`: by id, whatever the row looks like by now. -/
def updateRefreshToken (id : Uuid) (now : ℕ) : Tx Tables Failure Unit :=
  sql fun db =>
    if db.refreshTokens.any fun row => row.id = id then
      .ok ((), { db with
        refreshTokens := Table.update (fun row => row.id = id) (revoke now) db.refreshTokens })
    else .error (.prisma .P2025)

/-- `rotateRefreshToken`: the batch of the update and the insert. -/
def rotateRefreshToken (oldId : Uuid) (next : RefreshToken) (now : ℕ) : Tx Tables Failure Unit := do
  updateRefreshToken oldId now
  createRefreshToken next

/-- `where: { id, revokedAt: null }`. -/
def unrevoked (id : UuidText) (row : RefreshToken) : Bool :=
  row.id = id.value && row.revokedAt.isNone

/-- `revokeRefreshToken`; the result is the number of rows it met. -/
def revokeRefreshToken (id : UuidText) (now : ℕ) : Tx Tables Failure ℕ :=
  sql fun db => .ok (db.refreshTokens.countP (unrevoked id),
    { db with refreshTokens := Table.update (unrevoked id) (revoke now) db.refreshTokens })

/-! ### The calls -/

/-- The clock and the committed rows. -/
structure Shared where
  clock : ℕ
  db : Tables

/-- Go on with the value of a check, or reject. -/
def orReject {α : Type} (x : Except Failure α) (k : α → Pc) : Pc :=
  match x with
  | .ok a => k a
  | .error e => .rejected e

/-- A read outside a transaction; it may fail on its own account. -/
def read (c : Choice) (pc : Pc) : Pc := if c.fuse = some 0 then .rejected .infrastructure else pc

/-- Commit or roll back, and go on. -/
def commit {α : Type} (s : Shared) (c : Choice) (body : Tx Tables Failure α)
    (k : Except Failure α → Pc) : Shared × Pc :=
  ({ s with db := (transaction body c.fuse s.db).2 }, k (transaction body c.fuse s.db).1)

/-- One step of a call. -/
def advance (env : Env) (s : Shared) (c : Choice) : Request → Pc → Option (Shared × Pc)
  | .register dto, .start =>
    some (s, read c
      (match findByEmailForAuth s.db (env.toLowerCase (env.trim dto.email)) with
      | some _ => .rejected (.conflict "An account already exists for this email")
      | none => .registering))
  | .register dto, .registering =>
    some (commit s c (createUser (newUser env dto c)) fun x => orReject x .issuing)
  | .login dto, .start =>
    some (s, read c (orReject (checkLogin env dto
      (findByEmailForAuth s.db (env.toLowerCase (env.trim dto.email)))) .issuing))
  | .register _, .issuing user | .login _, .issuing user =>
    some (commit s c (createRefreshToken (newToken env user s.clock c)) fun x =>
      orReject x fun _ => .returned (.tokens (tokenPair env user s.clock c)))
  | .refresh token, .start =>
    some (s, orReject (verifyRefreshToken env s.clock token) fun (sub, jti) =>
      read c (orReject (checkStored env s.clock token sub (findRefreshToken s.db jti))
        fun (row, user) => .rotating user row.id))
  | .refresh _, .rotating user rotatedTokenId =>
    some (commit s c
      (rotateRefreshToken rotatedTokenId (newToken env user s.clock c) s.clock) fun x =>
        orReject x fun _ => .returned (.tokens (tokenPair env user s.clock c)))
  | .logout token, .start =>
    some (s, match verifyRefreshToken env s.clock token with
      | .ok (_, jti) => .revoking jti
      | .error _ => .returned (.logout false))
  | .logout _, .revoking jti =>
    -- every failure is caught and answered with `revoked: false`
    some (commit s c (revokeRefreshToken jti s.clock) fun x =>
      match x with
      | .ok count => .returned (.logout (0 < count))
      | .error _ => .returned (.logout false))
  | _, _ => none

/-- The machine of the calls. -/
def machine (env : Env) : Calls.Machine Shared Choice Request Pc where
  start := .start
  advance := advance env

/-- What happens between the steps of the calls. -/
inductive Environment
  /-- Time passes. -/
  | tick (ms : ℕ)
  /-- An administrator edits a user. -/
  | setUser (id : Uuid) (role : Role) (active : Bool)

/-- A step of the environment. -/
def environment (s : Shared) : Environment → Option Shared
  | .tick ms => some { s with clock := s.clock + ms }
  | .setUser id role active => some { s with
      db := { s.db with
        users := Table.update (fun u => u.id = id)
          (fun u => { u with role := role, active := active }) s.db.users } }

/-- **The system**: calls on tables without refresh tokens at first. -/
abbrev authSystem (env : Env) :
    Transition.Sys (Calls.State Shared Request Pc) (Calls.Action Environment Choice Request) :=
  Calls.system (machine env) environment fun s => s.db.refreshTokens = []

/-! ### Taking a step apart -/

/-- The call presents the refresh token with this id. -/
def Presents (env : Env) (id : Uuid) : Request → Prop
  | .refresh token | .logout token =>
    ∃ payload jti, env.decodeRefresh token = some payload ∧ payload.jti = some jti ∧
      jti.value = id
  | _ => False

/-- The call has consumed its token: a refresh that has returned a pair, or a
logout that has returned `revoked: true`. -/
def Consumes : Request → Pc → Prop
  | .refresh _, .returned (.tokens _) => True
  | .logout _, .returned (.logout true) => True
  | _, _ => False

/-- The token a call is about to rotate or revoke is the one it presents. -/
def Pc.Ok (env : Env) (r : Request) : Pc → Prop
  | .rotating _ id => Presents env id r
  | .revoking jti => Presents env jti.value r
  | _ => True

/-- The ways one step of a call can go, as far as refresh tokens are concerned:
it keeps them, issues one, rotates one, or revokes one. -/
inductive Advance (env : Env) (s : Shared) : Request → Pc → Tables → Pc → Prop
  /-- The refresh tokens stay, and none is consumed. -/
  | kept {r : Request} {pc pc' : Pc} (users : List User) (hok : pc'.Ok env r)
      (hpc' : ¬Consumes r pc') : Advance env s r pc { s.db with users := users } pc'
  /-- A token is issued to a new session. -/
  | issued {r : Request} {pc pc' : Pc} {row : RefreshToken} (hrow : row.revokedAt = none)
      (hnew : ∀ t ∈ s.db.refreshTokens, t.id ≠ row.id) (hok : pc'.Ok env r)
      (hpc' : ¬Consumes r pc') :
      Advance env s r pc { s.db with refreshTokens := s.db.refreshTokens ++ [row] } pc'
  /-- A token is rotated. -/
  | rotated {token : String} {user : User} {old : Uuid} {row : RefreshToken} {pair : TokenPair}
      (hold : ∃ t ∈ s.db.refreshTokens, t.id = old) (hrow : row.revokedAt = none)
      (hnew : ∀ t ∈ s.db.refreshTokens, t.id ≠ row.id) :
      Advance env s (.refresh token) (.rotating user old)
        { s.db with
          refreshTokens :=
            Table.update (fun t => t.id = old) (revoke s.clock) s.db.refreshTokens ++ [row] }
        (.returned (.tokens pair))
  /-- A token is revoked. -/
  | revoked {token : String} {jti : UuidText}
      (hmet : ∃ t ∈ s.db.refreshTokens, unrevoked jti t = true) :
      Advance env s (.logout token) (.revoking jti)
        { s.db with
          refreshTokens := Table.update (unrevoked jti) (revoke s.clock) s.db.refreshTokens }
        (.returned (.logout true))

section Advance

variable {env : Env} {s s' : Shared} {c : Choice} {r : Request} {pc pc' : Pc}

/-- **What a committed registration leaves behind.** -/
theorem createUser_commits {user u : User} {db db' : Tables}
    (h : Commits (createUser user) db u db') : u = user ∧
      (∀ v ∈ db.users, v.id ≠ user.id) ∧ (∀ v ∈ db.users, v.email ≠ user.email) ∧
      db' = { db with users := db.users ++ [user] } := by
  unfold createUser sql at h
  have h := Commits.statement h
  split at h
  · next users users' hid hemail =>
    rw [Table.insert_eq_some_iff] at hid hemail
    cases h
    exact ⟨rfl, hid.1, hemail.1, by rw [hid.2]⟩
  · cases h

theorem createRefreshToken_commits {row : RefreshToken} {db db' : Tables} {u : Unit}
    (h : Commits (createRefreshToken row) db u db') :
    (∀ t ∈ db.refreshTokens, t.id ≠ row.id) ∧
      db' = { db with refreshTokens := db.refreshTokens ++ [row] } := by
  unfold createRefreshToken sql at h
  have h := Commits.statement h
  split at h
  · next hins =>
    rw [Table.insert_eq_some_iff] at hins
    cases h
    exact ⟨hins.1, by rw [hins.2]⟩
  · cases h

/-- **What a committed rotation leaves behind**: the old row revoked, whether it
had been before or not, and a new one. -/
theorem rotateRefreshToken_commits {oldId : Uuid} {next : RefreshToken} {now : ℕ}
    {db db' : Tables} {u : Unit} (h : Commits (rotateRefreshToken oldId next now) db u db') :
    (∃ t ∈ db.refreshTokens, t.id = oldId) ∧ (∀ t ∈ db.refreshTokens, t.id ≠ next.id) ∧
      db' = { db with
        refreshTokens :=
          Table.update (fun t => t.id = oldId) (revoke now) db.refreshTokens ++ [next] } := by
  obtain ⟨_, db₁, hupdate, hcreate⟩ := h.bind
  unfold updateRefreshToken sql at hupdate
  have hupdate := Commits.statement hupdate
  split at hupdate
  · next hany =>
    cases hupdate
    obtain ⟨hnew, rfl⟩ := createRefreshToken_commits hcreate
    simp only [List.any_eq_true, decide_eq_true_eq] at hany
    refine ⟨hany, ?_, rfl⟩
    intro t ht
    -- the update has not changed the ids
    have hid := hnew _ (Table.mem_update.mpr ⟨t, ht, rfl⟩)
    split at hid
    · exact hid
    · exact hid
  · cases hupdate

/-- A check that fails rejects. -/
theorem orReject_rule {α : Type} {P : Pc → Prop} {x : Except Failure α} {k : α → Pc}
    (hok : ∀ a, x = .ok a → P (k a)) (herror : ∀ e, P (.rejected e)) : P (orReject x k) := by
  cases x with
  | ok a => exact hok a rfl
  | error e => exact herror e

/-- A read that fails rejects. -/
theorem read_rule {P : Pc → Prop} (hok : P pc) (herror : ∀ e, P (.rejected e)) :
    P (read c pc) := by
  unfold read
  split
  · exact herror _
  · exact hok

/-- A transaction commits, or goes on with its failure and the rows as they
were. -/
theorem commit_rule {α : Type} {P : Shared → Pc → Prop} {body : Tx Tables Failure α}
    {k : Except Failure α → Pc}
    (hok : ∀ a db', Commits body s.db a db' → P { s with db := db' } (k (.ok a)))
    (herror : ∀ e, P s (k (.error e))) : P (commit s c body k).1 (commit s c body k).2 := by
  simp only [commit]
  cases ht : (transaction body c.fuse s.db).1 with
  | ok a => exact hok a _ (commits_of_transaction ht)
  | error e =>
    rw [transaction_error ht]
    exact herror e

/-- A read keeps the refresh tokens. -/
theorem Advance.of_read (hok : pc'.Ok env r) (hpc' : ¬Consumes r pc') :
    Advance env s r pc s.db pc' :=
  .kept s.db.users hok hpc'

theorem Advance.reject (e : Failure) : Advance env s r pc s.db (.rejected e) :=
  .of_read trivial (by cases r <;> exact id)

/-- A verified token is the one the call presents. -/
theorem presents_of_verify {now : ℕ} {token : String} {sub jti : UuidText}
    (h : verifyRefreshToken env now token = .ok (sub, jti)) :
    Presents env jti.value (.refresh token) ∧ Presents env jti.value (.logout token) := by
  unfold verifyRefreshToken at h
  split at h
  · next hdecode =>
    split at h
    · cases h
    · cases h
      exact ⟨⟨_, _, hdecode, rfl, rfl⟩, ⟨_, _, hdecode, rfl, rfl⟩⟩
  · cases h

/-- A token that passes the check of `refresh` is the stored one, and alive. -/
theorem checkStored_eq_ok {now : ℕ} {token : String} {sub : UuidText}
    {stored : Option (RefreshToken × User)} {row : RefreshToken} {user : User}
    (h : checkStored env now token sub stored = .ok (row, user)) :
    stored = some (row, user) ∧ row.revokedAt = none ∧ user.active = true ∧
      now < row.expiresAt := by
  unfold checkStored at h
  split at h
  · cases h
  · split at h
    · cases h
    · next hcheck =>
      cases h
      push Not at hcheck
      obtain ⟨-, hrevoked, hexpires, hactive, -⟩ := hcheck
      exact ⟨rfl, by simpa using hrevoked, by simpa using hactive, hexpires⟩

theorem findRefreshToken_eq_some {db : Tables} {id : UuidText} {row : RefreshToken}
    {user : User} (h : findRefreshToken db id = some (row, user)) :
    (row ∈ db.refreshTokens ∧ row.id = id.value) ∧ user ∈ db.users ∧ user.id = row.userId := by
  unfold findRefreshToken at h
  obtain ⟨t, ht, h⟩ := Option.bind_eq_some_iff.mp h
  obtain ⟨u, hu, h⟩ := Option.map_eq_some_iff.mp h
  cases h
  exact ⟨Table.find_mem ht, Table.find_mem hu⟩

theorem revokeRefreshToken_commits {id : UuidText} {now : ℕ} {db db' : Tables} {n : ℕ}
    (h : Commits (revokeRefreshToken id now) db n db') :
    n = db.refreshTokens.countP (unrevoked id) ∧
      db' = { db with
        refreshTokens := Table.update (unrevoked id) (revoke now) db.refreshTokens } := by
  unfold revokeRefreshToken sql at h
  have h := Commits.statement h
  cases h
  exact ⟨rfl, rfl⟩

theorem advance_of_eq {q : Shared × Pc} (h : advance env s c r pc = some q) :
    Advance env s r pc q.1.db q.2 ∧ q.1.clock = s.clock := by
  unfold advance at h
  split at h <;> cases h
  all_goals refine ⟨?_, rfl⟩
  case h_1 =>
    refine read_rule (P := Advance env s _ _ s.db) ?_ .reject
    split
    · exact .reject _
    · exact .of_read trivial id
  case h_2 =>
    refine commit_rule (P := fun s' => Advance env s _ _ s'.db) ?_ .reject
    intro u db' hc
    obtain ⟨-, -, -, rfl⟩ := createUser_commits hc
    exact .kept _ trivial id
  case h_3 =>
    refine read_rule (P := Advance env s _ _ s.db) (orReject_rule ?_ .reject) .reject
    exact fun user hcheck => .of_read trivial id
  case h_4 =>
    refine commit_rule (P := fun s' => Advance env s _ _ s'.db) ?_ .reject
    intro u db' hc
    obtain ⟨hnew, rfl⟩ := createRefreshToken_commits hc
    exact .issued rfl hnew trivial id
  case h_5 =>
    refine commit_rule (P := fun s' => Advance env s _ _ s'.db) ?_ .reject
    intro u db' hc
    obtain ⟨hnew, rfl⟩ := createRefreshToken_commits hc
    exact .issued rfl hnew trivial id
  case h_6 token =>
    refine orReject_rule (P := Advance env s _ _ s.db) (fun ⟨sub, jti⟩ hverify => ?_) .reject
    refine read_rule (P := Advance env s _ _ s.db) ?_ .reject
    refine orReject_rule (P := Advance env s _ _ s.db) (fun ⟨row, user⟩ hcheck => ?_) .reject
    have hid : row.id = jti.value := (findRefreshToken_eq_some (checkStored_eq_ok hcheck).1).1.2
    have hpresents : Presents env row.id (.refresh token) := by
      rw [hid]
      exact (presents_of_verify hverify).1
    exact .of_read hpresents id
  case h_7 =>
    refine commit_rule (P := fun s' => Advance env s _ _ s'.db) ?_ .reject
    intro u db' hc
    obtain ⟨hold, hnew, rfl⟩ := rotateRefreshToken_commits hc
    exact .rotated hold rfl hnew
  case h_8 token =>
    split
    · next hverify => exact .of_read (presents_of_verify hverify).2 id
    · exact .of_read trivial id
  case h_9 token jti =>
    refine commit_rule (P := fun s' => Advance env s _ _ s'.db) ?_ fun e => .of_read trivial id
    intro count db' hc
    obtain ⟨rfl, rfl⟩ := revokeRefreshToken_commits hc
    by_cases hpos : 0 < s.db.refreshTokens.countP (unrevoked jti)
    · simp only [decide_eq_true hpos]
      exact .revoked (List.countP_pos_iff.mp hpos)
    · -- no row was met, so none has changed
      have hsame : Table.update (unrevoked jti) (revoke s.clock) s.db.refreshTokens =
          s.db.refreshTokens := by
        refine Table.update_eq_self fun t ht => Bool.eq_false_iff.mpr fun hun => hpos ?_
        exact List.countP_pos_iff.mpr ⟨t, ht, hun⟩
      simp only [decide_eq_false hpos, hsame]
      exact .of_read trivial id

/-- **The ways one step of a call can go.** -/
theorem advance_cases (h : (machine env).advance s c r pc = some (s', pc')) :
    ∃ db', Advance env s r pc db' pc' ∧ s' = { s with db := db' } := by
  obtain ⟨hadv, hclock⟩ := advance_of_eq h
  refine ⟨s'.db, hadv, ?_⟩
  rw [← hclock]

end Advance

end ScaleForge.Auth
