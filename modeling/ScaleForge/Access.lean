import ScaleForge.Accounts
import ScaleForge.Orders

/-!
# Access tokens, guards and roles

Every request passes `JwtAuthGuard` and then `RolesGuard`.  The first takes the user from
an access token, which is believed until it expires; the second compares the user's role
with the roles of the route, which the decorators of its handler or of its controller
give.  While the system runs, roles change through `PATCH /users/:id/role` alone, which is
open to administrators; the first of them is made by the seed, before the system starts.

An access token is signed when a token pair is issued and never stored, so the state
remembers what has been signed, and which roles have been given; no column holds either,
and nothing reads them.

## Main definitions

* `Libraries` — the libraries of `Auth.Env`, and the reading of access tokens.
* `JwtAuthGuard.canActivate`, `RolesGuard.canActivate` — the guards.
* `Route`, `Route.isPublic`, `Route.roles` — the routes with their decorators.
* `machine`, `accessSystem` — the calls of `AuthService`, and the changes of roles.
* `unforged` — nobody presents a token that verifies and has not been issued.

## Main results

* `canActivate_eq_ok` — what a guarded request has presented.
* `authorize_eq_ok` — and what a guarded request that the roles let pass has.
* `accessStep_of_machine` — the ways a step of a call can go.
-/

namespace ScaleForge.Access

open Auth Transaction

/-! ### Access tokens -/

/-- The claims of an access JWT; `exp` is in seconds. -/
structure AccessTokenPayload where
  sub : UuidText
  email : String
  role : Role
  type : String
  exp : ℕ

/-- What the service takes from its libraries and its configuration. -/
structure Libraries extends Env where
  /-- The claims of a JWT whose signature under `JWT_ACCESS_SECRET` is right. -/
  decodeAccess : String → Option AccessTokenPayload

/-- An access token is read as `issueTokenPair` has signed it. -/
def Libraries.ReadsSigned (lib : Libraries) : Prop :=
  ∀ user now, lib.decodeAccess (lib.signAccess user now) =
    some ⟨user.id.text, user.email, user.role, "access", now / 1000 + lib.accessTtl⟩

/-! ### Guards -/

/-- `request.headers.authorization?.split(' ') ?? []`. -/
def headerParts : Option String → List String
  | none => []
  | some authorization => (authorization.toList.splitOn ' ').map String.ofList

/-- The bearer token of a request, if it has one. -/
def bearer (authorization : Option String) : Option String :=
  match headerParts authorization with
  | scheme :: token :: _ => if scheme ≠ "Bearer" ∨ token = "" then none else some token
  | _ => none

/-- `JwtAuthGuard.canActivate`; the result is `request.user`.  A token of another type is
rejected inside the `try`, so its message is that of the `catch`. -/
def JwtAuthGuard.canActivate (lib : Libraries) (now : ℕ) (isPublic : Bool)
    (authorization : Option String) : Except Failure (Option AuthenticatedUser) :=
  if isPublic then .ok none
  else
    match bearer authorization with
    | none => .error (.unauthorized "A valid bearer access token is required")
    | some token =>
      match lib.decodeAccess token with
      | none => .error (.unauthorized "Access token is invalid or expired")
      | some payload =>
        if payload.exp ≤ now / 1000 ∨ payload.type ≠ "access" then
          .error (.unauthorized "Access token is invalid or expired")
        else .ok (some ⟨payload.sub.value, payload.role⟩)

/-- `RolesGuard.canActivate`. -/
def RolesGuard.canActivate (required : List Role) (user : Option AuthenticatedUser) :
    Except Failure Unit :=
  if required = [] then .ok ()
  else if user.any fun user => user.role ∈ required then .ok ()
  else .error (.forbidden "Your role does not permit this operation")

/-! ### Routes -/

/-- What the decorators `@Public` and `@Roles` set on a handler or a controller. -/
structure Metadata where
  isPublic : Option Bool
  roles : Option (List Role)

/-- No decorator. -/
def Metadata.plain : Metadata := ⟨none, none⟩

/-- `@Public()`. -/
def Metadata.public : Metadata := ⟨some true, none⟩

/-- `@Roles(...roles)`. -/
def Metadata.only (roles : List Role) : Metadata := ⟨none, some roles⟩

inductive Controller
  | auth
  | users
  | restaurants
  | orders
  | payments
  | audit
  | health
  | metrics
  deriving DecidableEq

/-- The decorators of a controller. -/
def Controller.metadata : Controller → Metadata
  | users => .only [.admin]
  | audit => .only [.admin, .manager]
  | _ => .plain

/-- The handlers of the controllers. -/
inductive Route
  | register
  | login
  | refresh
  | logout
  | listUsers
  | updateRole
  | listRestaurants
  | createRestaurant
  | createOrder
  | listOrders
  | updateStatus
  | completePayment
  | listAudit
  | live
  | ready
  | render
  deriving DecidableEq

namespace Route

def controller : Route → Controller
  | register | login | refresh | logout => .auth
  | listUsers | updateRole => .users
  | listRestaurants | createRestaurant => .restaurants
  | createOrder | listOrders | updateStatus => .orders
  | completePayment => .payments
  | listAudit => .audit
  | live | ready => .health
  | render => .metrics

/-- The decorators of a handler. -/
def metadata : Route → Metadata
  | register | login | refresh | logout | live | ready | render => .public
  | createRestaurant => .only [.admin, .manager]
  | _ => .plain

/-- `reflector.getAllAndOverride(IS_PUBLIC_KEY, …)`. -/
def isPublic (r : Route) : Bool :=
  (r.metadata.isPublic.or r.controller.metadata.isPublic).getD false

/-- `reflector.getAllAndOverride(ROLES_KEY, …)`. -/
def roles (r : Route) : List Role :=
  (r.metadata.roles.or r.controller.metadata.roles).getD []

end Route

/-- The guards of `AppModule`, one after the other. -/
def authorize (lib : Libraries) (now : ℕ) (r : Route) (authorization : Option String) :
    Except Failure (Option AuthenticatedUser) := do
  let user ← JwtAuthGuard.canActivate lib now r.isPublic authorization
  RolesGuard.canActivate r.roles user
  return user

section Guards

variable {lib : Libraries} {now : ℕ} {authorization : Option String} {user : AuthenticatedUser}

/-- **What a guarded request has presented**: a token that verifies and has not expired, whose
claims are its user. -/
theorem canActivate_eq_ok (h : JwtAuthGuard.canActivate lib now false authorization =
    .ok (some user)) : ∃ token payload, bearer authorization = some token ∧
      lib.decodeAccess token = some payload ∧ now / 1000 < payload.exp ∧
      payload.type = "access" ∧ user = ⟨payload.sub.value, payload.role⟩ := by
  unfold JwtAuthGuard.canActivate at h
  rw [if_neg Bool.false_ne_true] at h
  split at h
  · cases h
  · next token hbearer =>
    split at h
    · cases h
    · next payload hdecode =>
      split at h
      · cases h
      · next hcheck =>
        cases h
        push Not at hcheck
        exact ⟨token, payload, hbearer, hdecode, hcheck.1, hcheck.2, rfl⟩

/-- A guarded request has a user, of one of the roles of its route. -/
theorem authorize_eq_ok {r : Route} {user? : Option AuthenticatedUser}
    (h : authorize lib now r authorization = .ok user?) (hpublic : r.isPublic = false) :
    ∃ user, user? = some user ∧
      JwtAuthGuard.canActivate lib now false authorization = .ok (some user) ∧
      (r.roles ≠ [] → user.role ∈ r.roles) := by
  unfold authorize at h
  rw [hpublic] at h
  cases hguard : JwtAuthGuard.canActivate lib now false authorization with
  | error e =>
    rw [hguard] at h
    cases h
  | ok found =>
    have hsome : ∃ user, found = some user := by
      unfold JwtAuthGuard.canActivate at hguard
      rw [if_neg Bool.false_ne_true] at hguard
      split at hguard
      · cases hguard
      · split at hguard
        · cases hguard
        · split at hguard
          · cases hguard
          · cases hguard
            exact ⟨_, rfl⟩
    obtain ⟨user, rfl⟩ := hsome
    rw [hguard] at h
    cases hroles : RolesGuard.canActivate r.roles (some user) with
    | error e =>
      simp only [bind, Except.bind, hroles] at h
      cases h
    | ok _ =>
      simp only [bind, Except.bind, hroles] at h
      cases h
      refine ⟨user, rfl, rfl, fun hne => ?_⟩
      unfold RolesGuard.canActivate at hroles
      rw [if_neg hne] at hroles
      split at hroles
      · next hmem => simpa using hmem
      · cases hroles

end Guards

/-! ### The calls -/

/-- A token that has been signed and answered, with the row it was signed for. -/
structure Issued where
  user : User
  signedAt : ℕ

/-- A role that has been given. -/
structure Grant where
  /-- Whose token the request presented. -/
  grantor : Option Uuid
  grantee : Uuid
  role : Role
  deriving DecidableEq

/-- The clock and the committed rows, and what has been issued and granted. -/
structure Shared where
  auth : Auth.Shared
  issued : List Issued
  grants : List Grant

inductive Request
  /-- A call of `AuthService`. -/
  | auth (r : Auth.Request)
  /-- `PATCH /users/:id/role`. -/
  | updateRole (authorization : Option String) (id : UuidText) (role : Role)

/-- How far a call has come. -/
inductive Pc
  /-- A call of `AuthService`; all calls start there. -/
  | auth (pc : Auth.Pc)
  /-- The guards have let the request pass. -/
  | authorized (user : Option AuthenticatedUser)
  /-- `UsersService.updateRole` has found the user. -/
  | found (user : Option AuthenticatedUser)
  /-- The call has returned the new row. -/
  | returned (row : User)
  /-- The call has been rejected. -/
  | rejected (failure : Failure)

/-- `UsersRepository.findById`. -/
def findById (db : Tables) (id : UuidText) : Option User := Table.find User.id id.value db.users

/-- What a change of roles does to a row. -/
def setRole (role : Role) (user : User) : User := { user with role := role }

/-- `UsersRepository.updateRole`. -/
def updateRole (id : UuidText) (role : Role) : Tx Tables Failure User :=
  Auth.sql fun db =>
    match findById db id with
    | some user => .ok (setRole role user, { db with
        users := Table.update (fun u => u.id = id.value) (setRole role) db.users })
    | none => .error (.prisma .P2025)

/-- The token a call has answered with. -/
def answered (now : ℕ) : Auth.Pc → List Issued
  | .returned (.tokens pair) => [⟨pair.user, now⟩]
  | _ => []

/-- One step of a call. -/
def advance (lib : Libraries) (s : Shared) (c : Choice) : Request → Pc → Option (Shared × Pc)
  | .auth r, .auth pc =>
    (Auth.advance lib.toEnv s.auth c r pc).map fun q =>
      ({ s with auth := q.1, issued := s.issued ++ answered s.auth.clock q.2 }, .auth q.2)
  | .updateRole authorization _ _, .auth .start =>
    match authorize lib s.auth.clock .updateRole authorization with
    | .ok user => some (s, .authorized user)
    | .error e => some (s, .rejected e)
  | .updateRole _ id _, .authorized user =>
    if c.fuse = some 0 then some (s, .rejected .infrastructure)
    else
      match findById s.auth.db id with
      | some _ => some (s, .found user)
      | none => some (s, .rejected (.notFound "User not found"))
  | .updateRole _ id role, .found user =>
    match transaction (updateRole id role) c.fuse s.auth.db with
    | (.ok row, db) => some ({ s with
        auth := { s.auth with db := db }
        grants := s.grants ++ [⟨user.map AuthenticatedUser.id, id.value, role⟩] }, .returned row)
    | (.error e, db) => some ({ s with auth := { s.auth with db := db } }, .rejected e)
  | _, _ => none

/-- The machine of the calls. -/
def machine (lib : Libraries) : Calls.Machine Shared Choice Request Pc where
  start := .auth .start
  advance := advance lib

/-- Time passes. -/
def environment (s : Shared) (ms : ℕ) : Option Shared :=
  some { s with auth := { s.auth with clock := s.auth.clock + ms } }

/-- There are accounts, and nothing has been issued or granted. -/
structure Shared.Fresh (s : Shared) : Prop where
  users : Table.UniqueOn User.id s.auth.db.users
  issued : s.issued = []
  grants : s.grants = []

abbrev AccessState := Calls.State Shared Request Pc

abbrev AccessAction := Calls.Action ℕ Choice Request

/-- **The system**: calls of `AuthService` and changes of roles, in any interleaving, from
given rows. -/
abbrev accessSystem (lib : Libraries) (s₀ : Shared) : Transition.Sys AccessState AccessAction :=
  Calls.system (machine lib) environment fun s => s = s₀

/-- The token verifies only if it has been issued. -/
def Shared.knows (lib : Libraries) (s : Shared) (authorization : Option String) : Bool :=
  (bearer authorization).all fun token => (lib.decodeAccess token).isNone ||
    s.issued.any fun t => token = lib.signAccess t.user t.signedAt

/-- Nobody presents a token that verifies and has not been issued. -/
def unforged (lib : Libraries) (w : AccessState) : AccessAction → Bool
  | .request _ (.updateRole authorization _ _) => w.shared.knows lib authorization
  | _ => true

/-! ### A step taken apart -/

/-- The ways a step of a call can go. -/
inductive AccessStep (lib : Libraries) (s : Shared) : Request → Pc → Shared → Pc → Prop
  /-- A call of `AuthService` goes on. -/
  | auth {r : Auth.Request} {pc pc' : Auth.Pc} {a : Auth.Shared}
      (h : AccountStep lib.toEnv s.auth r pc a pc') :
      AccessStep lib s (.auth r) (.auth pc)
        { s with auth := a, issued := s.issued ++ answered s.auth.clock pc' } (.auth pc')
  /-- The guards let a change of roles pass. -/
  | authorized {authorization : Option String} {id : UuidText} {role : Role}
      {user : AuthenticatedUser}
      (hguard : JwtAuthGuard.canActivate lib s.auth.clock false authorization = .ok (some user))
      (hadmin : user.role = .admin) :
      AccessStep lib s (.updateRole authorization id role) (.auth .start) s
        (.authorized (some user))
  /-- The user is there. -/
  | found {authorization : Option String} {id : UuidText} {role : Role}
      {user : Option AuthenticatedUser} :
      AccessStep lib s (.updateRole authorization id role) (.authorized user) s (.found user)
  /-- The role is changed. -/
  | granted {authorization : Option String} {id : UuidText} {role : Role}
      {user : Option AuthenticatedUser} {row : User}
      (hfound : findById s.auth.db id = some row) :
      AccessStep lib s (.updateRole authorization id role) (.found user)
        { s with
          auth := { s.auth with db := { s.auth.db with
            users := Table.update (fun u => u.id = id.value) (setRole role) s.auth.db.users } }
          grants := s.grants ++ [⟨user.map AuthenticatedUser.id, id.value, role⟩] }
        (.returned (setRole role row))
  /-- A change of roles is rejected. -/
  | rejected {authorization : Option String} {id : UuidText} {role : Role} {pc : Pc}
      (e : Failure) : AccessStep lib s (.updateRole authorization id role) pc s (.rejected e)

section Step

variable {lib : Libraries} {s s' : Shared} {c : Choice} {r : Request} {pc pc' : Pc}

/-- **What a committed change of roles leaves behind.** -/
theorem updateRole_commits {id : UuidText} {role : Role} {row : User} {db db' : Tables}
    (h : Commits (updateRole id role) db row db') :
    ∃ user, findById db id = some user ∧ row = setRole role user ∧ db' = { db with
      users := Table.update (fun u => u.id = id.value) (setRole role) db.users } := by
  unfold updateRole Auth.sql at h
  have h := Commits.statement h
  split at h
  · next user hfound =>
    cases h
    exact ⟨user, hfound, rfl, rfl⟩
  · cases h

theorem accessStep_of_eq {q : Shared × Pc} (h : advance lib s c r pc = some q) :
    AccessStep lib s r pc q.1 q.2 := by
  unfold advance at h
  split at h
  · obtain ⟨q', hq', rfl⟩ := Option.map_eq_some_iff.mp h
    exact .auth (accountStep_of_eq hq')
  · split at h
    · next user hauthorize =>
      cases h
      obtain ⟨user, rfl, hguard, hroles⟩ := authorize_eq_ok hauthorize rfl
      have hadmin : user.role ∈ [Role.admin] := hroles (List.cons_ne_nil _ _)
      exact .authorized hguard (List.mem_singleton.mp hadmin)
    · cases h
      exact .rejected _
  · split at h
    · cases h
      exact .rejected _
    · split at h
      · cases h
        exact .found
      · cases h
        exact .rejected _
  · split at h
    · next id role user _ row db htx =>
      cases h
      have hcommits := commits_of_transaction (congrArg Prod.fst htx)
      rw [htx] at hcommits
      obtain ⟨found, hfound, rfl, rfl⟩ := updateRole_commits hcommits
      exact .granted hfound
    · next e db htx =>
      cases h
      have hsame := transaction_error (congrArg Prod.fst htx)
      rw [htx] at hsame
      obtain rfl : db = s.auth.db := hsame
      exact .rejected e
  · cases h

/-- **The ways one step of a call can go.** -/
theorem accessStep_of_machine (h : (machine lib).advance s c r pc = some (s', pc')) :
    AccessStep lib s r pc s' pc' :=
  accessStep_of_eq h

end Step

/-! ### Libraries that sign in the clear -/

/-- The letter of a role. -/
def roleLetter : Role → Char
  | .user => 'u'
  | .manager => 'm'
  | .admin => 'a'

/-- The role of a letter. -/
def roleOfLetter (c : Char) : Option Role :=
  [Role.user, .manager, .admin].find? fun role => roleLetter role = c

/-- A token in the clear: its expiry in strokes, then the role, the id and the email. -/
def writeToken (user : User) (exp : ℕ) : List Char :=
  List.replicate exp '1' ++ roleLetter user.role :: (user.id.text.toString.toList ++
    user.email.toList)

/-- Read a token in the clear. -/
def readToken (cs : List Char) : Option AccessTokenPayload :=
  match cs.dropWhile (· = '1') with
  | [] => none
  | c :: rest => do
    let role ← roleOfLetter c
    let sub ← UuidText.read (String.ofList (rest.take 36))
    return ⟨sub, String.ofList (rest.drop 36), role, "access",
      (cs.takeWhile (· = '1')).length⟩

theorem readToken_writeToken (user : User) (exp : ℕ) :
    readToken (writeToken user exp) =
      some ⟨user.id.text, user.email, user.role, "access", exp⟩ := by
  have hstrokes : ∀ c ∈ List.replicate exp '1', decide (c = '1') = true := by
    intro c hc
    rw [List.eq_of_mem_replicate hc]
    rfl
  have hletter : roleLetter user.role ≠ '1' ∧
      roleOfLetter (roleLetter user.role) = some user.role := by
    cases user.role <;> decide
  have hid : user.id.text.toString.toList.length = 36 := by
    rw [String.length_toList, UuidText.length_toString]
  unfold readToken writeToken
  rw [List.dropWhile_append_of_pos hstrokes, List.takeWhile_append_of_pos hstrokes]
  simp only [List.dropWhile_cons, List.takeWhile_cons, hletter.1, decide_false,
    Bool.false_eq_true, if_false, hletter.2, List.take_left' hid, List.drop_left' hid,
    String.ofList_toList, UuidText.read_toString, Option.bind_eq_bind, Option.bind_some,
    Option.pure_def, List.append_nil, List.length_replicate]

/-- Libraries that sign access tokens in the clear, for two seconds. -/
def sampleLibraries : Libraries where
  toEnv := { sampleEnv with
    accessTtl := 2
    signAccess := fun user now => String.ofList (writeToken user (now / 1000 + 2)) }
  decodeAccess token := readToken token.toList

theorem sampleLibraries_readsSigned : sampleLibraries.ReadsSigned := by
  intro user now
  exact (congrArg readToken (String.toList_ofList ..)).trans (readToken_writeToken user _)

end ScaleForge.Access
