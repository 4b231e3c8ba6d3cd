import ScaleForge.Access

/-!
# Who has given the roles

A role is in an account's row and in every access token signed for it, and a token is
believed until it expires.  So an administrator who has been demoted may still give roles
for a while; but all authority goes back to an account that was an administrator at first,
and a role that stays as it is ages out of the tokens within the life of one.

## Main definitions

* `roleAfter` — the role the grants leave an account with.
* `Made` — an account has had a role at some time.
* `Chained` — every grant is by somebody who had been made an administrator before it.

## Main results

* `authority_of_reachable` — the invariant of the rows, the tokens and the grants.
* `roles_granted` — **roles are given by administrators alone.**
* `roles_expire` — **a change of roles is in force after the life of a token.**
-/

namespace ScaleForge.Access

open Auth Transaction Table Transition

/-! ### Roles after some grants -/

/-- The role of an account at first; one that is registered later has the role `USER`. -/
def initialRole (users : List User) (id : Uuid) : Role :=
  ((Table.find User.id id users).map User.role).getD .user

/-- The role the grants leave an account with. -/
def roleAfter (users : List User) (grants : List Grant) (id : Uuid) : Role :=
  grants.foldl (fun role g => if g.grantee = id then g.role else role) (initialRole users id)

/-- The account has had the role at some time. -/
def Made (users : List User) (grants : List Grant) (id : Uuid) (role : Role) : Prop :=
  initialRole users id = role ∨ ∃ g ∈ grants, g.grantee = id ∧ g.role = role

/-- Every grant is by somebody who had been made an administrator before it. -/
def Chained (users : List User) (grants : List Grant) : Prop :=
  ∀ gs g gs', grants = gs ++ g :: gs' → ∃ a, g.grantor = some a ∧ Made users gs a .admin

section Roles

variable {users : List User} {grants grants' : List Grant} {id : Uuid} {role : Role}

theorem roleAfter_append_singleton (g : Grant) :
    roleAfter users (grants ++ [g]) id =
      if g.grantee = id then g.role else roleAfter users grants id := by
  unfold roleAfter
  rw [List.foldl_append, List.foldl_cons, List.foldl_nil]

theorem initialRole_of_forall_ne (h : ∀ u ∈ users, u.id ≠ id) : initialRole users id = .user := by
  unfold initialRole
  rw [find_eq_none_iff.mpr h]
  rfl

/-- The role an account is left with is one it has been given. -/
theorem made_roleAfter : Made users grants id (roleAfter users grants id) := by
  induction grants using List.reverseRecOn with
  | nil => exact .inl rfl
  | append_singleton grants g ih =>
    rw [roleAfter_append_singleton]
    split
    · next hid => exact .inr ⟨g, List.mem_append_right _ (List.mem_singleton_self _), hid, rfl⟩
    · rcases ih with hinit | ⟨g', hg', h⟩
      · exact .inl hinit
      · exact .inr ⟨g', List.mem_append_left _ hg', h⟩

/-- Grants to others, and of the role it has, leave an account its role. -/
theorem roleAfter_append {gs : List Grant}
    (h : ∀ g ∈ gs, g.grantee = id → g.role = roleAfter users grants id) :
    roleAfter users (grants ++ gs) id = roleAfter users grants id := by
  induction gs using List.reverseRecOn with
  | nil => rw [List.append_nil]
  | append_singleton gs g ih =>
    have hg := h g (List.mem_append_right _ (List.mem_singleton_self _))
    rw [← List.append_assoc, roleAfter_append_singleton]
    split
    · next hid => exact hg hid
    · exact ih fun g' hg' => h g' (List.mem_append_left _ hg')

/-- An account nobody has given a role has the one it had at first. -/
theorem roleAfter_of_forall_ne (h : ∀ g ∈ grants, g.grantee ≠ id) :
    roleAfter users grants id = initialRole users id :=
  @roleAfter_append users [] id grants fun g hg hid => absurd hid (h g hg)

theorem Made.mono (h : Made users grants id role) (hsub : grants ⊆ grants') :
    Made users grants' id role := by
  rcases h with hinit | ⟨g, hg, h⟩
  · exact .inl hinit
  · exact .inr ⟨g, hsub hg, h⟩

theorem Chained.append_singleton (h : Chained users grants) {g : Grant} {a : Uuid}
    (hgrantor : g.grantor = some a) (hmade : Made users grants a .admin) :
    Chained users (grants ++ [g]) := by
  intro gs g' gs' heq
  rcases List.eq_nil_or_concat gs' with rfl | ⟨gs', last, rfl⟩
  · obtain ⟨rfl, hlast⟩ := List.append_inj' heq rfl
    cases hlast
    exact ⟨a, hgrantor, hmade⟩
  · rw [List.concat_eq_append, ← List.cons_append, ← List.append_assoc] at heq
    obtain ⟨hinit, -⟩ := List.append_inj' heq rfl
    exact h gs g' gs' hinit

/-- Without an administrator at first, nobody is ever given a role. -/
theorem Chained.eq_nil (h : Chained users grants) (hnone : ∀ u ∈ users, u.role ≠ .admin) :
    grants = [] := by
  cases grants with
  | nil => rfl
  | cons g gs =>
    obtain ⟨a, -, hmade⟩ := h [] g gs rfl
    rcases hmade with hinit | ⟨g', hg', -⟩
    · unfold initialRole at hinit
      cases hfind : Table.find User.id a users with
      | none =>
        rw [hfind] at hinit
        cases hinit
      | some u =>
        rw [hfind] at hinit
        exact absurd hinit (hnone u (find_mem hfind).1)
    · cases hg'

end Roles

/-! ### Tokens that have been issued -/

section Tokens

variable {lib : Libraries} {s : Shared} {authorization : Option String} {now : ℕ}
  {user : AuthenticatedUser}

/-- **A request that passes has a token that was issued for its user**, not longer ago than
a token lives. -/
theorem issued_of_canActivate (hlib : lib.ReadsSigned) (hknows : s.knows lib authorization = true)
    (hguard : JwtAuthGuard.canActivate lib now false authorization = .ok (some user)) :
    ∃ t ∈ s.issued, user = ⟨t.user.id, t.user.role⟩ ∧
      now / 1000 < t.signedAt / 1000 + lib.accessTtl := by
  obtain ⟨token, payload, hbearer, hdecode, hexp, -, rfl⟩ := canActivate_eq_ok hguard
  unfold Shared.knows at hknows
  rw [hbearer, Option.all_some, hdecode, Option.isNone_some, Bool.false_or, List.any_eq_true]
    at hknows
  obtain ⟨t, ht, htoken⟩ := hknows
  rw [of_decide_eq_true htoken, hlib, Option.some.injEq] at hdecode
  subst hdecode
  exact ⟨t, ht, by rw [Uuid.value_text], hexp⟩

end Tokens

/-! ### The invariant -/

/-- The account of a row is there, and has had the row's role. -/
def Vouched (users : List User) (s : Shared) (user : User) : Prop :=
  Made users s.grants user.id user.role ∧ ∃ u ∈ s.auth.db.users, u.id = user.id

/-- The rows, the tokens and the grants, from given rows. -/
structure Authority (users : List User) (s : Shared) : Prop where
  unique : UniqueOn User.id s.auth.db.users
  kept : ∀ u ∈ users, ∃ v ∈ s.auth.db.users, v.id = u.id
  roles : ∀ u ∈ s.auth.db.users, u.role = roleAfter users s.grants u.id
  grantees : ∀ g ∈ s.grants, ∃ u ∈ s.auth.db.users, u.id = g.grantee
  issued : ∀ t ∈ s.issued, Vouched users s t.user
  chained : Chained users s.grants
  signed : ∀ t ∈ s.issued, t.signedAt ≤ s.auth.clock

/-- What a call has to show for the role it acts in. -/
structure Backed (lib : Libraries) (users : List User) (s : Shared) (r : Request) (pc : Pc) :
    Prop where
  /-- The row it signs has had its role. -/
  account : ∀ pc₀ user, pc = .auth pc₀ → pc₀.account = some user → Vouched users s user
  /-- The token it presents has been issued. -/
  knows : ∀ authorization id role, r = .updateRole authorization id role →
    s.knows lib authorization = true
  /-- Whoever the guards let pass has been made an administrator. -/
  admin : ∀ user, pc = .authorized user ∨ pc = .found user →
    ∃ a : AuthenticatedUser, user = some a ∧ Made users s.grants a.id .admin

/-- The accounts, the tokens and the grants are at least as many. -/
structure Grows (s s' : Shared) : Prop where
  ids : ∀ id, (∃ u ∈ s.auth.db.users, u.id = id) → ∃ u ∈ s'.auth.db.users, u.id = id
  issued : s.issued ⊆ s'.issued
  grants : s.grants <+: s'.grants

section Step

variable {lib : Libraries} {users : List User} {s s' : Shared} {r : Request} {pc pc' : Pc}

theorem Shared.knows_mono {authorization : Option String} (hsub : s.issued ⊆ s'.issued)
    (h : s.knows lib authorization = true) : s'.knows lib authorization = true := by
  unfold Shared.knows at h ⊢
  cases hbearer : bearer authorization with
  | none => rfl
  | some token =>
    rw [hbearer, Option.all_some, Bool.or_eq_true, List.any_eq_true] at h
    rw [Option.all_some, Bool.or_eq_true, List.any_eq_true]
    rcases h with hforged | ⟨t, ht, htoken⟩
    · exact .inl hforged
    · exact .inr ⟨t, hsub ht, htoken⟩

theorem Vouched.mono {user : User} (h : Vouched users s user) (hgrows : Grows s s') :
    Vouched users s' user :=
  ⟨h.1.mono hgrows.grants.subset, hgrows.ids _ h.2⟩

theorem Backed.mono (h : Backed lib users s r pc) (hgrows : Grows s s') :
    Backed lib users s' r pc := by
  refine ⟨?_, ?_, ?_⟩
  · intro pc₀ user hpc haccount
    exact (h.account pc₀ user hpc haccount).mono hgrows
  · intro authorization id role hr
    exact Shared.knows_mono hgrows.issued (h.knows authorization id role hr)
  · intro user hpc
    obtain ⟨a, ha, hmade⟩ := h.admin user hpc
    exact ⟨a, ha, hmade.mono hgrows.grants.subset⟩

theorem Grows.refl (s : Shared) : Grows s s :=
  ⟨fun _ h => h, List.Subset.refl _, List.prefix_refl _⟩

/-- A change of roles keeps the ids. -/
theorem id_of_setRole {id k : Uuid} {role : Role} {rows : List User} (h : ∃ u ∈ rows, u.id = k) :
    ∃ u ∈ Table.update (fun u => u.id = id) (setRole role) rows, u.id = k := by
  obtain ⟨u, hu, hid⟩ := h
  refine ⟨_, mem_update.mpr ⟨u, hu, rfl⟩, ?_⟩
  split
  · exact hid
  · exact hid

theorem AccessStep.grows (h : AccessStep lib s r pc s' pc') : Grows s s' := by
  cases h with
  | auth h =>
    refine ⟨?_, List.subset_append_left _ _, List.prefix_refl _⟩
    rintro id ⟨u, hu, hid⟩
    obtain ⟨u', hu', hsame⟩ := h.extends.has u ⟨u, hu, .refl u⟩
    exact ⟨u', hu', hsame.id.trans hid⟩
  | authorized => exact .refl s
  | found => exact .refl s
  | granted => exact ⟨fun _ => id_of_setRole, List.Subset.refl _, List.prefix_append _ _⟩
  | rejected => exact .refl s

/-- A row's role is one its account has had. -/
theorem Authority.vouched (hI : Authority users s) {user : User}
    (h : user ∈ s.auth.db.users) : Vouched users s user := by
  refine ⟨?_, user, h, rfl⟩
  rw [hI.roles user h]
  exact made_roleAfter

/-- A new account has not had another role. -/
theorem Authority.role_of_new (hI : Authority users s) {id : Uuid}
    (hid : ∀ u ∈ s.auth.db.users, u.id ≠ id) :
    initialRole users id = .user ∧ roleAfter users s.grants id = .user := by
  have hinitial : initialRole users id = .user := by
    refine initialRole_of_forall_ne fun u hu hsame => ?_
    obtain ⟨v, hv, hsame'⟩ := hI.kept u hu
    exact hid v hv (hsame'.trans hsame)
  refine ⟨hinitial, ?_⟩
  rw [roleAfter_of_forall_ne, hinitial]
  intro g hg hsame
  obtain ⟨v, hv, hsame'⟩ := hI.grantees g hg
  exact hid v hv (hsame'.trans hsame)

theorem answered_cases {now : ℕ} {pc : Auth.Pc} {t : Issued} (h : t ∈ answered now pc) :
    t.signedAt = now ∧ pc.account = some t.user := by
  unfold answered at h
  split at h
  · rw [List.mem_singleton.mp h]
    exact ⟨rfl, rfl⟩
  · cases h

/-- A call of `AuthService` keeps the rows, but for one that is new; and the row it comes to
has a role its account has had. -/
theorem Authority.served (hI : Authority users s) {r : Auth.Request} {pc pc' : Auth.Pc}
    {a : Auth.Shared} (h : AccountStep lib.toEnv s.auth r pc a pc')
    (hpc : ∀ user, pc.account = some user → Vouched users s user) :
    let s' : Shared := { s with auth := a, issued := s.issued ++ answered s.auth.clock pc' }
    Authority users s' ∧ ∀ user, pc'.account = some user → Vouched users s' user := by
  intro s'
  have hgrows : Grows s s' := (AccessStep.auth h).grows
  have haccount : ∀ user, pc'.account = some user → Vouched users s' user := by
    intro user hu
    cases h with
    | kept _ hnone =>
      rw [hnone] at hu
      cases hu
    | registered c hid =>
      cases hu
      exact ⟨.inl (hI.role_of_new hid).1, _, List.mem_append_right _ (List.mem_singleton_self _),
        rfl⟩
    | loggedIn hmem =>
      cases hu
      exact (hI.vouched hmem).mono hgrows
    | refreshing _ hmem =>
      cases hu
      exact (hI.vouched hmem).mono hgrows
    | issued _ hold =>
      cases hu
      exact (hpc _ (Pc.account_of_signing hold)).mono hgrows
  refine ⟨⟨?_, ?_, ?_, ?_, ?_, hI.chained, ?_⟩, haccount⟩
  · exact h.extends.unique hI.unique
  · exact fun u hu => hgrows.ids _ (hI.kept u hu)
  · have hsame : a.db.users = s.auth.db.users →
        ∀ u ∈ a.db.users, u.role = roleAfter users s.grants u.id := fun heq => heq ▸ hI.roles
    cases h with
    | kept husers => exact hsame husers
    | registered c hid =>
      intro u hu
      rcases List.mem_append.mp hu with hu | hu
      · exact hI.roles u hu
      · -- nobody has given the new account a role
        rw [List.mem_singleton.mp hu]
        exact (hI.role_of_new hid).2.symm
    | loggedIn => exact hsame rfl
    | refreshing => exact hsame rfl
    | issued husers => exact hsame husers
  · exact fun g hg => hgrows.ids _ (hI.grantees g hg)
  · intro t ht
    rcases List.mem_append.mp ht with ht | ht
    · exact (hI.issued t ht).mono hgrows
    · exact haccount _ (answered_cases ht).2
  · intro t ht
    change t.signedAt ≤ a.clock
    rw [h.clock]
    rcases List.mem_append.mp ht with ht | ht
    · exact hI.signed t ht
    · exact (answered_cases ht).1.le

/-- A change of roles by an administrator. -/
theorem Authority.granted (hI : Authority users s) {a id : Uuid} {role : Role}
    (hadmin : Made users s.grants a .admin) (hid : ∃ u ∈ s.auth.db.users, u.id = id) :
    Authority users { s with
      auth := { s.auth with db := { s.auth.db with
        users := Table.update (fun u => u.id = id) (setRole role) s.auth.db.users } }
      grants := s.grants ++ [⟨some a, id, role⟩] } := by
  refine ⟨uniqueOn_update hI.unique fun _ _ _ => rfl, ?_, ?_, ?_, ?_, ?_, hI.signed⟩
  · exact fun u hu => id_of_setRole (hI.kept u hu)
  · intro u' hu'
    obtain ⟨u, hu, rfl⟩ := mem_update.mp hu'
    rw [roleAfter_append_singleton]
    by_cases hu' : u.id = id
    · simp [hu', setRole]
    · simp only [hu', decide_false, Bool.false_eq_true, if_false, Ne.symm hu']
      exact hI.roles u hu
  · intro g hg
    rcases List.mem_append.mp hg with hg | hg
    · exact id_of_setRole (hI.grantees g hg)
    · rw [List.mem_singleton.mp hg]
      exact id_of_setRole hid
  · intro t ht
    obtain ⟨hmade, hthere⟩ := hI.issued t ht
    exact ⟨hmade.mono (List.subset_append_left _ _), id_of_setRole hthere⟩
  · exact hI.chained.append_singleton rfl hadmin

/-- **One step of a call.** -/
theorem Authority.advance (hlib : lib.ReadsSigned) (hI : Authority users s)
    (hc : Backed lib users s r pc) (h : AccessStep lib s r pc s' pc') :
    Authority users s' ∧ Backed lib users s' r pc' := by
  have hgrows := h.grows
  cases h with
  | @auth r₀ pc₀ pc₀' a h =>
    obtain ⟨hI', haccount⟩ := hI.served h fun user hu => hc.account pc₀ user rfl hu
    refine ⟨hI', ?_, ?_, ?_⟩
    · intro pc₁ user hpc hu
      cases hpc
      exact haccount user hu
    · intro authorization id role hr
      cases hr
    · rintro user (hpc | hpc) <;> cases hpc
  | @authorized authorization id role user hguard hadmin =>
    refine ⟨hI, ?_, (hc.mono hgrows).knows, ?_⟩
    · intro pc₁ user hpc
      cases hpc
    · rintro user' (hpc | hpc)
      · cases hpc
        obtain ⟨t, ht, rfl, -⟩ :=
          issued_of_canActivate hlib (hc.knows authorization id role rfl) hguard
        have hmade := (hI.issued t ht).1
        rw [show t.user.role = .admin from hadmin] at hmade
        exact ⟨_, rfl, hmade⟩
      · cases hpc
  | @found authorization id role user =>
    refine ⟨hI, ?_, (hc.mono hgrows).knows, ?_⟩
    · intro pc₁ user hpc
      cases hpc
    · rintro user' (hpc | hpc)
      · cases hpc
      · cases hpc
        exact hc.admin user (.inl rfl)
  | @granted authorization id role user row hfound =>
    obtain ⟨a, rfl, hmade⟩ := hc.admin user (.inr rfl)
    refine ⟨hI.granted hmade ⟨row, find_mem hfound⟩, ?_, (hc.mono hgrows).knows, ?_⟩
    · intro pc₁ user hpc
      cases hpc
    · rintro user' (hpc | hpc) <;> cases hpc
  | rejected e =>
    refine ⟨hI, ?_, (hc.mono hgrows).knows, ?_⟩
    · intro pc₁ user hpc
      cases hpc
    · rintro user' (hpc | hpc) <;> cases hpc

/-- Time passes. -/
theorem Authority.environment (hI : Authority users s) {ms : ℕ}
    (h : environment s ms = some s') : Authority users s' ∧ Grows s s' := by
  cases h
  refine ⟨⟨hI.unique, hI.kept, hI.roles, hI.grantees, hI.issued, hI.chained, ?_⟩,
    fun _ h => h, List.Subset.refl _, List.prefix_refl _⟩
  exact fun t ht => (hI.signed t ht).trans (Nat.le_add_right _ _)

end Step

section Run

variable {lib : Libraries} {s₀ : Shared} {w : AccessState}

/-- The runs in which nobody forges a token. -/
abbrev unforgedSystem (lib : Libraries) (s₀ : Shared) : Sys AccessState AccessAction :=
  (accessSystem lib s₀).restrict (unforged lib)

theorem Shared.Fresh.authority (h : s₀.Fresh) : Authority s₀.auth.db.users s₀ := by
  refine ⟨h.users, fun u hu => ⟨u, hu, rfl⟩, ?_, ?_, ?_, ?_, ?_⟩
  · intro u hu
    rw [h.grants]
    unfold roleAfter initialRole
    rw [(find_eq_some_iff h.users).mpr ⟨hu, rfl⟩]
    rfl
  · rw [h.grants]
    intro g hg
    cases hg
  · rw [h.issued]
    intro t ht
    cases ht
  · rw [h.grants]
    intro gs g gs' heq
    exact absurd heq.symm (List.append_ne_nil_of_right_ne_nil _ (List.cons_ne_nil _ _))
  · rw [h.issued]
    intro t ht
    cases ht

/-- **The invariant**: of the rows, the tokens and the grants, and of every call. -/
theorem authority_of_reachable (hlib : lib.ReadsSigned) (h0 : s₀.Fresh)
    (hw : (unforgedSystem lib s₀).Reachable w) :
    Authority s₀.auth.db.users w.shared ∧
      ∀ i r pc, w.calls i = some ⟨r, pc⟩ → Backed lib s₀.auth.db.users w.shared r pc := by
  refine hw.invariant (I := fun w => Authority s₀.auth.db.users w.shared ∧
    ∀ i r pc, w.calls i = some ⟨r, pc⟩ → Backed lib s₀.auth.db.users w.shared r pc) ?_ ?_
  · rintro w ⟨rfl, hnone⟩
    refine ⟨h0.authority, ?_⟩
    intro i r pc hcall
    rw [hnone i] at hcall
    cases hcall
  · rintro w a w' - ⟨hI, hJ⟩ h
    obtain ⟨hguard, h⟩ := Sys.restrict_step_iff.mp h
    rcases Calls.step_cases h with ⟨ms, d, rfl, he, rfl⟩ | ⟨j, r, rfl, -, rfl⟩ |
      ⟨j, c, r, pc, d, pc', rfl, hcall, hadv, rfl⟩
    · obtain ⟨hI', hgrows⟩ := hI.environment he
      exact ⟨hI', fun i r pc hcall => (hJ i r pc hcall).mono hgrows⟩
    · refine ⟨hI, ?_⟩
      intro i r' pc hcall
      rcases Calls.move_calls_cases hcall with ⟨rfl, rfl, rfl⟩ | ⟨-, hsame⟩
      · -- the call that arrives presents a token that has been issued
        refine ⟨?_, ?_, ?_⟩
        · intro pc₀ user hpc haccount
          cases hpc
          cases haccount
        · intro authorization id role hr
          subst hr
          exact hguard
        · rintro user (hpc | hpc) <;> cases hpc
      · exact hJ i r' pc hsame
    · have hstep := accessStep_of_machine hadv
      obtain ⟨hI', hJ'⟩ := hI.advance hlib (hJ j r pc hcall) hstep
      refine ⟨hI', ?_⟩
      intro i r' pc₁ hcall'
      rcases Calls.move_calls_cases hcall' with ⟨-, rfl, rfl⟩ | ⟨-, hsame⟩
      · exact hJ'
      · exact (hJ i r' pc₁ hsame).mono hstep.grows

/-- **Roles are given by administrators alone.**  In every run in which nobody forges a
token, the role of an account is the last one it has been given, or the one it had at
first; whoever has given one had been made an administrator before, at first or by such a
grant; and without an administrator at first no role ever changes. -/
theorem roles_granted (hlib : lib.ReadsSigned) (h0 : s₀.Fresh)
    (hw : (unforgedSystem lib s₀).Reachable w) :
    (∀ u ∈ w.shared.auth.db.users, u.role = roleAfter s₀.auth.db.users w.shared.grants u.id) ∧
    Chained s₀.auth.db.users w.shared.grants ∧
    ((∀ u ∈ s₀.auth.db.users, u.role ≠ .admin) → w.shared.grants = []) := by
  obtain ⟨hI, -⟩ := authority_of_reachable hlib h0 hw
  exact ⟨hI.roles, hI.chained, hI.chained.eq_nil⟩

end Run

/-! ### A manager for a while -/

/-- The administrator of the sample runs. -/
def sampleRoot : User := ⟨Uuid.repeated 9, "root@x", "a long password", "Root", .admin, true⟩

/-- And somebody who is given a role. -/
def sampleGrace : User := ⟨Uuid.repeated 8, "grace@x", "another password", "Grace", .user, true⟩

/-- The two accounts, and no calls. -/
def sampleAccess : AccessState :=
  ⟨⟨⟨0, [sampleRoot, sampleGrace], []⟩, [], []⟩, fun _ => none⟩

/-- The header of a request by the administrator. -/
def sampleHeader : Option String := some ("Bearer " ++ sampleLibraries.signAccess sampleRoot 0)

/-- The administrator makes Grace a manager, she logs in, and she is made a user again. -/
def managerForAWhile : List AccessAction :=
  [.request 0 (.auth (.login ⟨"root@x", "a long password"⟩)), .advance 0 (sampleChoice 1),
    .advance 0 (sampleChoice 1),
    .request 1 (.updateRole sampleHeader sampleGrace.id.text .manager),
    .advance 1 (sampleChoice 1), .advance 1 (sampleChoice 1), .advance 1 (sampleChoice 1),
    .request 2 (.auth (.login ⟨"grace@x", "another password"⟩)), .advance 2 (sampleChoice 2),
    .advance 2 (sampleChoice 2),
    .request 3 (.updateRole sampleHeader sampleGrace.id.text .user),
    .advance 3 (sampleChoice 1), .advance 3 (sampleChoice 1), .advance 3 (sampleChoice 1)]

theorem sampleAccess_fresh : sampleAccess.shared.Fresh := ⟨by unfold UniqueOn; decide, rfl, rfl⟩

theorem sampleAccess_init :
    (unforgedSystem sampleLibraries sampleAccess.shared).init sampleAccess := ⟨rfl, fun _ => rfl⟩

/-- Both grants are by the administrator, and Grace is a user in the end. -/
theorem sample_roles_granted : ∃ w,
    (unforgedSystem sampleLibraries sampleAccess.shared).exec sampleAccess managerForAWhile =
      some w ∧
    w.shared.grants = [⟨some (Uuid.repeated 9), Uuid.repeated 8, .manager⟩,
      ⟨some (Uuid.repeated 9), Uuid.repeated 8, .user⟩] ∧
    (∀ u ∈ w.shared.auth.db.users, u.role = roleAfter [sampleRoot, sampleGrace]
      w.shared.grants u.id) ∧
    Chained [sampleRoot, sampleGrace] w.shared.grants := by
  have hrun : ((unforgedSystem sampleLibraries sampleAccess.shared).exec sampleAccess
      managerForAWhile).map (fun w => w.shared.grants) =
        some [⟨some (Uuid.repeated 9), Uuid.repeated 8, .manager⟩,
          ⟨some (Uuid.repeated 9), Uuid.repeated 8, .user⟩] := by decide +kernel
  obtain ⟨w, hw, hgrants⟩ := Option.map_eq_some_iff.mp hrun
  obtain ⟨hroles, hchained, -⟩ := roles_granted sampleLibraries_readsSigned sampleAccess_fresh
    ((Sys.Reachable.init sampleAccess_init).exec hw)
  exact ⟨w, hw, hgrants, hroles, hchained⟩

section Run

variable {lib : Libraries} {s₀ : Shared} {w : AccessState}

/-! ### Tokens age out -/

/-- If the call is about to sign tokens for the account, then in the role. -/
def Signs (id : Uuid) (role : Role) (pc : Pc) : Prop :=
  ∀ pc₀ user, pc = .auth pc₀ → pc₀.signing = some user → user.id = id → user.role = role

/-- A call that comes to a row of the account comes to its role of the moment, and so does the
token it answers with. -/
theorem AccessStep.signs {users : List User} {s s' : Shared} {r : Request} {pc pc' : Pc}
    {id : Uuid} {role : Role} (hI : Authority users s) (hrole : roleAfter users s.grants id = role)
    (hpc : Signs id role pc) (h : AccessStep lib s r pc s' pc') :
    Signs id role pc' ∧ ∀ t ∈ s'.issued, t ∈ s.issued ∨ (t.user.id = id → t.user.role = role) := by
  have hmem : ∀ u ∈ s.auth.db.users, u.id = id → u.role = role := by
    intro u hu hid
    rw [hI.roles u hu, hid, hrole]
  cases h with
  | @auth r₀ pc₀ pc₀' a h =>
    have haccount : ∀ user, pc₀'.account = some user → user.id = id → user.role = role := by
      intro user hu hid
      cases h with
      | kept _ hnone =>
        rw [hnone] at hu
        cases hu
      | registered c hnew =>
        cases hu
        rw [← hrole, ← hid, (hI.role_of_new hnew).2]
        rfl
      | loggedIn hu' =>
        cases hu
        exact hmem _ hu' hid
      | refreshing _ hu' =>
        cases hu
        exact hmem _ hu' hid
      | issued _ hold =>
        cases hu
        exact hpc pc₀ _ rfl hold hid
    refine ⟨?_, ?_⟩
    · intro pc₁ user hpc₁ hu hid
      cases hpc₁
      exact haccount user (Pc.account_of_signing hu) hid
    · intro t ht
      rcases List.mem_append.mp ht with ht | ht
      · exact .inl ht
      · unfold answered at ht
        split at ht
        · rw [List.mem_singleton.mp ht]
          exact .inr (haccount _ rfl)
        · cases ht
  | authorized => exact ⟨fun pc₁ user hpc₁ => (by cases hpc₁), fun t ht => .inl ht⟩
  | found => exact ⟨fun pc₁ user hpc₁ => (by cases hpc₁), fun t ht => .inl ht⟩
  | granted => exact ⟨fun pc₁ user hpc₁ => (by cases hpc₁), fun t ht => .inl ht⟩
  | rejected => exact ⟨fun pc₁ user hpc₁ => (by cases hpc₁), fun t ht => .inl ht⟩

/-- Since a moment at which an account had a role, and as long as nobody gives it another:
calls sign it with the role, and tokens with another are from before. -/
structure Fading (id : Uuid) (role : Role) (since : ℕ) (w : AccessState) : Prop where
  signs : ∀ i r pc, w.calls i = some ⟨r, pc⟩ → Signs id role pc
  issued : ∀ t ∈ w.shared.issued, t.user.id = id → t.user.role = role ∨ t.signedAt ≤ since

theorem Fading.step {users : List User} {w' : AccessState} {a : AccessAction} {id : Uuid}
    {role : Role} {since : ℕ} (hI : Authority users w.shared)
    (hrole : roleAfter users w.shared.grants id = role) (hf : Fading id role since w)
    (h : Calls.step (machine lib) environment w a = some w') : Fading id role since w' := by
  rcases Calls.step_cases h with ⟨ms, d, rfl, he, rfl⟩ | ⟨j, r, rfl, -, rfl⟩ |
    ⟨j, c, r, pc, d, pc', rfl, hcall, hadv, rfl⟩
  · cases he
    exact ⟨hf.signs, hf.issued⟩
  · refine ⟨?_, hf.issued⟩
    intro i r' pc hcall
    rcases Calls.move_calls_cases hcall with ⟨rfl, rfl, rfl⟩ | ⟨-, hsame⟩
    · intro pc₀ user hpc haccount
      cases hpc
      cases haccount
    · exact hf.signs i r' pc hsame
  · obtain ⟨hsigns, hissued⟩ :=
      (accessStep_of_machine hadv).signs hI hrole (hf.signs j r pc hcall)
    refine ⟨?_, ?_⟩
    · intro i r' pc₁ hcall'
      rcases Calls.move_calls_cases hcall' with ⟨-, rfl, rfl⟩ | ⟨-, hsame⟩
      · exact hsigns
      · exact hf.signs i r' pc₁ hsame
    · intro t ht hid
      rcases hissued t ht with hold | hnew
      · exact hf.issued t hold hid
      · exact .inl (hnew hid)

/-- The grants of a run are added to those before it. -/
theorem grants_of_step {w' : AccessState} {a : AccessAction}
    (h : Calls.step (machine lib) environment w a = some w') :
    w.shared.grants <+: w'.shared.grants := by
  rcases Calls.shared_of_step h with ⟨ms, he⟩ | hsame | ⟨c, r, pc, pc', hadv⟩
  · rw [← Option.some.inj he]
  · rw [hsame]
  · exact (accessStep_of_machine hadv).grows.grants

/-- **What has faded stays so**: over a run that gives the account no other role. -/
theorem fading_of_exec (hlib : lib.ReadsSigned) (h0 : s₀.Fresh) {v : AccessState}
    {as : List AccessAction} (hv : (unforgedSystem lib s₀).Reachable v)
    (h : (unforgedSystem lib s₀).exec v as = some w) {id : Uuid} {role : Role} {since : ℕ}
    (hrole : roleAfter s₀.auth.db.users v.shared.grants id = role)
    (hsigns : ∀ i r pc, v.calls i = some ⟨r, pc⟩ → Signs id role pc)
    (hissued : ∀ t ∈ v.shared.issued, t.user.id = id → t.user.role = role ∨ t.signedAt ≤ since) :
    ∃ gs, w.shared.grants = v.shared.grants ++ gs ∧
      ((∀ g ∈ gs, g.grantee = id → g.role = role) → Fading id role since w) := by
  refine Sys.exec_stable (S := unforgedSystem lib s₀) (I := fun t => ∃ gs,
    t.shared.grants = v.shared.grants ++ gs ∧
      ((∀ g ∈ gs, g.grantee = id → g.role = role) → Fading id role since t)) ?_ hv
    ⟨[], (List.append_nil _).symm, fun _ => ⟨hsigns, hissued⟩⟩ h
  rintro t a t' ht ⟨gs, hgs, hf⟩ hstep
  have hstep := (Sys.restrict_step_iff.mp hstep).2
  obtain ⟨more, hmore⟩ := grants_of_step hstep
  refine ⟨gs ++ more, by rw [← hmore, hgs, List.append_assoc], fun hsame => ?_⟩
  have hsame' : ∀ g ∈ gs, g.grantee = id → g.role = role := fun g hg =>
    hsame g (List.mem_append_left _ hg)
  refine (hf hsame').step (authority_of_reachable hlib h0 ht).1 ?_ hstep
  rw [hgs, ← hrole]
  exact roleAfter_append fun g hg hid => (hsame' g hg hid).trans hrole.symm

/-- **A change of roles is in force after the life of a token.**  Say an account has a role,
the calls that are about to sign it have read that role, and nobody gives it another from then
on.  Once a token's life has passed, every request that the guard lets pass for this account
acts in that role, and the row has it still. -/
theorem roles_expire (hlib : lib.ReadsSigned) (h0 : s₀.Fresh) {v : AccessState}
    {as : List AccessAction} (hv : (unforgedSystem lib s₀).Reachable v)
    (h : (unforgedSystem lib s₀).exec v as = some w) {u : User}
    (hu : u ∈ v.shared.auth.db.users)
    (hsigns : ∀ i r pc, v.calls i = some ⟨r, pc⟩ → Signs u.id u.role pc)
    (hgrants : ∀ gs, w.shared.grants = v.shared.grants ++ gs →
      ∀ g ∈ gs, g.grantee = u.id → g.role = u.role)
    (hclock : v.shared.auth.clock + lib.accessTtl * 1000 ≤ w.shared.auth.clock) :
    (∀ u' ∈ w.shared.auth.db.users, u'.id = u.id → u'.role = u.role) ∧
    ∀ authorization user, w.shared.knows lib authorization = true →
      JwtAuthGuard.canActivate lib w.shared.auth.clock false authorization = .ok (some user) →
      user.id = u.id → user.role = u.role := by
  have hIv := (authority_of_reachable hlib h0 hv).1
  have hIw := (authority_of_reachable hlib h0 (hv.exec h)).1
  have hrole : u.role = roleAfter s₀.auth.db.users v.shared.grants u.id := hIv.roles u hu
  obtain ⟨gs, hgs, hf⟩ := fading_of_exec hlib h0 hv h hrole.symm
    hsigns fun t ht _ => .inr (hIv.signed t ht)
  have hsame := hgrants gs hgs
  refine ⟨?_, ?_⟩
  · intro u' hu' hid
    rw [hIw.roles u' hu', hid, hgs, hrole]
    exact roleAfter_append fun g hg hid => (hsame g hg hid).trans hrole
  · intro authorization user hknows hguard hid
    obtain ⟨t, ht, rfl, hlives⟩ := issued_of_canActivate hlib hknows hguard
    rcases (hf hsame).issued t ht hid with hnew | hold
    · exact hnew
    · -- the token is from before, and so it has expired
      have hpast : v.shared.auth.clock / 1000 + lib.accessTtl ≤ w.shared.auth.clock / 1000 := by
        rw [← Nat.add_mul_div_right _ _ (by norm_num : 0 < 1000)]
        exact Nat.div_le_div_right hclock
      have hsigned : t.signedAt / 1000 ≤ v.shared.auth.clock / 1000 := Nat.div_le_div_right hold
      omega

end Run

/-- The call is not about to sign. -/
def Pc.idle : Pc → Bool
  | .auth pc => pc.signing.isNone
  | _ => true

/-- Two seconds later the token Grace got as a manager is of no use. -/
theorem sample_roles_expire : ∃ v w,
    (unforgedSystem sampleLibraries sampleAccess.shared).exec sampleAccess managerForAWhile =
      some v ∧
    (unforgedSystem sampleLibraries sampleAccess.shared).exec v [.environment 2000] = some w ∧
    ∀ authorization user, w.shared.knows sampleLibraries authorization = true →
      JwtAuthGuard.canActivate sampleLibraries w.shared.auth.clock false authorization =
        .ok (some user) → user.id = sampleGrace.id → user.role = .user := by
  have hrun : ((unforgedSystem sampleLibraries sampleAccess.shared).exec sampleAccess
      managerForAWhile).map (fun v => (v.shared.auth.db.users, [0, 1, 2, 3].all fun i =>
        (v.calls i).all fun call => call.pc.idle)) =
          some ([sampleRoot, sampleGrace], true) := by decide +kernel
  obtain ⟨v, hv, hstate⟩ := Option.map_eq_some_iff.mp hrun
  rw [Prod.mk.injEq, List.all_eq_true] at hstate
  obtain ⟨husers, hidle⟩ := hstate
  have hgrace : sampleGrace ∈ v.shared.auth.db.users := by
    rw [husers]
    exact List.mem_cons_of_mem _ (List.mem_singleton_self _)
  obtain ⟨w, hw, hkept, hclock⟩ : ∃ w, (unforgedSystem sampleLibraries
      sampleAccess.shared).exec v [.environment 2000] = some w ∧
      w.shared.grants = v.shared.grants ∧
      w.shared.auth.clock = v.shared.auth.clock + 2000 := ⟨_, rfl, rfl, rfl⟩
  refine ⟨v, w, hv, hw, ?_⟩
  refine (roles_expire sampleLibraries_readsSigned sampleAccess_fresh
    ((Sys.Reachable.init sampleAccess_init).exec hv) hw hgrace ?_ ?_ hclock.ge).2
  · -- the calls that have come are none about to sign
    intro i r pc hcall pc₀ user hpc hsigning
    have hi : i ∈ [0, 1, 2, 3] := by
      obtain ⟨r', hmem⟩ := Calls.request_mem (Sys.exec_of_restrict hv) rfl
        (by rw [hcall]; exact Option.some_ne_none _)
      simp only [managerForAWhile, List.mem_cons, Calls.Action.request.injEq, reduceCtorEq,
        false_or, or_false, List.not_mem_nil] at hmem
      rcases hmem with ⟨rfl, -⟩ | ⟨rfl, -⟩ | ⟨rfl, -⟩ | ⟨rfl, -⟩ <;> decide
    have hidle := hidle i hi
    rw [hcall, Option.all_some, hpc] at hidle
    have hnone : pc₀.signing = none := Option.isNone_iff_eq_none.mp hidle
    rw [hnone] at hsigning
    cases hsigning
  · intro gs hgs g hg _
    have hnil : gs = [] := List.append_right_eq_self.mp (hgs.symm.trans hkept)
    rw [hnil] at hg
    cases hg

end ScaleForge.Access
