import Mathlib.Data.Nat.Notation

/-!
# Interactive transactions

A transaction body is a sequence of statements over a working copy of the
database.  Each statement may fail on its own account, and a *fuse* makes the
statement it points at fail for a reason outside the program: a lost
connection, a timeout, a serialization conflict.  `transaction` commits the
working copy when the body runs through and drops it otherwise, which is the
whole of what the programs above assume about atomicity.

## Main definitions

* `Tx` — transaction bodies.
* `statement` — one statement.
* `transaction` — run a body, then commit or roll back.
* `Commits body db a db'` — some run of the body from `db` returns `a` and
  leaves the working copy `db'`.
* `Fails body e` — some run of the body ends with the error `e`.

## Main results

* `transaction_error` — **a transaction that fails changes nothing.**
* `commits_of_transaction`, `Commits.bind`, `Commits.statement` — taking a
  committed transaction apart, statement by statement.
* `fails_of_transaction`, `Fails.bind`, `Fails.statement` — and one that fails.
-/

namespace Transaction

/-- The working copy of a transaction, and how many statements may still run
before one fails for a reason outside the program (`none`: never). -/
structure Work (δ : Type) where
  /-- The rows as this transaction sees them. -/
  db : δ
  /-- Statements left before the fault. -/
  fuse : Option ℕ

/-- A transaction body. -/
abbrev Tx (δ ε : Type) := StateT (Work δ) (Except ε)

variable {δ ε α β : Type}

/-- One statement of a body; `fault` is what a blown fuse surfaces as. -/
def statement (fault : ε) (f : δ → Except ε (α × δ)) : Tx δ ε α := fun w =>
  match w.fuse with
  | some 0 => .error fault
  | fuse =>
    match f w.db with
    | .ok (a, db) => .ok (a, ⟨db, fuse.map Nat.pred⟩)
    | .error e => .error e

/-- Run a body on the committed rows: commit the working copy or roll back. -/
def transaction (body : Tx δ ε α) (fuse : Option ℕ) (db : δ) : Except ε α × δ :=
  match body ⟨db, fuse⟩ with
  | .ok (a, w) => (.ok a, w.db)
  | .error e => (.error e, db)

/-! ### Taking computations apart -/

theorem bind_eq_ok_iff {x : Except ε α} {f : α → Except ε β} {b : β} :
    (x >>= f) = .ok b ↔ ∃ a, x = .ok a ∧ f a = .ok b := by
  cases x with
  | error e => simp [bind, Except.bind]
  | ok a => simp [bind, Except.bind]

theorem error_of_bind {x : Except ε α} {f : α → Except ε β} {e : ε}
    (h : (x >>= f) = .error e) : x = .error e ∨ ∃ a, x = .ok a ∧ f a = .error e := by
  cases x with
  | error e' =>
    cases h
    exact Or.inl rfl
  | ok a => exact Or.inr ⟨a, rfl, h⟩

/-- A body goes on from the working copy its first part leaves. -/
theorem bind_apply (x : Tx δ ε α) (f : α → Tx δ ε β) (w : Work δ) :
    (x >>= f) w = x w >>= fun p => f p.1 p.2 := rfl

/-- **A transaction that fails changes nothing.** -/
theorem transaction_error {body : Tx δ ε α} {fuse : Option ℕ} {db : δ} {e : ε}
    (h : (transaction body fuse db).1 = .error e) : (transaction body fuse db).2 = db := by
  unfold transaction at h ⊢
  split
  · next hb => rw [hb] at h; cases h
  · rfl

/-- Some run of the body from `db` returns `a` with working copy `db'`. -/
def Commits (body : Tx δ ε α) (db : δ) (a : α) (db' : δ) : Prop :=
  ∃ fuse fuse', body ⟨db, fuse⟩ = .ok (a, ⟨db', fuse'⟩)

theorem commits_of_transaction {body : Tx δ ε α} {fuse : Option ℕ} {db : δ} {a : α}
    (h : (transaction body fuse db).1 = .ok a) :
    Commits body db a (transaction body fuse db).2 := by
  unfold transaction at h ⊢
  split
  · next b w hb =>
    rw [hb] at h
    cases h
    exact ⟨fuse, w.fuse, hb⟩
  · next hb => rw [hb] at h; cases h

/-- A body followed by another runs the one and then the other. -/
theorem Commits.bind {x : Tx δ ε α} {f : α → Tx δ ε β} {db db'' : δ} {b : β}
    (h : Commits (x >>= f) db b db'') :
    ∃ a db', Commits x db a db' ∧ Commits (f a) db' b db'' := by
  obtain ⟨fuse, fuse'', h⟩ := h
  rw [bind_apply] at h
  obtain ⟨p, hp, hrest⟩ := bind_eq_ok_iff.mp h
  exact ⟨p.1, p.2.db, ⟨fuse, p.2.fuse, hp⟩, ⟨p.2.fuse, fuse'', hrest⟩⟩

theorem Commits.pure {a b : α} {db db' : δ} (h : Commits (Pure.pure a : Tx δ ε α) db b db') :
    b = a ∧ db' = db := by
  obtain ⟨fuse, fuse', h⟩ := h
  have hpair : (a, (⟨db, fuse⟩ : Work δ)) = (b, ⟨db', fuse'⟩) := Except.ok.inj h
  rw [Prod.mk.injEq, Work.mk.injEq] at hpair
  exact ⟨hpair.1.symm, hpair.2.1.symm⟩

theorem Commits.throw {e : ε} {db db' : δ} {a : α}
    (h : Commits (MonadExcept.throw e : Tx δ ε α) db a db') : False := by
  obtain ⟨fuse, fuse', h⟩ := h
  cases h

theorem Commits.statement {fault : ε} {f : δ → Except ε (α × δ)} {db db' : δ} {a : α}
    (h : Commits (statement fault f) db a db') : f db = .ok (a, db') := by
  obtain ⟨fuse, fuse', h⟩ := h
  simp only [Transaction.statement] at h
  split at h
  · cases h
  · split at h
    · next hf =>
      simp only [Except.ok.injEq, Prod.mk.injEq, Work.mk.injEq] at h
      rw [hf, h.1, h.2.1]
    · cases h

/-! ### What a body can end with -/

/-- Some run of the body ends with the error `e`. -/
def Fails (body : Tx δ ε α) (e : ε) : Prop := ∃ w, body w = .error e

theorem fails_of_transaction {body : Tx δ ε α} {fuse : Option ℕ} {db : δ} {e : ε}
    (h : (transaction body fuse db).1 = .error e) : Fails body e := by
  unfold transaction at h
  split at h
  · cases h
  · next hb =>
    cases h
    exact ⟨_, hb⟩

/-- A body followed by another fails when the one does, or the other. -/
theorem Fails.bind {x : Tx δ ε α} {f : α → Tx δ ε β} {e : ε} (h : Fails (x >>= f) e) :
    Fails x e ∨ ∃ a, Fails (f a) e := by
  obtain ⟨w, h⟩ := h
  rw [bind_apply] at h
  rcases error_of_bind h with hx | ⟨p, -, hrest⟩
  · exact Or.inl ⟨w, hx⟩
  · exact Or.inr ⟨p.1, p.2, hrest⟩

theorem Fails.pure {a : α} {e : ε} (h : Fails (Pure.pure a : Tx δ ε α) e) : False := by
  obtain ⟨w, h⟩ := h
  cases h

theorem Fails.statement {fault e : ε} {f : δ → Except ε (α × δ)}
    (h : Fails (Transaction.statement fault f) e) : e = fault ∨ ∃ db, f db = .error e := by
  obtain ⟨w, h⟩ := h
  simp only [Transaction.statement] at h
  split at h
  · cases h
    exact Or.inl rfl
  · split at h
    · cases h
    · next hf =>
      cases h
      exact Or.inr ⟨_, hf⟩

end Transaction
