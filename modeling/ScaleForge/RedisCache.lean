import Mathlib.Algebra.Order.Group.Multiset
import Mathlib.Tactic.Abel
import ScaleForge.Catalog

/-!
# Invalidating a prefix

`RedisCacheService.invalidatePrefix` asks for page after page of the keys that match, and
deletes each page before it asks for the next.  Redis answers as it likes: a page may be
empty or repeat a key, and what it promises holds of a whole iteration only.  Nobody else
writes, but a key may vanish by itself between two commands.

What `SCAN` makes of a pattern is a parameter; of a text without the special characters
of a pattern, followed by a star, it makes the keys that start with it.

## Main definitions

* `LiteralStar` — what is asked of the patterns.
* `ScanRequest`, `ScanReply`, `ScanExchange` — the commands.
* `Turn`, `Invalidating.turn` — one turn of the loop.
* `RedisCacheService.invalidatePrefix` — the loop.
* `FullIteration`, `KeepsPromise` — an iteration, and what Redis promises of it.

## Main results

* `Invalidating.Ok.turn` — what every turn preserves.
* `invalidatePrefix_exact` — **all keys with the prefix go, and no other; their number is
  returned.**
* `turn_of_advance` — the catalog invalidates with this loop.
-/

namespace ScaleForge

open Keyspace

/-! ### Patterns -/

/-- The characters with a meaning in a pattern. -/
def globCharacters : List Char := "*?[]\\".toList

/-- A text without such characters and a star match what starts with the text. -/
def LiteralStar (glob : String → String → Bool) : Prop :=
  ∀ literal key, (∀ c ∈ literal.toList, c ∉ globCharacters) →
    glob (literal ++ "*") key = startsWith literal key

/-! ### The loop -/

/-- `SCAN cursor MATCH pattern COUNT count`. -/
structure ScanRequest where
  cursor : String
  pattern : String
  count : ℕ
  deriving DecidableEq

/-- `[nextCursor, keys]`. -/
structure ScanReply where
  cursor : String
  keys : List String
  deriving DecidableEq

/-- A `SCAN`, with what Redis holds at that moment. -/
structure ScanExchange (ν : Type*) where
  request : ScanRequest
  entries : List (Entry String ν)
  reply : ScanReply

/-- What the loop meets in one turn. -/
structure Turn where
  /-- The keys that vanish by themselves before the `SCAN`. -/
  lost : List String
  reply : ScanReply
  /-- The keys that vanish by themselves before the `DEL`. -/
  lostLater : List String

/-- Redis and the variables of the loop; the last three fields are a record that the loop
does not keep. -/
structure Invalidating (ν : Type*) where
  entries : List (Entry String ν)
  cursor : String
  deleted : ℕ
  exchanges : List (ScanExchange ν)
  removed : List (Entry String ν)
  vanished : List (Entry String ν)

variable {ν : Type*}

/-- The body of the loop. -/
def Invalidating.turn (start : String) (s : Invalidating ν) (t : Turn) : Invalidating ν :=
  let seen := del t.lost s.entries
  let left := del t.lostLater seen
  let request : ScanRequest := ⟨s.cursor, start ++ "*", 100⟩
  { entries := if t.reply.keys.isEmpty then left else del t.reply.keys left
    cursor := t.reply.cursor
    deleted := if t.reply.keys.isEmpty then s.deleted
      else s.deleted + delCount t.reply.keys left
    exchanges := s.exchanges ++ [⟨request, seen, t.reply⟩]
    removed := s.removed ++ hits t.reply.keys left
    vanished := s.vanished ++ (hits t.lost s.entries ++ hits t.lostLater seen) }

/-- `do … while (cursor !== '0')`; the loop waits when there are no turns left. -/
def Invalidating.loop (start : String) (s : Invalidating ν) : List Turn → Option (Invalidating ν)
  | [] => none
  | t :: turns =>
    let next := s.turn start t
    if next.cursor = "0" then some next else next.loop start turns

/-- `invalidatePrefix`, which returns `deleted`. -/
def RedisCacheService.invalidatePrefix (start : String) (entries : List (Entry String ν))
    (turns : List Turn) : Option (Invalidating ν) :=
  Invalidating.loop start ⟨entries, "0", 0, [], [], []⟩ turns

/-! ### What Redis promises -/

/-- The requests take up the cursors of the replies, from one cursor to another. -/
def Follows : String → List (ScanExchange ν) → String → Prop
  | first, [], last => first = last
  | first, x :: exchanges, last =>
    x.request.cursor = first ∧ Follows x.reply.cursor exchanges last

/-- A full iteration: from the cursor `0` to the first reply with the cursor `0`. -/
structure FullIteration (exchanges : List (ScanExchange ν)) : Prop where
  follows : Follows "0" exchanges "0"
  ne_nil : exchanges ≠ []
  goesOn : ∀ x ∈ exchanges.dropLast, x.reply.cursor ≠ "0"

/-- The promise of an iteration: every page matches, and a key that matches and is there
throughout is on a page. -/
structure KeepsPromise (glob : String → String → Bool) (exchanges : List (ScanExchange ν)) :
    Prop where
  matched : ∀ x ∈ exchanges, ∀ key ∈ x.reply.keys, glob x.request.pattern key = true
  covered : ∀ key, (∀ x ∈ exchanges, glob x.request.pattern key = true ∧
    ∃ e ∈ x.entries, e.key = key) → ∃ x ∈ exchanges, key ∈ x.reply.keys

theorem follows_append {first last : String} {exchanges : List (ScanExchange ν)}
    {x : ScanExchange ν} :
    Follows first (exchanges ++ [x]) last ↔
      Follows first exchanges x.request.cursor ∧ x.reply.cursor = last := by
  induction exchanges generalizing first with
  | nil =>
    simp only [List.nil_append, Follows]
    rw [eq_comm]
  | cons y exchanges ih =>
    rw [List.cons_append, Follows, Follows, ih, and_assoc]

/-! ### What a turn preserves -/

/-- What holds between two turns: a key on a page is gone, and a key that is there has
been there at every `SCAN`. -/
structure Invalidating.Ok (start : String) (entries : List (Entry String ν))
    (s : Invalidating ν) : Prop where
  partition : entries.Perm (s.entries ++ s.removed ++ s.vanished)
  counted : s.deleted = s.removed.length
  follows : Follows "0" s.exchanges s.cursor
  pattern : ∀ x ∈ s.exchanges, x.request.pattern = start ++ "*"
  returned : ∀ e ∈ s.removed, ∃ x ∈ s.exchanges, e.key ∈ x.reply.keys
  gone : ∀ e ∈ s.entries, ∀ x ∈ s.exchanges, e.key ∉ x.reply.keys
  throughout : ∀ e ∈ s.entries, ∀ x ∈ s.exchanges, e ∈ x.entries

section Turns

variable {start : String} {entries : List (Entry String ν)} {s : Invalidating ν} {t : Turn}

theorem Invalidating.turn_entries :
    (s.turn start t).entries = del t.reply.keys (del t.lostLater (del t.lost s.entries)) := by
  unfold Invalidating.turn
  dsimp only
  split
  · next hempty =>
    rw [List.isEmpty_iff.mp hempty]
    simp [del]
  · rfl

theorem Invalidating.turn_deleted :
    (s.turn start t).deleted =
      s.deleted + (hits t.reply.keys (del t.lostLater (del t.lost s.entries))).length := by
  unfold Invalidating.turn
  dsimp only
  split
  · next hempty =>
    rw [List.isEmpty_iff.mp hempty]
    simp [hits]
  · rw [delCount_eq_length]

/-- A turn only loses entries. -/
theorem Invalidating.mem_turn {e : Entry String ν} (h : e ∈ (s.turn start t).entries) :
    e ∈ del t.lost s.entries ∧ e ∈ s.entries ∧ e.key ∉ t.reply.keys := by
  rw [Invalidating.turn_entries] at h
  obtain ⟨hleft, hkey⟩ := mem_del.mp h
  obtain ⟨hseen, -⟩ := mem_del.mp hleft
  exact ⟨hseen, (mem_del.mp hseen).1, hkey⟩

/-- **A turn deletes its page**, and splits what it found. -/
theorem Invalidating.perm_turn (start : String) (s : Invalidating ν) (t : Turn) :
    s.entries.Perm ((s.turn start t).entries ++
      hits t.reply.keys (del t.lostLater (del t.lost s.entries)) ++
        (hits t.lost s.entries ++ hits t.lostLater (del t.lost s.entries))) := by
  have hlost := perm_del_append_hits t.lost s.entries
  have hlater := perm_del_append_hits t.lostLater (del t.lost s.entries)
  have hpage := perm_del_append_hits t.reply.keys (del t.lostLater (del t.lost s.entries))
  rw [Invalidating.turn_entries]
  rw [← Multiset.coe_eq_coe] at hlost hlater hpage ⊢
  simp only [← Multiset.coe_add] at hlost hlater hpage ⊢
  rw [hlost, hlater, hpage]
  abel

/-- **What every turn preserves.** -/
theorem Invalidating.Ok.turn (h : s.Ok start entries) (t : Turn) :
    (s.turn start t).Ok start entries where
  partition := by
    have hturn := Invalidating.perm_turn start s t
    have hold := h.partition
    rw [← Multiset.coe_eq_coe] at hturn hold ⊢
    simp only [← Multiset.coe_add] at hturn hold ⊢
    rw [hold, hturn]
    simp only [Invalidating.turn, ← Multiset.coe_add]
    abel
  counted := by
    rw [Invalidating.turn_deleted, h.counted, ← List.length_append]
    rfl
  follows := follows_append.mpr ⟨h.follows, rfl⟩
  pattern := by
    intro x hx
    rcases List.mem_append.mp hx with hold | hnew
    · exact h.pattern x hold
    · rw [List.mem_singleton.mp hnew]
  returned := by
    intro e he
    rcases List.mem_append.mp he with hold | hnew
    · obtain ⟨x, hx, hkey⟩ := h.returned e hold
      exact ⟨x, List.mem_append_left _ hx, hkey⟩
    · exact ⟨_, List.mem_append_right _ (List.mem_singleton_self _), (mem_hits.mp hnew).2⟩
  gone := by
    intro e he x hx
    obtain ⟨-, hold, hkey⟩ := Invalidating.mem_turn he
    rcases List.mem_append.mp hx with hx | hnew
    · exact h.gone e hold x hx
    · rw [List.mem_singleton.mp hnew]
      exact hkey
  throughout := by
    intro e he x hx
    obtain ⟨hseen, hold, -⟩ := Invalidating.mem_turn he
    rcases List.mem_append.mp hx with hx | hnew
    · exact h.throughout e hold x hx
    · rw [List.mem_singleton.mp hnew]
      exact hseen

end Turns

/-! ### The whole loop -/

/-- The loop returns as soon as a reply has the cursor `0`. -/
theorem Invalidating.exists_loop {start : String} {turns : List Turn}
    (h : ∃ t ∈ turns, t.reply.cursor = "0") (s : Invalidating ν) :
    ∃ run, s.loop start turns = some run := by
  induction turns generalizing s with
  | nil =>
    obtain ⟨t, ht, -⟩ := h
    exact absurd ht List.not_mem_nil
  | cons t turns ih =>
    rw [Invalidating.loop]
    by_cases hcursor : (s.turn start t).cursor = "0"
    · exact ⟨_, if_pos hcursor⟩
    · rw [if_neg hcursor]
      obtain ⟨t', ht', hzero⟩ := h
      rcases List.mem_cons.mp ht' with rfl | ht'
      · exact absurd hzero hcursor
      · exact ih ⟨t', ht', hzero⟩ _

/-- **A loop that returns has made a full iteration**, and what every turn preserves
holds. -/
theorem Invalidating.Ok.loop {start : String} {entries : List (Entry String ν)}
    {s run : Invalidating ν} {turns : List Turn} (h : s.Ok start entries)
    (hopen : ∀ x ∈ s.exchanges, x.reply.cursor ≠ "0") (hrun : s.loop start turns = some run) :
    run.Ok start entries ∧ FullIteration run.exchanges := by
  induction turns generalizing s with
  | nil => exact absurd hrun nofun
  | cons t turns ih =>
    rw [Invalidating.loop] at hrun
    have hnext := h.turn t
    have hexchanges : (s.turn start t).exchanges =
        s.exchanges ++ [⟨⟨s.cursor, start ++ "*", 100⟩, del t.lost s.entries, t.reply⟩] := rfl
    split at hrun
    · next hcursor =>
      obtain rfl := Option.some.inj hrun
      have hfollows := hnext.follows
      rw [hcursor] at hfollows
      refine ⟨hnext, hfollows, ?_, ?_⟩
      · rw [hexchanges]
        exact List.append_ne_nil_of_right_ne_nil _ (List.cons_ne_nil _ _)
      · rw [hexchanges, List.dropLast_concat]
        exact hopen
    · next hcursor =>
      refine ih hnext (fun x hx => ?_) hrun
      rw [hexchanges] at hx
      rcases List.mem_append.mp hx with hold | hnew
      · exact hopen x hold
      · rw [List.mem_singleton.mp hnew]
        exact hcursor

/-- Nothing vanishes by itself where no turn loses a key. -/
theorem Invalidating.vanished_of_loop {start : String} {s run : Invalidating ν}
    {turns : List Turn} (h : s.vanished = []) (hkept : ∀ t ∈ turns, t.lost = [] ∧ t.lostLater = [])
    (hrun : s.loop start turns = some run) : run.vanished = [] := by
  induction turns generalizing s with
  | nil => exact absurd hrun nofun
  | cons t turns ih =>
    obtain ⟨hlost, hlater⟩ := hkept t List.mem_cons_self
    have hnext : (s.turn start t).vanished = [] := by
      simp [Invalidating.turn, h, hlost, hlater, hits]
    rw [Invalidating.loop] at hrun
    split at hrun
    · rw [← Option.some.inj hrun]
      exact hnext
    · exact ih hnext (fun t ht => hkept t (List.mem_cons_of_mem _ ht)) hrun

/-- What an invalidation has done: the entries are those left, those it removed and those
that vanished by themselves; it removed only keys with the prefix and left none, and
returns how many it removed. -/
structure Invalidated (start : String) (entries : List (Entry String ν)) (run : Invalidating ν) :
    Prop where
  partition : entries.Perm (run.entries ++ run.removed ++ run.vanished)
  none_left : ∀ e ∈ run.entries, startsWith start e.key = false
  only : ∀ e ∈ run.removed, startsWith start e.key = true
  count : run.deleted = run.removed.length

/-- Where Redis keeps its promise, a full iteration invalidates the prefix. -/
theorem Invalidating.Ok.invalidated {glob : String → String → Bool} (hglob : LiteralStar glob)
    {start : String} (hplain : ∀ c ∈ start.toList, c ∉ globCharacters)
    {entries : List (Entry String ν)} {run : Invalidating ν} (h : run.Ok start entries)
    (hpromise : KeepsPromise glob run.exchanges) : Invalidated start entries run where
  partition := h.partition
  none_left := by
    intro e he
    rw [Bool.eq_false_iff]
    intro hstart
    -- the key has been there throughout, so it was on a page and is gone
    obtain ⟨x, hx, hkey⟩ := hpromise.covered e.key fun x hx => by
      rw [h.pattern x hx, hglob start e.key hplain]
      exact ⟨hstart, e, h.throughout e he x hx, rfl⟩
    exact h.gone e he x hx hkey
  only := by
    intro e he
    obtain ⟨x, hx, hkey⟩ := h.returned e he
    have hmatched := hpromise.matched x hx e.key hkey
    rwa [h.pattern x hx, hglob start e.key hplain] at hmatched
  count := h.counted

/-- Without losses the keyspace is left without the keys of the prefix, and these are
counted. -/
theorem Invalidated.of_vanished_nil {start : String} {entries : List (Entry String ν)}
    {run : Invalidating ν} (h : Invalidated start entries run) (hvanished : run.vanished = []) :
    run.entries.Perm (entries.filter fun e => !startsWith start e.key) ∧
      run.deleted = entries.countP fun e => startsWith start e.key := by
  have hpartition := h.partition
  rw [hvanished, List.append_nil] at hpartition
  constructor
  · have hleft : run.entries.filter (fun e => !startsWith start e.key) = run.entries :=
      List.filter_eq_self.mpr fun e he => by rw [h.none_left e he, Bool.not_false]
    have hremoved : run.removed.filter (fun e => !startsWith start e.key) = [] :=
      List.filter_eq_nil_iff.mpr fun e he => by simp [h.only e he]
    have hfilter := hpartition.filter fun e => !startsWith start e.key
    rw [List.filter_append, hleft, hremoved, List.append_nil] at hfilter
    exact hfilter.symm
  · have hleft : run.entries.countP (fun e => startsWith start e.key) = 0 :=
      List.countP_eq_zero.mpr fun e he => by simp [h.none_left e he]
    have hremoved : run.removed.countP (fun e => startsWith start e.key) = run.removed.length :=
      List.countP_eq_length.mpr h.only
    rw [hpartition.countP_eq, List.countP_append, hleft, hremoved, Nat.zero_add, h.count]

/-- **All keys with the prefix go, and no other; their number is returned.**  For every
keyspace, every prefix without special characters and every run of turns with a reply that
ends the iteration, the loop returns; where Redis keeps the promise of that iteration, it
has removed exactly the keys with the prefix. -/
theorem invalidatePrefix_exact {glob : String → String → Bool} (hglob : LiteralStar glob)
    (start : String) (hplain : ∀ c ∈ start.toList, c ∉ globCharacters)
    (entries : List (Entry String ν)) (turns : List Turn)
    (hfinite : ∃ t ∈ turns, t.reply.cursor = "0")
    (hscan : ∀ run, RedisCacheService.invalidatePrefix start entries turns = some run →
      FullIteration run.exchanges → KeepsPromise glob run.exchanges) :
    ∃ run, RedisCacheService.invalidatePrefix start entries turns = some run ∧
      Invalidated start entries run ∧
      ((∀ t ∈ turns, t.lost = [] ∧ t.lostLater = []) →
        run.entries.Perm (entries.filter fun e => !startsWith start e.key) ∧
          run.deleted = entries.countP fun e => startsWith start e.key) := by
  have hstart : Invalidating.Ok start entries (⟨entries, "0", 0, [], [], []⟩ : Invalidating ν) :=
    { partition := by simp
      counted := rfl
      follows := rfl
      pattern := nofun
      returned := nofun
      gone := fun _ _ => nofun
      throughout := fun _ _ => nofun }
  obtain ⟨run, hrun⟩ := Invalidating.exists_loop hfinite
    (⟨entries, "0", 0, [], [], []⟩ : Invalidating ν)
  obtain ⟨hok, hfull⟩ := hstart.loop nofun hrun
  have hdone := hok.invalidated hglob hplain (hscan run hrun hfull)
  exact ⟨run, hrun, hdone, fun hkept =>
    hdone.of_vanished_nil (Invalidating.vanished_of_loop rfl hkept hrun)⟩

/-- The text in front of the last character is literal. -/
def sampleGlob (pattern key : String) : Bool := pattern.toList.dropLast.isPrefixOf key.toList

/-- Two lists of restaurants, and a key of another kind. -/
def sampleEntries : List (Entry String ℕ) :=
  [⟨"restaurants:active:v1", 1, some 60000, 0⟩, ⟨"sessions:7", 2, none, 0⟩,
    ⟨"restaurants:active:v2", 3, none, 0⟩]

/-- A page, an empty one, and one that repeats a key. -/
def sampleTurns : List Turn :=
  [⟨[], ⟨"7", ["restaurants:active:v2"]⟩, []⟩, ⟨[], ⟨"3", []⟩, []⟩,
    ⟨[], ⟨"0", ["restaurants:active:v1", "restaurants:active:v2", "restaurants:active:v1"]⟩, []⟩]

theorem sample_invalidatePrefix_exact :
    ∃ run, RedisCacheService.invalidatePrefix "restaurants:active:" sampleEntries sampleTurns =
        some run ∧ run.entries = [⟨"sessions:7", 2, none, 0⟩] ∧ run.deleted = 2 := by
  have hglob : LiteralStar sampleGlob := by
    intro literal key _
    simp [sampleGlob, startsWith]
  have hscan : ∀ run, RedisCacheService.invalidatePrefix "restaurants:active:" sampleEntries
      sampleTurns = some run → FullIteration run.exchanges →
        KeepsPromise sampleGlob run.exchanges := by
    intro run hrun _
    obtain rfl := Option.some.inj hrun
    refine ⟨by decide +kernel, fun key hkey => ?_⟩
    -- at the first `SCAN` the keyspace is as it was
    obtain ⟨hmatched, e, he, rfl⟩ := hkey ⟨⟨"0", "restaurants:active:" ++ "*", 100⟩,
      sampleEntries, ⟨"7", ["restaurants:active:v2"]⟩⟩ (List.mem_iff_getElem?.mpr ⟨0, rfl⟩)
    clear hkey
    revert e
    decide +kernel
  have hplain : "restaurants:active:".toList.all (fun c => decide (c ∉ globCharacters)) = true := by
    decide
  obtain ⟨run, hrun, -, hexact⟩ := invalidatePrefix_exact hglob "restaurants:active:"
    (fun c hc => of_decide_eq_true (List.all_eq_true.mp hplain c hc)) sampleEntries sampleTurns
    (by decide) hscan
  obtain ⟨hleft, hcount⟩ := hexact (by decide)
  have hfilter : sampleEntries.filter (fun e => !startsWith "restaurants:active:" e.key) =
      [⟨"sessions:7", 2, none, 0⟩] := by decide
  rw [hfilter, List.perm_singleton] at hleft
  exact ⟨run, hrun, hleft, hcount.trans (by decide)⟩

/-! ### The catalog -/

section Catalog

variable {t : TextRules} {s s' : CatalogState} {c : CatalogChoice} {dto : CreateRestaurantDto}
  {row : CatalogRow} {inserted : ℕ} {l : Invalidation} {pc : CatalogPc}

/-- The loop of the catalog, as far as it has come. -/
def Invalidation.invalidating (l : Invalidation) (s : CatalogState) : Invalidating CachedCatalog :=
  ⟨s.keys, l.cursor, l.deleted, [], [], []⟩

/-- The catalog is where the turn ends. -/
structure Invalidation.Reaches (l : Invalidation) (s : CatalogState)
    (after : Invalidating CachedCatalog) : Prop where
  entries : s.keys = after.entries
  cursor : l.cursor = after.cursor
  deleted : l.deleted = after.deleted

/-- **The catalog invalidates with this loop**, a command at a time: after a page that is
empty, or after the deletion of one that is not, Redis and the variables of the loop are
where a turn ends. -/
theorem turn_of_advance
    (h : RestaurantsService.advance t s c (.create dto) (.scanning row inserted l) =
      some (s', pc)) :
    ∃ (next : Invalidation) (s₂ : CatalogState) (began : ℕ),
      next.Reaches s₂
          ((l.invalidating s).turn "restaurants:active:" ⟨[], ⟨c.cursor, c.page⟩, []⟩) ∧
        if c.page.isEmpty then s₂ = s' ∧ pc = RestaurantsService.resume row inserted began next
        else ∀ c', RestaurantsService.advance t s' c' (.create dto) pc =
          some (s₂, RestaurantsService.resume row inserted began next) := by
  have hkept : ∀ entries : List (Entry String CachedCatalog), del [] entries = entries := by
    intro entries
    simp [del]
  simp only [RestaurantsService.advance] at h
  split at h
  · obtain ⟨rfl, rfl⟩ := Prod.mk.inj (Option.some.inj h)
    by_cases hpage : c.page.isEmpty = true
    · refine ⟨⟨c.cursor, l.deleted, some (l.began.getD s.stamp), l.returned ++ c.page⟩,
        { s with stamp := s.stamp + 1 }, l.began.getD s.stamp, ⟨?_, rfl, ?_⟩, ?_⟩
      · simp [Invalidation.invalidating, Invalidating.turn, hpage, hkept]
      · simp [Invalidation.invalidating, Invalidating.turn, hpage]
      · rw [if_pos hpage, if_pos hpage]
        exact ⟨rfl, rfl⟩
    · refine ⟨⟨c.cursor, l.deleted + delCount c.page s.keys, some (l.began.getD s.stamp),
        l.returned ++ c.page⟩, { s with stamp := s.stamp + 1 + 1, keys := del c.page s.keys },
        l.began.getD s.stamp, ⟨?_, rfl, ?_⟩, ?_⟩
      · simp [Invalidation.invalidating, Invalidating.turn, hpage, hkept]
      · simp [Invalidation.invalidating, Invalidating.turn, hpage, hkept]
      · rw [if_neg hpage, if_neg hpage]
        exact fun _ => rfl
  · cases h

end Catalog

end ScaleForge
