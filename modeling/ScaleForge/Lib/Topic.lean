import Mathlib.Data.List.Infix

/-!
# Topic exchanges

A routing key is a dotted list of words.  A binding key is one too, in which `*`
stands for one word and `#` for any number of them.  An exchange copies a
message to every queue with a binding that matches its routing key.

## Main definitions

* `Topic.Word`, `Topic.Matches` — patterns and the words they match.
* `Topic.words`, `Topic.binds` — binding keys and routing keys as strings.
* `Topic.Binding`, `Topic.route` — the queues a message is copied to.

## Main results

* `binds_literal_iff` — a binding key without wildcards binds itself alone.
* `binds_under_iff` — the binding key `name.#` binds the keys below `name`.
-/

namespace Topic

/-! ### Patterns -/

/-- A word of a binding key. -/
inductive Word (α : Type*)
  /-- This word. -/
  | literal (a : α)
  /-- Any one word. -/
  | one
  /-- Any number of words. -/
  | many

section Pattern

variable {α : Type*} [DecidableEq α]

/-- The words match the pattern. -/
def Matches : List (Word α) → List α → Bool
  | [], ks => ks.isEmpty
  | .literal a :: ps, ks =>
    match ks with
    | [] => false
    | k :: ks => decide (a = k) && Matches ps ks
  | .one :: ps, ks =>
    match ks with
    | [] => false
    | _ :: ks => Matches ps ks
  | .many :: ps, ks => ks.tails.any (Matches ps)

/-- Literal words match themselves alone. -/
theorem matches_literals_iff {as ks : List α} :
    Matches (as.map Word.literal) ks = true ↔ as = ks := by
  induction as generalizing ks with
  | nil => cases ks <;> simp [Matches]
  | cons a as ih =>
    cases ks with
    | nil => simp [Matches]
    | cons k ks => simp [Matches, ih]

/-- Literal words and then anything match what begins with those words. -/
theorem matches_literals_many_iff {as ks : List α} :
    Matches (as.map Word.literal ++ [.many]) ks = true ↔ as <+: ks := by
  induction as generalizing ks with
  | nil =>
    simp only [List.map_nil, List.nil_append, Matches, List.any_eq_true, List.mem_tails,
      List.nil_prefix, iff_true]
    exact ⟨[], List.nil_suffix, rfl⟩
  | cons a as ih =>
    cases ks with
    | nil => simp [Matches]
    | cons k ks => simp [Matches, ih]

end Pattern

/-! ### Keys as strings -/

/-- The words of a key. -/
def words (key : String) : List (List Char) := key.toList.splitOn '.'

theorem words_injective : Function.Injective words := by
  intro key key' h
  have hjoin : ∀ k : String, ['.'].intercalate (words k) = k.toList :=
    fun k => List.intercalate_splitOn '.'
  have hchars : key.toList = key'.toList := by rw [← hjoin key, ← hjoin key', h]
  exact String.toList_injective hchars

/-- A name without dots is the first word of the keys below it. -/
theorem words_under {name : String} (hname : '.' ∉ name.toList) (key : String) :
    words (name ++ "." ++ key) = name.toList :: words key := by
  unfold words
  rw [String.toList_append, String.toList_append, List.append_assoc]
  exact List.splitOn_append_cons_self_of_not_mem hname _

/-- The pattern word of a word of a binding key. -/
def word (w : List Char) : Word (List Char) :=
  if w = ['*'] then .one else if w = ['#'] then .many else .literal w

/-- A binding key matches a routing key. -/
def binds (binding key : String) : Bool := Matches ((words binding).map word) (words key)

/-- The word is no wildcard. -/
def Literal (w : List Char) : Prop := w ≠ ['*'] ∧ w ≠ ['#']

instance (w : List Char) : Decidable (Literal w) := inferInstanceAs (Decidable (_ ∧ _))

theorem word_literal {w : List Char} (h : Literal w) : word w = .literal w := by
  unfold word
  rw [if_neg h.1, if_neg h.2]

/-- **A binding key without wildcards binds itself alone.** -/
theorem binds_literal_iff {binding key : String} (h : ∀ w ∈ words binding, Literal w) :
    binds binding key = true ↔ binding = key := by
  have hwords : (words binding).map word = (words binding).map Word.literal :=
    List.map_congr_left fun w hw => word_literal (h w hw)
  rw [binds, hwords, matches_literals_iff]
  exact words_injective.eq_iff

/-- **The binding key `name.#` binds the keys below `name`**, and no keys below
another name. -/
theorem binds_under_iff {name name' key : String} (hname : '.' ∉ name.toList)
    (hname' : '.' ∉ name'.toList) (hliteral : Literal name.toList) :
    binds (name ++ "." ++ "#") (name' ++ "." ++ key) = true ↔ name = name' := by
  have hwords : (words (name ++ "." ++ "#")).map word =
      [name.toList].map Word.literal ++ [.many] := by
    rw [words_under hname, List.map_cons, word_literal hliteral]
    rfl
  rw [binds, hwords, words_under hname', matches_literals_many_iff, List.cons_prefix_cons]
  simp only [List.nil_prefix, and_true]
  exact String.toList_inj

/-! ### Routing -/

/-- A binding of a queue to an exchange. -/
structure Binding (ξ θ : Type*) where
  queue : θ
  exchange : ξ
  key : String

/-- The queues an exchange copies a message to; a queue gets one copy, however
many of its bindings match. -/
def route {ξ θ : Type*} [DecidableEq ξ] (bindings : List (Binding ξ θ)) (x : ξ) (key : String) :
    List θ :=
  (bindings.filter fun b => b.exchange = x && binds b.key key).map Binding.queue

theorem mem_route_iff {ξ θ : Type*} [DecidableEq ξ] {bindings : List (Binding ξ θ)} {x : ξ}
    {key : String} {q : θ} : q ∈ route bindings x key ↔
      ∃ b ∈ bindings, b.queue = q ∧ b.exchange = x ∧ binds b.key key = true := by
  simp only [route, List.mem_map, List.mem_filter, Bool.and_eq_true, decide_eq_true_eq]
  constructor
  · rintro ⟨b, ⟨hb, hx, hk⟩, hq⟩
    exact ⟨b, hb, hq, hx, hk⟩
  · rintro ⟨b, hb, hq, hx, hk⟩
    exact ⟨b, ⟨hb, hx, hk⟩, hq⟩

end Topic
