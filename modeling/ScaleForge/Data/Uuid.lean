import Mathlib.Data.List.Basic
import Mathlib.Data.Fin.Basic

/-!
# UUIDs and their spellings

A UUID reaches the program as text and lives in PostgreSQL as a value.
`ParseUUIDPipe` and `IsUUID` accept the hexadecimal digits in either case and
pass the text on unchanged; PostgreSQL compares values and renders them in
lower case.  JavaScript's `===` compares texts, so two spellings of one UUID
are different strings and the same key.

The hyphens stand at fixed places, so a spelling is the list of its digits.

## Main definitions

* `UuidText` — an accepted spelling.
* `Uuid` — the value PostgreSQL stores.
* `UuidText.value`, `Uuid.text` — reading a spelling, and rendering a value.
* `UuidText.toString`, `UuidText.read` — the text of a spelling, and back.
* `Uuid.spelledIn` — the text spells the value.
-/

namespace ScaleForge

/-- A hexadecimal digit as it may be spelled. -/
inductive HexChar
  | digit (d : Fin 10)
  | lower (l : Fin 6)
  | upper (l : Fin 6)
  deriving DecidableEq, Repr

namespace HexChar

/-- The nibble a digit denotes, whatever its case. -/
def value : HexChar → Fin 16
  | digit d => ⟨d, by omega⟩
  | lower l => ⟨10 + l, by omega⟩
  | upper l => ⟨10 + l, by omega⟩

/-- The digit PostgreSQL renders a nibble with. -/
def ofNibble (n : Fin 16) : HexChar :=
  if h : n.val < 10 then digit ⟨n, h⟩ else lower ⟨n - 10, by omega⟩

@[simp] theorem value_ofNibble (n : Fin 16) : (ofNibble n).value = n := by
  unfold ofNibble
  split
  · rfl
  · next h => exact Fin.ext (by simp only [value]; omega)

/-- The character of a digit. -/
def char : HexChar → Char
  | digit d => Char.ofNat ('0'.toNat + d)
  | lower l => Char.ofNat ('a'.toNat + l)
  | upper l => Char.ofNat ('A'.toNat + l)

theorem char_injective : Function.Injective char := by
  intro a b h
  cases a with
  | digit d =>
    cases b with
    | digit d' => revert h; revert d d'; decide
    | lower l => revert h; revert d l; decide
    | upper l => revert h; revert d l; decide
  | lower l =>
    cases b with
    | digit d' => revert h; revert l d'; decide
    | lower l' => revert h; revert l l'; decide
    | upper l' => revert h; revert l l'; decide
  | upper l =>
    cases b with
    | digit d' => revert h; revert l d'; decide
    | lower l' => revert h; revert l l'; decide
    | upper l' => revert h; revert l l'; decide

end HexChar

/-- A spelling of a UUID that `ParseUUIDPipe` and `IsUUID` let through. -/
structure UuidText where
  /-- The digits, without the hyphens. -/
  digits : List HexChar
  /-- There are thirty-two of them. -/
  length_digits : digits.length = 32
  deriving DecidableEq

/-- A value of PostgreSQL's `uuid` type. -/
structure Uuid where
  /-- The nibbles, the most significant one first. -/
  nibbles : List (Fin 16)
  /-- There are thirty-two of them. -/
  length_nibbles : nibbles.length = 32
  deriving DecidableEq

/-- The value a spelling denotes. -/
def UuidText.value (t : UuidText) : Uuid :=
  ⟨t.digits.map HexChar.value, by rw [List.length_map, t.length_digits]⟩

/-- PostgreSQL renders a value in lower case. -/
def Uuid.text (u : Uuid) : UuidText :=
  ⟨u.nibbles.map HexChar.ofNibble, by rw [List.length_map, u.length_nibbles]⟩

@[simp] theorem Uuid.value_text (u : Uuid) : u.text.value = u := by
  have h : (HexChar.value ∘ HexChar.ofNibble) = id := funext HexChar.value_ofNibble
  simp [UuidText.value, Uuid.text, h]

theorem Uuid.text_injective : Function.Injective Uuid.text := by
  intro u v h
  rw [← u.value_text, h, v.value_text]

/-- A spelling is canonical when it is the one PostgreSQL renders. -/
def UuidText.Canonical (t : UuidText) : Prop := t.value.text = t

instance (t : UuidText) : Decidable t.Canonical := inferInstanceAs (Decidable (_ = _))

theorem Uuid.canonical_text (u : Uuid) : u.text.Canonical := by
  rw [UuidText.Canonical, u.value_text]

/-! ### Text with hyphens -/

/-- Put the hyphens between the digits. -/
def hyphenate (cs : List Char) : List Char :=
  cs.take 8 ++ '-' :: (cs.drop 8).take 4 ++ '-' :: (cs.drop 12).take 4 ++
    '-' :: (cs.drop 16).take 4 ++ '-' :: cs.drop 20

theorem hyphenate_inj {cs ds : List Char} (hc : cs.length = 32) (hd : ds.length = 32)
    (h : hyphenate cs = hyphenate ds) : cs = ds := by
  -- the groups have the same lengths, so they agree one by one, from the right
  unfold hyphenate at h
  obtain ⟨h, h5⟩ := List.append_inj' h (by simp [hc, hd])
  obtain ⟨h, h4⟩ := List.append_inj' h (by simp [hc, hd])
  obtain ⟨h, h3⟩ := List.append_inj' h (by simp [hc, hd])
  obtain ⟨h1, h2⟩ := List.append_inj' h (by simp [hc, hd])
  simp only [List.cons.injEq, true_and] at h2 h3 h4 h5
  have hsplit : ∀ es : List Char, es = es.take 8 ++ ((es.drop 8).take 4 ++
      ((es.drop 12).take 4 ++ ((es.drop 16).take 4 ++ es.drop 20))) := by
    intro es
    have key : ∀ n, es.drop n = (es.drop n).take 4 ++ es.drop (n + 4) := by
      intro n
      rw [← List.drop_drop, List.take_append_drop]
    rw [← key 16, ← key 12, ← key 8, List.take_append_drop]
  rw [hsplit cs, hsplit ds, h1, h2, h3, h4, h5]

/-- The string of a spelling. -/
def UuidText.toString (t : UuidText) : String :=
  String.ofList (hyphenate (t.digits.map HexChar.char))

theorem UuidText.toString_ne_empty (t : UuidText) : t.toString ≠ "" := by
  rw [toString, ← String.ofList_nil]
  intro h
  have := String.ofList_injective h
  simp [hyphenate] at this

@[simp] theorem UuidText.length_toString (t : UuidText) : t.toString.length = 36 := by
  rw [toString, String.length_ofList]
  simp [hyphenate, t.length_digits]

/-- Different spellings are different strings. -/
theorem UuidText.toString_injective : Function.Injective UuidText.toString := by
  rintro ⟨ds, hd⟩ ⟨es, he⟩ h
  have hchars := hyphenate_inj (by rw [List.length_map, hd]) (by rw [List.length_map, he])
    (String.ofList_injective h)
  have hdigits : ds = es := List.map_injective_iff.mpr HexChar.char_injective hchars
  subst hdigits
  rfl

/-- Different values are rendered as different strings. -/
theorem Uuid.toString_text_injective :
    Function.Injective fun u : Uuid => u.text.toString :=
  UuidText.toString_injective.comp Uuid.text_injective

/-! ### Texts that spell a value -/

/-- The text spells the value, in whatever case. -/
def Uuid.spelledIn (u : Uuid) (s : String) : Bool :=
  s.toList.map Char.toLower = u.text.toString.toList

theorem HexChar.toLower_char (c : HexChar) : c.char.toLower = (ofNibble c.value).char := by
  cases c with
  | digit d => revert d; decide
  | lower l => revert l; decide
  | upper l => revert l; decide

theorem map_hyphenate {f : Char → Char} (hf : f '-' = '-') (cs : List Char) :
    (hyphenate cs).map f = hyphenate (cs.map f) := by
  simp [hyphenate, hf, List.map_take, List.map_drop]

/-- The texts that spell a value are its spellings. -/
theorem Uuid.spelledIn_toString {u : Uuid} {t : UuidText} :
    u.spelledIn t.toString = true ↔ t.value = u := by
  have hlower : t.toString.toList.map Char.toLower = t.value.text.toString.toList := by
    simp only [UuidText.toString, String.toList_ofList, Uuid.text, UuidText.value]
    rw [map_hyphenate (by decide), List.map_map, List.map_map, List.map_map]
    congr 2
    funext c
    exact HexChar.toLower_char c
  unfold Uuid.spelledIn
  rw [decide_eq_true_eq, hlower, String.toList_inj]
  exact toString_text_injective.eq_iff

/-! ### Reading a text -/

/-- All digits. -/
def HexChar.all : List HexChar :=
  (List.finRange 10).map digit ++ (List.finRange 6).map lower ++ (List.finRange 6).map upper

/-- The digit a character spells. -/
def HexChar.ofChar (c : Char) : Option HexChar := HexChar.all.find? fun h => h.char = c

theorem HexChar.ofChar_char (h : HexChar) : HexChar.ofChar h.char = some h := by
  cases h with
  | digit d => revert d; decide
  | lower l => revert l; decide
  | upper l => revert l; decide

/-- The spelling a text is, wherever its hyphens stand. -/
def UuidText.read (s : String) : Option UuidText :=
  match (s.toList.filter (· ≠ '-')).mapM HexChar.ofChar with
  | none => none
  | some ds => if h : ds.length = 32 then some ⟨ds, h⟩ else none

theorem HexChar.char_ne_hyphen (h : HexChar) : h.char ≠ '-' := by
  cases h with
  | digit d => revert d; decide
  | lower l => revert l; decide
  | upper l => revert l; decide

theorem filter_hyphenate {cs : List Char} (h : ∀ c ∈ cs, c ≠ '-') :
    (hyphenate cs).filter (· ≠ '-') = cs := by
  have hpart : ∀ es : List Char, es ⊆ cs → es.filter (· ≠ '-') = es :=
    fun es hes => List.filter_eq_self.mpr fun c hc => decide_eq_true (h c (hes hc))
  have htake : ∀ n, ((cs.drop n).take 4).filter (· ≠ '-') = (cs.drop n).take 4 := fun n =>
    hpart _ fun c hc => List.mem_of_mem_drop (List.mem_of_mem_take hc)
  have hsplit : ∀ n, (cs.drop n).take 4 ++ cs.drop (n + 4) = cs.drop n := by
    intro n
    rw [← List.drop_drop, List.take_append_drop]
  have hhyphen : ∀ es : List Char, ('-' :: es).filter (· ≠ '-') = es.filter (· ≠ '-') :=
    fun es => rfl
  simp only [hyphenate, List.filter_append, hhyphen, htake, hpart _ (List.take_subset _ _),
    hpart _ (List.drop_subset _ _), List.append_assoc, hsplit, List.take_append_drop]

/-- **A spelling is read back from its text.** -/
theorem UuidText.read_toString (t : UuidText) : UuidText.read t.toString = some t := by
  have hdigits : ∀ ds : List HexChar, (ds.map HexChar.char).mapM HexChar.ofChar = some ds := by
    intro ds
    induction ds with
    | nil => rfl
    | cons d ds ih => rw [List.map_cons, List.mapM_cons, HexChar.ofChar_char, ih]; rfl
  have hchars : ∀ c ∈ t.digits.map HexChar.char, c ≠ '-' := by
    intro c hc
    obtain ⟨d, -, rfl⟩ := List.mem_map.mp hc
    exact d.char_ne_hyphen
  simp only [read, toString, String.toList_ofList, filter_hyphenate hchars, hdigits,
    t.length_digits, dif_pos]

/-- The version 4 spelling whose free digits are all the same. -/
def UuidText.repeated (c : HexChar) : UuidText :=
  ⟨List.replicate 12 c ++ .digit 4 :: List.replicate 3 c ++ .digit 8 :: List.replicate 15 c, by
    simp⟩

example : (UuidText.repeated (.upper 0)).toString = "AAAAAAAA-AAAA-4AAA-8AAA-AAAAAAAAAAAA" := by
  decide

/-- The version 4 identifier whose free nibbles are all the same. -/
def Uuid.repeated (n : ℕ) : Uuid := (UuidText.repeated (.ofNibble (Fin.ofNat 16 n))).value

end ScaleForge
