import ScaleForge.ScalingLab.OptionGroups

/-!
# Inline values and separate values

`--key=value` splits its text at every `=` and keeps two parts, so that a value with an
`=` in it loses the rest, where `--key value` takes it whole.  The two forms are compared
between any two runs of groups.

## Main definitions

* `argumentsInline`, `argumentsSeparate` — the two command lines.
* `givenValues` — the last value of every option, with one value in the middle.

## Main results

* `readConfig_given_ne` — a lost text shows in the configuration.
* `inline_agrees_iff` — **when the two forms mean the same.**
-/

namespace ScaleForge

namespace ScalingLab

open Assignment EcmaNumber

/-! ### The two command lines -/

section CommandLines

variable (before : List Group) (key : ValueKey) (value : String) (behind : List Group)

/-- The value in one argument with its key. -/
def argumentsInline : List String :=
  before.flatMap Group.tokens ++ ("--" ++ key.1 ++ "=" ++ value) :: behind.flatMap Group.tokens

/-- The value in the next argument. -/
def argumentsSeparate : List String :=
  before.flatMap Group.tokens ++ ("--" ++ key.1) :: value :: behind.flatMap Group.tokens

/-- The last value of every option, when the key is given this value in the middle. -/
def givenValues : Values := fun k =>
  (lastValue Group.key Group.value behind k).or
    (if k = key.1 then some (.text value) else lastValue Group.key Group.value before k)

/-- Somebody asks for help. -/
def AsksHelp : Prop := ∃ g ∈ before ++ behind, g.key = "help"

/-- A later group gives the key again. -/
def Overridden : Prop := ∃ g ∈ behind, g.key = key.1

end CommandLines

variable {protocol : String → Option String} {environment : Option String}
  {before behind : List Group} {key : ValueKey} {value : String}

theorem foldl_assign_given :
    behind.foldl (assign Group.key Group.value)
        (Values.set (before.foldl (assign Group.key Group.value) Values.empty) key.1
          (.text value)) =
      givenValues before key value behind := by
  funext k
  rw [foldl_assign_apply, givenValues, Values.set]
  by_cases hk : k = key.1
  · rw [if_pos hk, hk, Function.update_self]
  · rw [if_neg hk, Function.update_of_ne hk, foldl_assign_apply]
    exact congrArg _ Option.or_none

/-- However the value is written, the parse reads the values given. -/
theorem parseArgs_value {text : String} {argv : List String}
    (h : ∀ values, collectFrom values argv =
      if Usable text then
        collectFrom (values.set key.1 (.text text)) (behind.flatMap Group.tokens)
      else .error ("--" ++ key.1 ++ " needs a value")) :
    parseArgs protocol environment (before.flatMap Group.tokens ++ argv) =
      if Usable text then
        readConfig protocol environment (givenValues before key text behind)
      else .error ("--" ++ key.1 ++ " needs a value") := by
  rw [parseArgs, collectArguments, collectFrom_groups, h]
  by_cases husable : Usable text
  · have hrest := collectFrom_groups (Values.set (before.foldl (assign Group.key Group.value)
      Values.empty) key.1 (.text text)) behind []
    rw [List.append_nil, foldl_assign_given] at hrest
    rw [if_pos husable, if_pos husable, hrest]
    rfl
  · rw [if_neg husable, if_neg husable]
    rfl

theorem parseArgs_inline :
    parseArgs protocol environment (argumentsInline before key value behind) =
      if Usable (beforeEquals value) then
        readConfig protocol environment (givenValues before key (beforeEquals value) behind)
      else .error ("--" ++ key.1 ++ " needs a value") :=
  parseArgs_value fun values => collectFrom_inline values key value _

theorem parseArgs_separate :
    parseArgs protocol environment (argumentsSeparate before key value behind) =
      if Usable value then
        readConfig protocol environment (givenValues before key value behind)
      else .error ("--" ++ key.1 ++ " needs a value") :=
  parseArgs_value fun values => collectFrom_separate values key value _

/-! ### The text before the first `=` -/

theorem beforeEquals_eq_self (h : '=' ∉ value.toList) : beforeEquals value = value := by
  have hkeep := beq_equals_of_not_mem h
  rw [beforeEquals, List.takeWhile_eq_self_iff.mpr fun c hc => by simpa using hkeep c hc,
    String.ofList_toList]

theorem equals_not_mem_beforeEquals : '=' ∉ (beforeEquals value).toList := by
  rw [beforeEquals, String.toList_ofList]
  intro h
  simpa using List.mem_takeWhile_imp h

theorem beforeEquals_ne (h : '=' ∈ value.toList) : beforeEquals value ≠ value := by
  intro heq
  rw [← heq] at h
  exact equals_not_mem_beforeEquals h

/-- The two dashes come before any `=`. -/
theorem dashed_beforeEquals : dashed (beforeEquals value) = dashed value := by
  rw [dashed, dashed, beforeEquals, String.toList_ofList, String.toList_ofList]
  rcases value.toList with _ | ⟨a, _ | ⟨b, rest⟩⟩
  · rfl
  · by_cases ha : a = '='
    · simp [ha, List.isPrefixOf]
    · simp [ha]
  · by_cases ha : a = '='
    · simp [ha, List.isPrefixOf]
    · by_cases hb : b = '='
      · simp [ha, hb, List.isPrefixOf]
      · simp [ha, hb, List.isPrefixOf]

/-! ### Looking up what is given -/

theorem givenValues_key (h : ¬Overridden key behind) :
    givenValues before key value behind key.1 = some (.text value) := by
  have hnone : lastValue Group.key Group.value behind key.1 = none :=
    (lastValue_eq_none_iff _ _).mpr fun g hg hkey => h ⟨g, hg, hkey⟩
  rw [givenValues, hnone, if_pos rfl]
  rfl

/-- A value given again later does not count. -/
theorem givenValues_overridden (h : Overridden key behind) (value value' : String) :
    givenValues before key value behind = givenValues before key value' behind := by
  funext k
  unfold givenValues
  by_cases hk : k = key.1
  · subst hk
    obtain ⟨g, hg, hkey⟩ := h
    cases hlast : lastValue Group.key Group.value behind key.1 with
    | none => exact absurd hkey ((lastValue_eq_none_iff _ _).mp hlast g hg)
    | some last => rfl
  · rw [if_neg hk, if_neg hk]

theorem key_ne_help : "help" ≠ key.1 := by
  intro h
  have hkey := key.2
  rw [← h] at hkey
  exact absurd hkey (by decide)

theorem isSome_givenValues_help :
    (givenValues before key value behind "help").isSome ↔ AsksHelp before behind := by
  rw [givenValues, if_neg key_ne_help, ← lastValue_append, ← Option.ne_none_iff_isSome, Ne,
    lastValue_eq_none_iff, AsksHelp]
  simp

/-! ### A lost text shows -/

theorem foreign_equals : Foreign '=' := ⟨by decide, by decide, by decide, by decide, by decide⟩

/-- No number has an `=` in it. -/
theorem admits_eq_false (options : NumberOptions) (h : '=' ∈ value.toList) :
    options.admits (some (.text value)) = false := by
  simp only [NumberOptions.admits, ofChars_eq_nan foreign_equals h]

/-- A value with an `=` is accepted for the target alone. -/
theorem key_eq_url (h : '=' ∈ value.toList) (hlast : ¬Overridden key behind)
    (haccept : Acceptable protocol environment (givenValues before key value behind)) :
    key.1 = "url" := by
  have hall : ∀ k ∈ valueOptions, k = "url" ∨ k ∈ numberOptions.map Prod.fst := by decide
  refine (hall key.1 key.2).resolve_right fun hnumber => ?_
  obtain ⟨o, ho, hkey⟩ := List.mem_map.mp hnumber
  have hadmits := haccept.numbers o ho
  rw [hkey, givenValues_key hlast, admits_eq_false o.2 h] at hadmits
  exact Bool.noConfusion hadmits

/-- The two values do not give one configuration. -/
theorem readConfig_given_ne {config : LabConfig} (h : '=' ∈ value.toList)
    (hlast : ¬Overridden key behind)
    (hwhole : Configures protocol environment (givenValues before key value behind) config) :
    ¬Configures protocol environment
      (givenValues before key (beforeEquals value) behind) config := by
  intro hpart
  have hurl := key_eq_url h hlast (exists_configures_iff.mp ⟨config, hwhole⟩)
  have hvalue : ∀ text, targetUrl environment (givenValues before key text behind) = text := by
    intro text
    have hkey : givenValues before key text behind "url" = some (.text text) := by
      rw [← hurl]
      exact givenValues_key hlast
    rw [targetUrl, hkey]
  refine beforeEquals_ne h ?_
  rw [← hvalue (beforeEquals value), ← hpart.url, hwhole.url, hvalue value]

/-! ### When the two forms agree -/

theorem toOption_eq_none_iff {α : Type} {x : Except String α} :
    x.toOption = none ↔ ∀ a, x ≠ .ok a := by
  cases x with
  | error e => simp [Except.toOption]
  | ok a => simp [Except.toOption]

theorem eq_ok_of_toOption_eq {α : Type} {x y : Except String α} {a : α}
    (h : x.toOption = y.toOption) (hx : x = .ok a) : y = .ok a := by
  rw [hx] at h
  cases y with
  | error e => exact absurd h nofun
  | ok b => rw [Option.some.inj h]

/-- A parse fails exactly when nobody asks for help and some value is bad. -/
theorem readConfig_toOption_eq_none_iff :
    (readConfig protocol environment (givenValues before key value behind)).toOption = none ↔
      ¬AsksHelp before behind ∧
        ¬Acceptable protocol environment (givenValues before key value behind) := by
  rw [toOption_eq_none_iff, ← isSome_givenValues_help, ← exists_configures_iff]
  constructor
  · intro h
    have hhelp : ¬(givenValues before key value behind "help").isSome := fun hhelp =>
      h .help (readConfig_eq_help_iff.mpr hhelp)
    refine ⟨hhelp, fun ⟨config, hconfig⟩ => ?_⟩
    exact h (.config config) (readConfig_eq_config_iff.mpr
      ⟨Option.not_isSome_iff_eq_none.mp hhelp, hconfig⟩)
  · rintro ⟨hhelp, hnone⟩ parsed hparsed
    cases parsed with
    | help => exact hhelp (readConfig_eq_help_iff.mp hparsed)
    | config config => exact hnone ⟨config, (readConfig_eq_config_iff.mp hparsed).2⟩

/-- Where the text before the `=` is taken, the forms agree when the value is not read, or
when both are rejected. -/
theorem readConfig_given_eq_iff (h : '=' ∈ value.toList) :
    (readConfig protocol environment
        (givenValues before key (beforeEquals value) behind)).toOption =
        (readConfig protocol environment (givenValues before key value behind)).toOption ↔
      AsksHelp before behind ∨ Overridden key behind ∨
        ¬Acceptable protocol environment (givenValues before key (beforeEquals value) behind) ∧
          ¬Acceptable protocol environment (givenValues before key value behind) := by
  by_cases hhelp : AsksHelp before behind
  · have hask : ∀ text, readConfig protocol environment (givenValues before key text behind) =
        .ok .help := fun text =>
      readConfig_eq_help_iff.mpr (isSome_givenValues_help.mpr hhelp)
    simp [hask, hhelp]
  · by_cases hlast : Overridden key behind
    · rw [givenValues_overridden hlast (beforeEquals value) value]
      simp [hlast]
    · simp only [hhelp, hlast, false_or]
      have hno : ∀ text, givenValues before key text behind "help" = none := fun text =>
        Option.not_isSome_iff_eq_none.mp fun h => hhelp (isSome_givenValues_help.mp h)
      constructor
      · intro heq
        -- a configuration of one form would be one of the other
        refine ⟨fun haccept => ?_, fun haccept => ?_⟩
        · obtain ⟨config, hpart⟩ := exists_configures_iff.mpr haccept
          have hwhole := eq_ok_of_toOption_eq heq (readConfig_eq_config_iff.mpr ⟨hno _, hpart⟩)
          exact readConfig_given_ne h hlast (readConfig_eq_config_iff.mp hwhole).2 hpart
        · obtain ⟨config, hwhole⟩ := exists_configures_iff.mpr haccept
          have hpart := eq_ok_of_toOption_eq heq.symm
            (readConfig_eq_config_iff.mpr ⟨hno _, hwhole⟩)
          exact readConfig_given_ne h hlast hwhole (readConfig_eq_config_iff.mp hpart).2
      · rintro ⟨hpart, hwhole⟩
        rw [readConfig_toOption_eq_none_iff.mpr ⟨hhelp, hpart⟩,
          readConfig_toOption_eq_none_iff.mpr ⟨hhelp, hwhole⟩]

/-- **When an inline value means the same as a separate one**: it has no `=`, or neither
form takes it, or the text before its `=` is there and nobody reads it, or both forms are
rejected for some value. -/
theorem inline_agrees_iff (protocol : String → Option String) (environment : Option String)
    (before behind : List Group) (key : ValueKey) (value : String) :
    (parseArgs protocol environment (argumentsInline before key value behind)).toOption =
        (parseArgs protocol environment (argumentsSeparate before key value behind)).toOption ↔
      '=' ∉ value.toList ∨ dashed value = true ∨
        (beforeEquals value ≠ "" ∧ (AsksHelp before behind ∨ Overridden key behind)) ∨
        (¬AsksHelp before behind ∧
          (beforeEquals value = "" ∨
            ¬Acceptable protocol environment
              (givenValues before key (beforeEquals value) behind)) ∧
          ¬Acceptable protocol environment (givenValues before key value behind)) := by
  rw [parseArgs_inline, parseArgs_separate]
  by_cases hequals : '=' ∈ value.toList
  · by_cases hdashed : dashed value = true
    · have hpart : ¬Usable (beforeEquals value) := fun h => by
        rw [← dashed_beforeEquals, h.2] at hdashed
        exact Bool.noConfusion hdashed
      have hwhole : ¬Usable value := fun h => by
        rw [h.2] at hdashed
        exact Bool.noConfusion hdashed
      simp [hpart, hwhole, hdashed]
    · have hplain : dashed value = false := (Bool.not_eq_true _).mp hdashed
      have hwhole : Usable value := by
        refine ⟨?_, hplain⟩
        rintro rfl
        exact absurd hequals (by decide)
      rw [if_pos hwhole]
      by_cases hempty : beforeEquals value = ""
      · have hpart : ¬Usable (beforeEquals value) := fun h => h.1 hempty
        rw [if_neg hpart]
        simpa [hequals, hplain, hempty, Except.toOption] using
          eq_comm.trans readConfig_toOption_eq_none_iff
      · have hpart : Usable (beforeEquals value) :=
          ⟨hempty, dashed_beforeEquals.trans hplain⟩
        rw [if_pos hpart, readConfig_given_eq_iff hequals]
        by_cases hhelp : AsksHelp before behind
        · simp [hempty, hhelp]
        · simp [hequals, hplain, hempty, hhelp]
  · rw [beforeEquals_eq_self hequals]
    simp [hequals]

/-- The protocol of the targets below. -/
def searchProtocol (url : String) : Option String :=
  if "http://".toList.isPrefixOf url.toList then some "http:" else none

/-- A target with a query. -/
def pageTwo : String := "http://localhost:3000/v1/restaurants?page=2"

/-- The query of a target is lost when the target is written inline. -/
theorem query_is_lost :
    (parseArgs searchProtocol none (argumentsInline [] ⟨"url", by decide⟩ pageTwo [])).toOption =
        some (.config ⟨"http://localhost:3000/v1/restaurants?page", 5, 10, 2, 10, 2000, false,
          none, none⟩) ∧
      (parseArgs searchProtocol none
          (argumentsSeparate [] ⟨"url", by decide⟩ pageTwo [])).toOption =
        some (.config ⟨pageTwo, 5, 10, 2, 10, 2000, false, none, none⟩) ∧
      (parseArgs searchProtocol none
          (argumentsInline [] ⟨"url", by decide⟩ pageTwo [])).toOption ≠
        (parseArgs searchProtocol none
          (argumentsSeparate [] ⟨"url", by decide⟩ pageTwo [])).toOption := by
  decide +kernel

end ScalingLab

end ScaleForge
