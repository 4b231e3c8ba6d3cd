import ScaleForge.Lib.Assignment
import ScaleForge.ScalingLab.Arguments

/-!
# Groups of arguments

A well-formed command line is a list of groups: a flag, an option with its value in one
argument, or an option with its value in the next.  The loop consumes one group after
the other, whatever stands around it, and assigns its value to its key.

## Main definitions

* `beforeEquals` — what the collector keeps of a value that is written inline.
* `Group` — a well-formed group; `Group.tokens` are its arguments.
* `Bounded` — the bounds of a configuration.

## Main results

* `collectFrom_tokens` — one group is one assignment.
* `parseArgs_groups` — a command line is a run of assignments.
* `arguments_bounded` — **a configuration is in its bounds, and the order of the groups
  counts within a key alone.**
-/

namespace ScaleForge

namespace ScalingLab

open Assignment Transaction

/-! ### Splitting an argument -/

/-- The text up to its first `=`. -/
def beforeEquals (text : String) : String := String.ofList (text.toList.takeWhile (· ≠ '='))

theorem beq_equals_of_not_mem {text : List Char} (h : '=' ∉ text) :
    ∀ c ∈ text, (c == '=') = false := by
  intro c hc
  simpa using ne_of_mem_of_not_mem hc h

theorem take_one_splitOn (text : List Char) :
    (text.splitOn '=').take 1 = [text.takeWhile (· ≠ '=')] := by
  rw [List.splitOn_eq_splitOnP]
  by_cases h : '=' ∈ text
  · obtain ⟨front, rest, rfl, hfront⟩ := List.eq_append_cons_of_mem h
    have hkeep := beq_equals_of_not_mem hfront
    rw [List.splitOnP_append_cons_of_forall_mem hkeep '=' (by decide), List.take_succ_cons,
      List.take_zero, List.takeWhile_append_of_pos fun c hc => by simpa using hkeep c hc]
    simp
  · have hkeep := beq_equals_of_not_mem h
    rw [List.splitOnP_eq_singleton hkeep, List.take_succ_cons, List.take_zero,
      List.takeWhile_eq_self_iff.mpr fun c hc => by simpa using hkeep c hc]

theorem splitOption_option {key : String} (h : '=' ∉ key.toList) :
    splitOption ("--" ++ key) = [key] := by
  have hbody : ("--" ++ key).toList.drop 2 = key.toList := by simp
  rw [splitOption, hbody, List.splitOn_eq_splitOnP,
    List.splitOnP_eq_singleton (beq_equals_of_not_mem h)]
  simp

/-- The inline value ends at its first `=`. -/
theorem splitOption_inline {key : String} (h : '=' ∉ key.toList) (text : String) :
    splitOption ("--" ++ key ++ "=" ++ text) = [key, beforeEquals text] := by
  have hbody : ("--" ++ key ++ "=" ++ text).toList.drop 2 = key.toList ++ '=' :: text.toList := by
    simp
  have hsplit : (key.toList ++ '=' :: text.toList).splitOn '=' =
      key.toList :: text.toList.splitOn '=' := by
    simp only [List.splitOn_eq_splitOnP]
    exact List.splitOnP_append_cons_of_forall_mem (beq_equals_of_not_mem h) '=' (by decide)
      text.toList
  rw [splitOption, hbody, hsplit, List.take_succ_cons, take_one_splitOn]
  simp [beforeEquals]

/-! ### The options -/

/-- The name of an option with a value. -/
abbrev ValueKey := {key : String // key ∈ valueOptions}

/-- The name of an option without one. -/
abbrev FlagKey := {key : String // key ∈ flagOptions}

/-- A value that the collector takes. -/
def Usable (value : String) : Prop := value ≠ "" ∧ dashed value = false

instance (value : String) : Decidable (Usable value) :=
  inferInstanceAs (Decidable (_ ∧ _))

theorem equals_not_mem {key : String} (h : key ∈ allowed) : '=' ∉ key.toList := by
  have hall : ∀ key ∈ allowed, '=' ∉ key.toList := by decide
  exact hall key h

theorem ne_empty_of_mem {key : String} (h : key ∈ allowed) : key ≠ "" := by
  rintro rfl
  exact absurd h (by decide)

theorem not_flag_of_value {key : String} (h : key ∈ valueOptions) : key ∉ flagOptions := by
  have hall : ∀ key ∈ valueOptions, key ∉ flagOptions := by decide
  exact hall key h

theorem dashed_append (text : String) : dashed ("--" ++ text) = true := by
  simp [dashed]

theorem takeOption_flag (values : Values) (key : FlagKey) (next : Option String) :
    takeOption values ("--" ++ key.1) next = .ok (values.set key.1 .flag, false) := by
  have hkey : key.1 ∈ allowed := List.mem_append_right _ key.2
  simp [takeOption, dashed_append, splitOption_option (equals_not_mem hkey), ne_empty_of_mem hkey,
    hkey, key.2]

/-- An option takes its inline value, or else the next argument. -/
theorem takeOption_value (values : Values) (key : ValueKey) {argument value : String}
    {inlineValue next : Option String} (hdashed : dashed argument = true)
    (hsplit : splitOption argument = key.1 :: inlineValue.toList)
    (hvalue : inlineValue.or next = some value) :
    takeOption values argument next =
      if Usable value then .ok (values.set key.1 (.text value), inlineValue.isNone)
      else .error ("--" ++ key.1 ++ " needs a value") := by
  have hkey : key.1 ∈ allowed := List.mem_append_left _ key.2
  have hflag := not_flag_of_value key.2
  have hinline : (splitOption argument)[1]? = inlineValue := by
    rw [hsplit]
    cases inlineValue with
    | none => rfl
    | some value => rfl
  have hraw : (splitOption argument)[0]?.getD "" = key.1 := by
    rw [hsplit]
    rfl
  unfold takeOption
  simp only [hdashed, hinline, hraw, hvalue]
  by_cases h : Usable value
  · simp [ne_empty_of_mem hkey, hkey, hflag, h, h.1, h.2]
  · have hbad : value = "" ∨ dashed value = true := by
      simpa [Usable, or_iff_not_imp_left] using h
    simp [ne_empty_of_mem hkey, hkey, hflag, h, hbad]

/-- An inline value is taken up to its first `=`. -/
theorem takeOption_inline (values : Values) (key : ValueKey) (text : String)
    (next : Option String) :
    takeOption values ("--" ++ key.1 ++ "=" ++ text) next =
      if Usable (beforeEquals text) then
        .ok (values.set key.1 (.text (beforeEquals text)), false)
      else .error ("--" ++ key.1 ++ " needs a value") := by
  have hkey : key.1 ∈ allowed := List.mem_append_left _ key.2
  have hdashed : dashed ("--" ++ key.1 ++ "=" ++ text) = true := by
    rw [String.append_assoc, String.append_assoc, dashed_append]
  have hsplit : splitOption ("--" ++ key.1 ++ "=" ++ text) =
      key.1 :: (some (beforeEquals text)).toList := splitOption_inline (equals_not_mem hkey) text
  exact takeOption_value values key hdashed hsplit rfl

/-- A separate value is taken whole. -/
theorem takeOption_separate (values : Values) (key : ValueKey) (text : String) :
    takeOption values ("--" ++ key.1) (some text) =
      if Usable text then .ok (values.set key.1 (.text text), true)
      else .error ("--" ++ key.1 ++ " needs a value") := by
  have hkey : key.1 ∈ allowed := List.mem_append_left _ key.2
  have hsplit : splitOption ("--" ++ key.1) = key.1 :: (none : Option String).toList :=
    splitOption_option (equals_not_mem hkey)
  exact takeOption_value values key (dashed_append key.1) hsplit rfl

theorem collectFrom_flag (values : Values) (key : FlagKey) (argv : List String) :
    collectFrom values (("--" ++ key.1) :: argv) = collectFrom (values.set key.1 .flag) argv := by
  rw [collectFrom, takeOption_flag]

theorem collectFrom_inline (values : Values) (key : ValueKey) (text : String)
    (argv : List String) :
    collectFrom values (("--" ++ key.1 ++ "=" ++ text) :: argv) =
      if Usable (beforeEquals text) then
        collectFrom (values.set key.1 (.text (beforeEquals text))) argv
      else .error ("--" ++ key.1 ++ " needs a value") := by
  rw [collectFrom, takeOption_inline]
  by_cases h : Usable (beforeEquals text)
  · rw [if_pos h, if_pos h]
  · rw [if_neg h, if_neg h]

theorem collectFrom_separate (values : Values) (key : ValueKey) (text : String)
    (argv : List String) :
    collectFrom values (("--" ++ key.1) :: text :: argv) =
      if Usable text then collectFrom (values.set key.1 (.text text)) argv
      else .error ("--" ++ key.1 ++ " needs a value") := by
  rw [collectFrom, List.head?_cons, takeOption_separate]
  by_cases h : Usable text
  · rw [if_pos h, if_pos h]
  · rw [if_neg h, if_neg h]

/-! ### Groups -/

/-- A well-formed group of arguments, with a value the collector takes. -/
inductive Group
  /-- `--key` -/
  | flag (key : FlagKey)
  /-- `--key=text` -/
  | inline (key : ValueKey) (text : String) (usable : Usable (beforeEquals text))
  /-- `--key text` -/
  | separate (key : ValueKey) (text : String) (usable : Usable text)

namespace Group

def key : Group → String
  | flag key => key.1
  | inline key _ _ => key.1
  | separate key _ _ => key.1

/-- The value the collector takes. -/
def value : Group → OptionValue
  | flag _ => .flag
  | inline _ text _ => .text (beforeEquals text)
  | separate _ text _ => .text text

def tokens : Group → List String
  | flag key => ["--" ++ key.1]
  | inline key text _ => ["--" ++ key.1 ++ "=" ++ text]
  | separate key text _ => ["--" ++ key.1, text]

end Group

/-- **One group is one assignment**, whatever follows it. -/
theorem collectFrom_tokens (values : Values) (g : Group) (argv : List String) :
    collectFrom values (g.tokens ++ argv) =
      collectFrom (assign Group.key Group.value values g) argv := by
  cases g with
  | flag key => exact collectFrom_flag values key argv
  | inline key text usable =>
    exact (collectFrom_inline values key text argv).trans (if_pos usable)
  | separate key text usable =>
    exact (collectFrom_separate values key text argv).trans (if_pos usable)

theorem collectFrom_groups (values : Values) (gs : List Group) (argv : List String) :
    collectFrom values (gs.flatMap Group.tokens ++ argv) =
      collectFrom (gs.foldl (assign Group.key Group.value) values) argv := by
  induction gs generalizing values with
  | nil => rfl
  | cons g gs ih =>
    rw [List.flatMap_cons, List.append_assoc, collectFrom_tokens, ih, List.foldl_cons]

theorem collectArguments_groups (gs : List Group) :
    collectArguments (gs.flatMap Group.tokens) =
      .ok (gs.foldl (assign Group.key Group.value) Values.empty) := by
  have hrun := collectFrom_groups Values.empty gs []
  rwa [List.append_nil] at hrun

/-- **A command line is a run of assignments.** -/
theorem parseArgs_groups (protocol : String → Option String) (environment : Option String)
    (gs : List Group) :
    parseArgs protocol environment (gs.flatMap Group.tokens) =
      readConfig protocol environment (gs.foldl (assign Group.key Group.value) Values.empty) := by
  rw [parseArgs, collectArguments_groups]
  rfl

/-! ### Bounds and order -/

/-- The bounds of a configuration; its numbers are finite. -/
structure Bounded (protocol : String → Option String) (config : LabConfig) : Prop where
  ratePerSecond : tenth.value ≤ config.ratePerSecond
  durationSeconds : tenth.value ≤ config.durationSeconds
  warmupSeconds : 0 ≤ config.warmupSeconds
  concurrency : 1 ≤ config.concurrency
  timeoutMs : 1 ≤ config.timeoutMs
  sloP99Ms : ∀ slo ∈ config.sloP99Ms, 0 ≤ slo
  maxErrorRate : ∀ rate ∈ config.maxErrorRate, 0 ≤ rate ∧ rate ≤ 1
  url : protocol config.url = some "http:" ∨ protocol config.url = some "https:"

theorem webUrl_eq_true_iff {protocol : String → Option String} {url : String} :
    webUrl protocol url = true ↔ protocol url = some "http:" ∨ protocol url = some "https:" := by
  unfold webUrl
  cases protocol url with
  | none => simp
  | some p => simp

/-- What the checks read is in the bounds. -/
theorem Configures.bounded {protocol : String → Option String} {environment : Option String}
    {values : Values} {config : LabConfig}
    (h : Configures protocol environment values config) : Bounded protocol config where
  ratePerSecond := le_of_outside (readNumber_bounded (by decide +kernel) h.ratePerSecond)
  durationSeconds := le_of_outside (readNumber_bounded (by decide +kernel) h.durationSeconds)
  warmupSeconds := le_of_outside (readNumber_bounded (by decide +kernel) h.warmupSeconds)
  concurrency := by
    obtain ⟨x, hx, hconcurrency⟩ := h.concurrency
    have hone : (1 : ℚ) ≤ x := le_of_outside (readNumber_bounded (by decide +kernel) hx)
    rw [hconcurrency]
    exact Nat.le_floor (by simpa using hone)
  timeoutMs := le_of_outside (readNumber_bounded (by decide +kernel) h.timeoutMs)
  sloP99Ms := by
    rintro slo hslo
    rcases readOptional_eq_ok_iff.mp h.sloP99Ms with ⟨-, hnone⟩ | ⟨-, y, hread, hy⟩
    · rw [hnone] at hslo
      exact absurd hslo (Option.not_mem_none slo)
    · rw [hy] at hslo
      obtain rfl := Option.mem_some_iff.mp hslo
      exact le_of_outside (readNumber_bounded (by decide +kernel) hread)
  maxErrorRate := by
    rintro rate hrate
    rcases readOptional_eq_ok_iff.mp h.maxErrorRate with ⟨-, hnone⟩ | ⟨-, y, hread, hy⟩
    · rw [hnone] at hrate
      exact absurd hrate (Option.not_mem_none rate)
    · rw [hy] at hrate
      obtain rfl := Option.mem_some_iff.mp hrate
      have hinside := readNumber_bounded (by decide +kernel) hread
      have hupper : NumberOptions.upper { min := zero, max := one } = some one := by
        decide +kernel
      exact ⟨le_of_outside hinside, le_upper_of_outside hupper hinside⟩
  url := webUrl_eq_true_iff.mp h.web

/-- The same groups, those of one key in the same order. -/
def Reorders (gs hs : List Group) : Prop :=
  ∀ key, gs.filter (fun g => g.key = key) = hs.filter fun g => g.key = key

/-- **A configuration is in its bounds, and the order of the groups counts within a key
alone**, whose last value is the one taken. -/
theorem arguments_bounded (protocol : String → Option String) (environment : Option String) :
    (∀ argv config, parseArgs protocol environment argv = .ok (.config config) →
      Bounded protocol config) ∧
    (∀ gs hs, Reorders gs hs →
      parseArgs protocol environment (gs.flatMap Group.tokens) =
        parseArgs protocol environment (hs.flatMap Group.tokens)) ∧
    (∀ gs, ∃ values, collectArguments (gs.flatMap Group.tokens) = .ok values ∧
      ∀ key, values key = lastValue Group.key Group.value gs key) ∧
    ∀ gs g hs, (∃ g' ∈ hs, g'.key = g.key) →
      parseArgs protocol environment ((gs ++ g :: hs).flatMap Group.tokens) =
        parseArgs protocol environment ((gs ++ hs).flatMap Group.tokens) := by
  refine ⟨fun argv config h => ?_, fun gs hs h => ?_, fun gs => ?_, fun gs g hs h => ?_⟩
  · obtain ⟨values, -, hread⟩ := bind_eq_ok_iff.mp h
    exact (readConfig_eq_config_iff.mp hread).2.bounded
  · rw [parseArgs_groups, parseArgs_groups, foldl_assign_congr _ _ h]
  · refine ⟨_, collectArguments_groups gs, fun key => ?_⟩
    rw [foldl_assign_apply]
    exact Option.or_none
  · rw [parseArgs_groups, parseArgs_groups, foldl_assign_overridden _ _ h]

/-- The protocol of a target like the two below. -/
def sampleProtocol (url : String) : Option String :=
  if "https://".toList.isPrefixOf url.toList then some "https:" else none

/-- Two rates, a flag and a target, in two orders. -/
def sampleGroups : List Group × List Group :=
  let url := Group.separate ⟨"url", by decide⟩ "https://example.test/v1/restaurants" (by decide)
  let slow := Group.inline ⟨"rate", by decide⟩ "0.5" (by decide)
  let fast := Group.separate ⟨"rate", by decide⟩ "20" (by decide)
  let json := Group.flag ⟨"json", by decide⟩
  ([slow, json, fast, url], [url, slow, fast, json])

theorem sample_arguments_bounded :
    (∃ config, parseArgs sampleProtocol none (sampleGroups.1.flatMap Group.tokens) =
        .ok (.config config) ∧ config.ratePerSecond = 20 ∧ Bounded sampleProtocol config) ∧
      parseArgs sampleProtocol none (sampleGroups.1.flatMap Group.tokens) =
        parseArgs sampleProtocol none (sampleGroups.2.flatMap Group.tokens) := by
  obtain ⟨hbounded, horder, -, -⟩ := arguments_bounded sampleProtocol none
  have hconfig : parseArgs sampleProtocol none (sampleGroups.1.flatMap Group.tokens) =
      .ok (.config ⟨"https://example.test/v1/restaurants", 20, 10, 2, 10, 2000, true, none,
        none⟩) := by decide +kernel
  refine ⟨⟨_, hconfig, rfl, hbounded _ _ hconfig⟩, horder _ _ fun key => ?_⟩
  by_cases hrate : "rate" = key
  · subst hrate
    rfl
  · by_cases hurl : "url" = key
    · subst hurl
      rfl
    · by_cases hjson : "json" = key
      · subst hjson
        rfl
      · simp [sampleGroups, Group.key, hrate, hurl, hjson]

end ScalingLab

end ScaleForge
