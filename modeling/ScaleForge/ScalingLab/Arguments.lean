import Mathlib.Logic.Function.Basic
import ScaleForge.Lib.EcmaNumber
import ScaleForge.Lib.Transaction
import ScaleForge.ScalingLab.Report

/-!
# The arguments of the load probe

`collectArguments` walks over the arguments, one or two at a time, and keeps the last
value of every option; `parseArgs` checks the values and fills in the defaults.  An
argument is a string of characters; a number is the double it is read as.  What the URL
parser makes of a text is a parameter: the protocol, or nothing when it throws.

## Main definitions

* `Values` — the map of the options given.
* `collectArguments` — the loop over `argv`.
* `readNumber` — the value of an option as a number in its bounds.
* `parseArgs` — the configuration, a request for help, or the text of the error.

## Main results

* `readNumber_bounded` — a number read lies in the bounds.
* `readConfig_eq_config_iff` — what a configuration is made of.
-/

namespace ScaleForge

namespace ScalingLab

open EcmaNumber Transaction

/-! ### Collecting -/

/-- `string | boolean`; the only boolean is `true`. -/
inductive OptionValue
  | text (value : String)
  | flag
  deriving DecidableEq

/-- `Map<string, string | boolean>`. -/
abbrev Values := String → Option OptionValue

/-- `values.set(key, value)`. -/
def Values.set (values : Values) (key : String) (value : OptionValue) : Values :=
  Function.update values key (some value)

/-- `new Map()`. -/
def Values.empty : Values := fun _ => none

/-- The options that take a value. -/
def valueOptions : List String :=
  ["url", "rate", "duration", "warmup", "concurrency", "timeout", "slo-p99", "max-error-rate"]

/-- The options that take none. -/
def flagOptions : List String := ["json", "help"]

/-- `allowed`. -/
def allowed : List String := valueOptions ++ flagOptions

/-- `argument.startsWith('--')`. -/
def dashed (argument : String) : Bool := "--".toList.isPrefixOf argument.toList

/-- `argument.slice(2).split('=', 2)`: what stands behind a second `=` is dropped. -/
def splitOption (argument : String) : List String :=
  (((argument.toList.drop 2).splitOn '=').take 2).map String.ofList

/-- The body of the loop, for an argument and the one after it: the map, and whether the
next argument is skipped. -/
def takeOption (values : Values) (argument : String) (next : Option String) :
    Except String (Values × Bool) :=
  if !dashed argument then .error ("Unexpected argument: " ++ argument)
  else
    let rawKey := (splitOption argument)[0]?.getD ""
    let inlineValue := (splitOption argument)[1]?
    if rawKey = "" ∨ rawKey ∉ allowed then .error ("Unknown option: --" ++ rawKey)
    else if rawKey ∈ flagOptions then
      if inlineValue.isSome then .error ("--" ++ rawKey ++ " does not take a value")
      else .ok (values.set rawKey .flag, false)
    else
      -- `inlineValue ?? argv[index + 1]`
      match inlineValue.or next with
      | none => .error ("--" ++ rawKey ++ " needs a value")
      | some value =>
        if value = "" ∨ dashed value then .error ("--" ++ rawKey ++ " needs a value")
        else .ok (values.set rawKey (.text value), inlineValue.isNone)

/-- The loop of `collectArguments`, from an index on. -/
def collectFrom (values : Values) : List String → Except String Values
  | [] => .ok values
  | argument :: argv =>
    match takeOption values argument argv.head? with
    | .error e => .error e
    | .ok (values, false) => collectFrom values argv
    | .ok (values, true) =>
      match argv with
      | [] => .ok values
      | _ :: argv => collectFrom values argv

/-- `collectArguments`. -/
def collectArguments (argv : List String) : Except String Values := collectFrom Values.empty argv

/-! ### Numbers -/

/-- A number the source writes down, as the double it is and as a template literal
writes it. -/
structure NumberLiteral where
  value : ℚ
  text : String
  deriving DecidableEq

/-- `0.1`. -/
def tenth : NumberLiteral := ⟨3602879701896397 / 2 ^ 55, "0.1"⟩

example : toDouble (1 / 10) = .finite tenth.value := by decide +kernel

def zero : NumberLiteral := ⟨0, "0"⟩

def one : NumberLiteral := ⟨1, "1"⟩

/-- `{ min: number; max?: number }`. -/
structure NumberOptions where
  min : NumberLiteral
  max : Option NumberLiteral := none

/-- `options.max` where it counts: a zero is no bound. -/
def NumberOptions.upper (options : NumberOptions) : Option NumberLiteral :=
  options.max.filter fun max => max.value ≠ 0

/-- The range in the text of the error. -/
def NumberOptions.range (options : NumberOptions) : String :=
  match options.upper with
  | some max => options.min.text ++ ".." ++ max.text
  | none => "at least " ++ options.min.text

/-- `parsed < options.min || (options.max && parsed > options.max)`. -/
def NumberOptions.outside (options : NumberOptions) (parsed : ℚ) : Bool :=
  decide (parsed < options.min.value) || options.upper.any fun max => decide (max.value < parsed)

/-- `readNumber`. -/
def readNumber (values : Values) (key : String) (fallback : ℚ) (options : NumberOptions) :
    Except String ℚ :=
  match values key with
  | none => .ok fallback
  | some .flag => .error ("--" ++ key ++ " needs a value")
  | some (.text raw) =>
    if trim raw.toList = [] then .error ("--" ++ key ++ " needs a value")
    else
      match Number.ofChars raw.toList with
      | .finite parsed =>
        if options.outside parsed then .error ("--" ++ key ++ " must be " ++ options.range)
        else .ok parsed
      | _ => .error ("--" ++ key ++ " must be " ++ options.range)

/-- `values.has(key) ? readNumber(values, key, 0, options) : undefined`. -/
def readOptional (values : Values) (key : String) (options : NumberOptions) :
    Except String (Option ℚ) :=
  if (values key).isSome then (readNumber values key 0 options).map some else .ok none

/-! ### The configuration -/

/-- `LabConfig | { help: true }`. -/
inductive Parsed
  | help
  | config (config : LabConfig)
  deriving DecidableEq

section Parse

variable (protocol : String → Option String) (environment : Option String)

/-- The target, with `SCALEFORGE_LAB_URL` for a default when it is set. -/
def targetUrl (values : Values) : String :=
  match values "url" with
  | some (.text url) => url
  | some .flag => "http://localhost:3000/v1/health/live"
  | none => environment.getD "http://localhost:3000/v1/health/live"

/-- `['http:', 'https:'].includes(new URL(url).protocol)`, which a throw fails too. -/
def webUrl (url : String) : Bool := (protocol url).any fun p => p ∈ ["http:", "https:"]

/-- `parseArgs` after the arguments are collected. -/
def readConfig (values : Values) : Except String Parsed :=
  if (values "help").isSome then .ok .help
  else if !webUrl protocol (targetUrl environment values) then
    .error "--url must be a valid HTTP(S) URL"
  else do
    let sloP99 ← readOptional values "slo-p99" { min := zero }
    let maxErrorRate ← readOptional values "max-error-rate" { min := zero, max := one }
    let ratePerSecond ← readNumber values "rate" 5 { min := tenth }
    let durationSeconds ← readNumber values "duration" 10 { min := tenth }
    let warmupSeconds ← readNumber values "warmup" 2 { min := zero }
    let concurrency ← readNumber values "concurrency" 10 { min := one }
    let timeoutMs ← readNumber values "timeout" 2000 { min := one }
    return .config
      { url := targetUrl environment values
        ratePerSecond := ratePerSecond
        durationSeconds := durationSeconds
        warmupSeconds := warmupSeconds
        concurrency := ⌊concurrency⌋₊
        timeoutMs := timeoutMs
        json := (values "json").isSome
        sloP99Ms := sloP99
        maxErrorRate := maxErrorRate }

/-- `parseArgs`. -/
def parseArgs (argv : List String) : Except String Parsed := do
  let values ← collectArguments argv
  readConfig protocol environment values

end Parse

/-! ### What a number read is -/

/-- The value of an option passes the checks of `readNumber`; an option not given does. -/
def NumberOptions.admits (options : NumberOptions) : Option OptionValue → Bool
  | none => true
  | some .flag => false
  | some (.text raw) =>
    match Number.ofChars raw.toList with
    | .finite parsed => trim raw.toList ≠ [] && !options.outside parsed
    | _ => false

theorem exists_readNumber_iff {values : Values} {key : String} {options : NumberOptions}
    (fallback : ℚ) :
    (∃ x, readNumber values key fallback options = .ok x) ↔ options.admits (values key) := by
  unfold readNumber NumberOptions.admits
  cases values key with
  | none => simp
  | some value =>
    cases value with
    | flag => simp
    | text raw =>
      by_cases htrim : trim raw.toList = []
      · cases hnumber : Number.ofChars raw.toList <;> simp [htrim, hnumber]
      · cases hnumber : Number.ofChars raw.toList with
        | nan => simp [htrim, hnumber]
        | infinity negative => simp [htrim, hnumber]
        | finite parsed =>
          cases houtside : options.outside parsed
          · simp [htrim, hnumber, houtside]
          · simp [htrim, hnumber, houtside]

/-- **A number read lies in the bounds**, when the default does. -/
theorem readNumber_bounded {values : Values} {key : String} {fallback x : ℚ}
    {options : NumberOptions} (hfallback : options.outside fallback = false)
    (h : readNumber values key fallback options = .ok x) : options.outside x = false := by
  unfold readNumber at h
  split at h
  · rwa [← Except.ok.inj h]
  · contradiction
  · split at h
    · contradiction
    · split at h
      · split at h
        · contradiction
        · rename_i hinside
          rw [← Except.ok.inj h]
          simpa using hinside
      · contradiction

theorem le_of_outside {options : NumberOptions} {x : ℚ} (h : options.outside x = false) :
    options.min.value ≤ x := by
  rw [NumberOptions.outside, Bool.or_eq_false_iff, decide_eq_false_iff_not, not_lt] at h
  exact h.1

theorem le_upper_of_outside {options : NumberOptions} {max : NumberLiteral} {x : ℚ}
    (hmax : options.upper = some max) (h : options.outside x = false) : x ≤ max.value := by
  rw [NumberOptions.outside, Bool.or_eq_false_iff, hmax, Option.any_some,
    decide_eq_false_iff_not, decide_eq_false_iff_not, not_lt, not_lt] at h
  exact h.2

/-- An optional number is absent with its option. -/
theorem readOptional_eq_ok_iff {values : Values} {key : String} {options : NumberOptions}
    {x : Option ℚ} :
    readOptional values key options = .ok x ↔
      (values key = none ∧ x = none) ∨
        ((values key).isSome ∧ ∃ y, readNumber values key 0 options = .ok y ∧ x = some y) := by
  unfold readOptional
  cases hvalue : values key with
  | none => simp [eq_comm]
  | some value =>
    cases hread : readNumber values key 0 options with
    | error e => simp [Except.map]
    | ok y => simp [Except.map, eq_comm]

theorem exists_readOptional_iff {values : Values} {key : String} {options : NumberOptions} :
    (∃ x, readOptional values key options = .ok x) ↔ options.admits (values key) := by
  rw [← exists_readNumber_iff 0]
  simp only [readOptional_eq_ok_iff]
  constructor
  · rintro ⟨x, ⟨hnone, -⟩ | ⟨-, y, hread, -⟩⟩
    · exact ⟨0, by rw [readNumber, hnone]⟩
    · exact ⟨y, hread⟩
  · rintro ⟨y, hread⟩
    cases hvalue : values key with
    | none => exact ⟨none, Or.inl ⟨rfl, rfl⟩⟩
    | some value => exact ⟨some y, Or.inr ⟨rfl, y, hread, rfl⟩⟩

/-! ### What a configuration is made of -/

section Configuration

variable (protocol : String → Option String) (environment : Option String) (values : Values)

/-- The configuration is what the checks read from the values. -/
structure Configures (config : LabConfig) : Prop where
  web : webUrl protocol config.url
  url : config.url = targetUrl environment values
  ratePerSecond : readNumber values "rate" 5 { min := tenth } = .ok config.ratePerSecond
  durationSeconds :
    readNumber values "duration" 10 { min := tenth } = .ok config.durationSeconds
  warmupSeconds : readNumber values "warmup" 2 { min := zero } = .ok config.warmupSeconds
  concurrency : ∃ x, readNumber values "concurrency" 10 { min := one } = .ok x ∧
    config.concurrency = ⌊x⌋₊
  timeoutMs : readNumber values "timeout" 2000 { min := one } = .ok config.timeoutMs
  json : config.json = (values "json").isSome
  sloP99Ms : readOptional values "slo-p99" { min := zero } = .ok config.sloP99Ms
  maxErrorRate :
    readOptional values "max-error-rate" { min := zero, max := one } = .ok config.maxErrorRate

/-- The options read as numbers, with their bounds. -/
def numberOptions : List (String × NumberOptions) :=
  [("slo-p99", { min := zero }), ("max-error-rate", { min := zero, max := one }),
    ("rate", { min := tenth }), ("duration", { min := tenth }), ("warmup", { min := zero }),
    ("concurrency", { min := one }), ("timeout", { min := one })]

/-- Every value passes its own check. -/
structure Acceptable : Prop where
  web : webUrl protocol (targetUrl environment values)
  numbers : ∀ o ∈ numberOptions, o.2.admits (values o.1)

variable {protocol environment values}

/-- **A configuration comes of the values alone**, and only without `--help`. -/
theorem readConfig_eq_config_iff {config : LabConfig} :
    readConfig protocol environment values = .ok (.config config) ↔
      values "help" = none ∧ Configures protocol environment values config := by
  unfold readConfig
  cases hhelp : values "help" with
  | some value => simp
  | none =>
    cases hweb : webUrl protocol (targetUrl environment values) with
    | false =>
      refine ⟨fun h => by simp at h, fun ⟨_, h⟩ => ?_⟩
      have hurl : webUrl protocol config.url := h.web
      rw [h.url, hweb] at hurl
      exact Bool.noConfusion hurl
    | true =>
      simp only [Option.isSome_none, Bool.false_eq_true, if_false, Bool.not_true, bind_eq_ok_iff]
      constructor
      · rintro ⟨slo, hslo, max, hmax, rate, hrate, duration, hduration, warmup, hwarmup,
          concurrency, hconcurrency, timeout, htimeout, h⟩
        obtain rfl := Parsed.config.inj (Except.ok.inj h)
        exact ⟨trivial, hweb, rfl, hrate, hduration, hwarmup, ⟨concurrency, hconcurrency, rfl⟩,
          htimeout, rfl, hslo, hmax⟩
      · rintro ⟨-, h⟩
        obtain ⟨x, hx, hconcurrency⟩ := h.concurrency
        refine ⟨_, h.sloP99Ms, _, h.maxErrorRate, _, h.ratePerSecond, _, h.durationSeconds, _,
          h.warmupSeconds, x, hx, _, h.timeoutMs, ?_⟩
        rw [← h.url, ← h.json, ← hconcurrency]
        rfl

theorem readConfig_eq_help_iff :
    readConfig protocol environment values = .ok .help ↔ (values "help").isSome := by
  unfold readConfig
  split
  · simpa
  · rename_i hhelp
    refine ⟨fun h => ?_, fun h => absurd h hhelp⟩
    split at h
    · contradiction
    · simp only [bind_eq_ok_iff] at h
      obtain ⟨_, -, _, -, _, -, _, -, _, -, _, -, _, -, h⟩ := h
      exact Parsed.noConfusion (Except.ok.inj h)

/-- **There is a configuration exactly when every value passes its own check.** -/
theorem exists_configures_iff :
    (∃ config, Configures protocol environment values config) ↔
      Acceptable protocol environment values := by
  constructor
  · rintro ⟨config, h⟩
    refine ⟨h.url ▸ h.web, ?_⟩
    simp only [numberOptions, List.forall_mem_cons]
    refine ⟨exists_readOptional_iff.mp ⟨_, h.sloP99Ms⟩,
      exists_readOptional_iff.mp ⟨_, h.maxErrorRate⟩,
      (exists_readNumber_iff _).mp ⟨_, h.ratePerSecond⟩,
      (exists_readNumber_iff _).mp ⟨_, h.durationSeconds⟩,
      (exists_readNumber_iff _).mp ⟨_, h.warmupSeconds⟩,
      (exists_readNumber_iff _).mp (h.concurrency.imp fun _ hx => hx.1),
      (exists_readNumber_iff _).mp ⟨_, h.timeoutMs⟩, fun o ho => absurd ho List.not_mem_nil⟩
  · intro h
    have hnumbers := h.numbers
    simp only [numberOptions, List.forall_mem_cons] at hnumbers
    obtain ⟨hslo, hmax, hrate, hduration, hwarmup, hconcurrency, htimeout, -⟩ := hnumbers
    obtain ⟨slo, hslo⟩ := exists_readOptional_iff.mpr hslo
    obtain ⟨max, hmax⟩ := exists_readOptional_iff.mpr hmax
    obtain ⟨rate, hrate⟩ := (exists_readNumber_iff 5).mpr hrate
    obtain ⟨duration, hduration⟩ := (exists_readNumber_iff 10).mpr hduration
    obtain ⟨warmup, hwarmup⟩ := (exists_readNumber_iff 2).mpr hwarmup
    obtain ⟨concurrency, hconcurrency⟩ := (exists_readNumber_iff 10).mpr hconcurrency
    obtain ⟨timeout, htimeout⟩ := (exists_readNumber_iff 2000).mpr htimeout
    exact ⟨⟨targetUrl environment values, rate, duration, warmup, ⌊concurrency⌋₊, timeout,
      (values "json").isSome, slo, max⟩, h.web, rfl, hrate, hduration, hwarmup,
      ⟨concurrency, hconcurrency, rfl⟩, htimeout, rfl, hslo, hmax⟩

end Configuration

end ScalingLab

end ScaleForge
