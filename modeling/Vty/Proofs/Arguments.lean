import Vty.Arguments
import Mathlib.Data.List.Induction

namespace Vty

namespace Config

def Fault.path : Fault → String
  | .unreadable path _ => path
  | .invalid path => path

end Config

def Stored.Holds (reader : String → Option Config) (stored : Stored) (config : Config) : Prop :=
  ∃ bytes text, stored = .file bytes ∧ Text.ofUtf8? bytes = some text ∧ reader text = some config

theorem Stored.text_eq_ok_iff {stored : Stored} {text : String} :
    stored.text = .ok text ↔ ∃ bytes, stored = .file bytes ∧ Text.ofUtf8? bytes = some text := by
  cases stored with
  | file bytes =>
    cases h : Text.ofUtf8? bytes <;> simp [Stored.text, h]
  | _ => simp [Stored.text]

namespace Config

variable {reader : String → Option Config} {stored : Stored} {config : Config}

theorem ofFile_of_holds (path : String) (h : stored.Holds reader config) :
    ofFile reader path stored = .ok config := by
  obtain ⟨bytes, text, hs, ht, hc⟩ := h
  rw [ofFile, Stored.text_eq_ok_iff.mpr ⟨bytes, hs, ht⟩]
  simp only [hc]

theorem ofFile_of_not_holds (path : String) (h : ∀ config, ¬ stored.Holds reader config) :
    ∃ fault, ofFile reader path stored = .error fault ∧ fault.path = path := by
  cases ht : stored.text with
  | error fault => exact ⟨.unreadable path fault, by rw [ofFile, ht], rfl⟩
  | ok text =>
    cases hc : reader text with
    | none => exact ⟨.invalid path, by simp only [ofFile, ht, hc], rfl⟩
    | some config =>
      obtain ⟨bytes, hs, hb⟩ := Stored.text_eq_ok_iff.mp ht
      exact absurd ⟨bytes, text, hs, hb, hc⟩ (h config)

theorem ofDefaultFile_of_there {path : String} {find : String → Stored}
    (hm : find path ≠ .missing) (hn : find path ≠ .notDirectory) :
    ofDefaultFile reader (some path) find = ofFile reader path (find path) := by
  cases h : find path <;> simp_all [ofDefaultFile]

theorem ofDefaultFile_of_absent {path : Option String} {find : String → Stored}
    (h : ∀ p, path = some p → find p = .missing ∨ find p = .notDirectory) :
    ofDefaultFile reader path find = .ok {} := by
  cases path with
  | none => rfl
  | some path => rcases h path rfl with h | h <;> simp [ofDefaultFile, h]

end Config

namespace Arguments

namespace Flag

def spellings : Flag → List String
  | .help => ["-h", "--help"]
  | .version => ["-v", "--version"]
  | .config => ["-c", "--config"]
  | .listen => ["-l", "--listen"]
  | .name => ["-n", "--name"]
  | .noInteractive => ["--no-interactive"]

def valued? : Flag → Option String
  | .config => some "--config"
  | .listen => some "--listen"
  | .name => some "--name"
  | .help | .version | .noInteractive => none

theorem ofText?_of_mem {argument : String} {flag : Flag} (h : argument ∈ flag.spellings) :
    ofText? argument = some flag := by
  cases flag <;> simp only [spellings, List.mem_cons, List.not_mem_nil, or_false] at h <;>
    rcases h with rfl | rfl <;> rfl

theorem mem_of_ofText? {argument : String} {flag : Flag} (h : ofText? argument = some flag) :
    argument ∈ flag.spellings := by
  obtain ⟨before, behind, hl, -⟩ := List.lookup_eq_some_iff.mp h
  have hm : (argument, flag) ∈ before ++ (argument, flag) :: behind := by simp
  rw [← hl] at hm
  simp only [List.mem_cons, Prod.mk.injEq, List.not_mem_nil, or_false] at hm
  rcases hm with ⟨rfl, rfl⟩ | ⟨rfl, rfl⟩ | ⟨rfl, rfl⟩ | ⟨rfl, rfl⟩ | ⟨rfl, rfl⟩ | ⟨rfl, rfl⟩ |
    ⟨rfl, rfl⟩ | ⟨rfl, rfl⟩ | ⟨rfl, rfl⟩ | ⟨rfl, rfl⟩ | ⟨rfl, rfl⟩ <;> simp [spellings]

theorem ofText?_eq_none_iff {argument : String} :
    ofText? argument = none ↔ ∀ flag : Flag, argument ∉ flag.spellings := by
  rw [Option.eq_none_iff_forall_ne_some]
  exact forall_congr' fun flag => not_congr ⟨mem_of_ofText?, ofText?_of_mem⟩

end Flag

inductive Setting where
  | noInteractive
  | value (flag : Flag) (text : String)
  deriving DecidableEq, Repr

inductive Sets : List String → List Setting → Prop
  | nil : Sets [] []
  | noInteractive {argument : String} {rest : List String} {settings : List Setting}
      (h : argument ∈ Flag.noInteractive.spellings) (hr : Sets rest settings) :
      Sets (argument :: rest) (.noInteractive :: settings)
  | value {flag : Flag} {long argument : String} {rest : List String} {settings : List Setting}
      (h : argument ∈ flag.spellings) (hl : flag.valued? = some long) (text : String)
      (hr : Sets rest settings) :
      Sets (argument :: text :: rest) (.value flag text :: settings)

inductive Settles : String → List String → Except Fault Invocation → Prop
  | help {argument : String} (h : argument ∈ Flag.help.spellings) (back : List String) :
      Settles argument back (.ok .help)
  | version {argument : String} (h : argument ∈ Flag.version.spellings) (back : List String) :
      Settles argument back (.ok .version)
  | unknown {argument : String} (h : ∀ flag : Flag, argument ∉ flag.spellings)
      (back : List String) : Settles argument back (.error (.unknown argument))
  | missingValue {flag : Flag} {argument long : String} (h : argument ∈ flag.spellings)
      (hl : flag.valued? = some long) : Settles argument [] (.error (.missingValue long))

def Setting.value? (flag : Flag) : Setting → Option String
  | .value other text => if other = flag then some text else none
  | .noInteractive => none

def lastValue (flag : Flag) (settings : List Setting) : Option String :=
  (settings.filterMap (Setting.value? flag)).getLast?

def ofSettings (settings : List Setting) : Arguments where
  configPath := lastValue .config settings
  listen := lastValue .listen settings
  name := lastValue .name settings
  noInteractive := .noInteractive ∈ settings

/-- What comes of the arguments: the first of them that settles it does, and where none does, what
they set is run. -/
inductive Yields : List String → Except Fault Invocation → Prop
  | run {arguments : List String} {settings : List Setting} (h : Sets arguments settings) :
      Yields arguments (.ok (.run (ofSettings settings)))
  | settled {front back : List String} {settings : List Setting} {argument : String}
      {outcome : Except Fault Invocation} (h : Sets front settings)
      (hs : Settles argument back outcome) : Yields (front ++ argument :: back) outcome

def set (a : Arguments) : Setting → Arguments
  | .noInteractive => { a with noInteractive := true }
  | .value .config path => { a with configPath := some path }
  | .value .listen address => { a with listen := some address }
  | .value .name name => { a with name := some name }
  | .value _ _ => a

theorem foldl_set (settings : List Setting) : settings.foldl set {} = ofSettings settings := by
  induction settings using List.reverseRecOn with
  | nil => rfl
  | append_singleton settings setting ih =>
    rw [List.foldl_append, ih]
    cases setting with
    | noInteractive => simp [ofSettings, set, lastValue, Setting.value?]
    | value flag text => cases flag <;> simp [ofSettings, set, lastValue, Setting.value?]

theorem read_append {front : List String} {settings : List Setting} (h : Sets front settings)
    (a : Arguments) (back : List String) :
    read a (front ++ back) = read (settings.foldl set a) back := by
  induction h generalizing a with
  | nil => rfl
  | noInteractive h _ ih =>
    rw [List.cons_append, read.eq_def]
    simp only [Flag.ofText?_of_mem h]
    exact ih _
  | @value flag _ _ _ _ h hl text _ ih =>
    rw [List.cons_append, List.cons_append, read.eq_def]
    simp only [Flag.ofText?_of_mem h]
    cases flag with
    | config | listen | name => exact ih _
    | help | version | noInteractive => cases hl

theorem read_of_settles {argument : String} {back : List String}
    {outcome : Except Fault Invocation} (h : Settles argument back outcome) (a : Arguments) :
    read a (argument :: back) = outcome := by
  rw [read.eq_def]
  cases h with
  | help h | version h => simp only [Flag.ofText?_of_mem h]
  | unknown h => simp only [Flag.ofText?_eq_none_iff.mpr h]
  | @missingValue flag _ _ h hl =>
    simp only [Flag.ofText?_of_mem h]
    cases flag with
    | config | listen | name =>
      cases hl
      rfl
    | help | version | noInteractive => cases hl

theorem parse_of_yields {arguments : List String} {outcome : Except Fault Invocation}
    (h : Yields arguments outcome) : parse arguments = outcome := by
  cases h with
  | @run arguments settings h =>
    have hr := read_append h {} []
    rw [List.append_nil, foldl_set] at hr
    rw [parse, hr, read]
  | settled h hs => rw [parse, read_append h, read_of_settles hs]

namespace Yields

variable {argument : String} {rest : List String} {outcome : Except Fault Invocation}

theorem noInteractive (h : argument ∈ Flag.noInteractive.spellings) (hr : Yields rest outcome) :
    ∃ outcome, Yields (argument :: rest) outcome := by
  cases hr with
  | run hr => exact ⟨_, .run (.noInteractive h hr)⟩
  | settled hr hs => exact ⟨_, .settled (.noInteractive h hr) hs⟩

theorem value {flag : Flag} {long : String} (h : argument ∈ flag.spellings)
    (hl : flag.valued? = some long) (text : String) (hr : Yields rest outcome) :
    ∃ outcome, Yields (argument :: text :: rest) outcome := by
  cases hr with
  | run hr => exact ⟨_, .run (.value h hl text hr)⟩
  | settled hr hs => exact ⟨_, .settled (.value h hl text hr) hs⟩

end Yields

theorem exists_yields : (arguments : List String) → ∃ outcome, Yields arguments outcome
  | [] => ⟨_, .run .nil⟩
  | argument :: rest => by
    cases hf : Flag.ofText? argument with
    | none => exact ⟨_, .settled .nil (.unknown (Flag.ofText?_eq_none_iff.mp hf) rest)⟩
    | some flag =>
      have h := Flag.mem_of_ofText? hf
      cases flag with
      | help => exact ⟨_, .settled .nil (.help h rest)⟩
      | version => exact ⟨_, .settled .nil (.version h rest)⟩
      | noInteractive =>
        obtain ⟨_, hr⟩ := exists_yields rest
        exact hr.noInteractive h
      | config | listen | name =>
        -- the flag and its value are read together, so what is left over is two arguments shorter
        cases rest with
        | nil => exact ⟨_, .settled .nil (.missingValue h rfl)⟩
        | cons text rest =>
          obtain ⟨_, hr⟩ := exists_yields rest
          exact hr.value h rfl text

theorem parse_eq_iff {arguments : List String} {outcome : Except Fault Invocation} :
    parse arguments = outcome ↔ Yields arguments outcome := by
  constructor
  · rintro rfl
    obtain ⟨outcome, h⟩ := exists_yields arguments
    rwa [parse_of_yields h]
  · exact parse_of_yields

structure Overridden (a : Arguments) (file config : Config) : Prop where
  listen : config.listen = if a.listen.isSome then a.listen else file.listen
  name : config.name = a.name.getD file.name
  interactive : config.interactive = if a.noInteractive then false else file.interactive
  session : config.session = file.session
  log : config.log = file.log

theorem overridden_override (a : Arguments) (file : Config) :
    Overridden a file (a.override file) where
  listen := by cases h : a.listen <;> simp [override, h]
  name := rfl
  interactive := by cases h : a.noInteractive <;> simp [override, h]
  session := rfl
  log := rfl

/-- What comes of loading the configuration, with the fault that is told beside it. Only a file that
is asked for can keep the program from running. -/
inductive Loads (a : Arguments) (reader : String → Option Config) (environment : Environment)
    (find : String → Stored) : Except Config.Fault (Config × Option Config.Fault) → Prop
  | asked {path : String} {file config : Config} (hp : a.configPath = some path)
      (hf : (find path).Holds reader file) (ho : Overridden a file config) :
      Loads a reader environment find (.ok (config, none))
  | refused {path : String} {fault : Config.Fault} (hp : a.configPath = some path)
      (hf : ∀ file, ¬ (find path).Holds reader file) (hw : fault.path = path) :
      Loads a reader environment find (.error fault)
  | found {path : String} {file config : Config} (hp : a.configPath = none)
      (he : environment.configPath = some path) (hf : (find path).Holds reader file)
      (ho : Overridden a file config) : Loads a reader environment find (.ok (config, none))
  | absent {config : Config} (hp : a.configPath = none)
      (he : ∀ path, environment.configPath = some path →
        find path = .missing ∨ find path = .notDirectory)
      (ho : Overridden a {} config) : Loads a reader environment find (.ok (config, none))
  | warned {path : String} {config : Config} {fault : Config.Fault} (hp : a.configPath = none)
      (he : environment.configPath = some path) (hm : find path ≠ .missing)
      (hn : find path ≠ .notDirectory) (hf : ∀ file, ¬ (find path).Holds reader file)
      (hw : fault.path = path) (ho : Overridden a {} config) :
      Loads a reader environment find (.ok (config, some fault))

theorem loads_of_path {a : Arguments} {path : String} (hp : a.configPath = some path)
    (reader : String → Option Config) (environment : Environment) (find : String → Stored) :
    Loads a reader environment find (a.load reader environment find) := by
  simp only [load, hp]
  by_cases h : ∃ file, (find path).Holds reader file
  · obtain ⟨file, h⟩ := h
    rw [Config.ofFile_of_holds path h]
    exact .asked hp h (overridden_override a file)
  · rw [not_exists] at h
    obtain ⟨fault, hf, hw⟩ := Config.ofFile_of_not_holds path h
    rw [hf]
    exact .refused hp h hw

theorem loads_of_no_path {a : Arguments} (hp : a.configPath = none)
    (reader : String → Option Config) (environment : Environment) (find : String → Stored) :
    Loads a reader environment find (a.load reader environment find) := by
  rw [load, hp]
  by_cases he : ∀ path, environment.configPath = some path →
    find path = .missing ∨ find path = .notDirectory
  · rw [Config.ofDefaultFile_of_absent he]
    exact .absent hp he (overridden_override a {})
  · push Not at he
    obtain ⟨path, he, hm, hn⟩ := he
    rw [he, Config.ofDefaultFile_of_there hm hn]
    by_cases h : ∃ file, (find path).Holds reader file
    · obtain ⟨file, h⟩ := h
      rw [Config.ofFile_of_holds path h]
      exact .found hp he h (overridden_override a file)
    · rw [not_exists] at h
      obtain ⟨fault, hf, hw⟩ := Config.ofFile_of_not_holds path h
      rw [hf]
      exact .warned hp he hm hn h hw (overridden_override a {})

/-- The arguments are read from the left up to the first that settles what comes of them, each flag
with a value taking the argument behind it, and the last value of a flag counts. What they ask for
stands over what the file says, and that over the defaults. -/
theorem configured (arguments : List String) (outcome : Except Fault Invocation) :
    (parse arguments = outcome ↔ Yields arguments outcome) ∧
      ∀ (a : Arguments) (reader : String → Option Config) (environment : Environment)
        (find : String → Stored),
        Loads a reader environment find (a.load reader environment find) := by
  refine ⟨parse_eq_iff, ?_⟩
  intro a reader environment find
  cases hp : a.configPath with
  | none => exact loads_of_no_path hp reader environment find
  | some path => exact loads_of_path hp reader environment find

example : parse ["-n", "-h", "--no-interactive", "-l", "a:1", "--name", "edge", "-c", "-v"] =
    .ok (.run
      { configPath := some "-v", listen := some "a:1", name := some "edge",
        noInteractive := true }) := by
  decide

end Arguments

end Vty
