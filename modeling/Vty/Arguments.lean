import Vty.Config

namespace Vty

structure Arguments where
  configPath : Option String := none
  listen : Option String := none
  name : Option String := none
  noInteractive : Bool := false
  deriving DecidableEq, Repr

namespace Arguments

inductive Invocation where
  | help
  | version
  | run (arguments : Arguments)
  deriving DecidableEq, Repr

inductive Fault where
  | missingValue (flag : String)
  | unknown (argument : String)
  deriving DecidableEq, Repr

def Fault.message : Fault → String
  | .missingValue flag => s!"Missing argument for {flag}"
  | .unknown argument => s!"Unknown argument: {argument}. Use -h for help."

inductive Flag where
  | help
  | version
  | config
  | listen
  | name
  | noInteractive
  deriving DecidableEq, Repr

def Flag.ofText? (argument : String) : Option Flag :=
  [("-h", Flag.help), ("--help", .help), ("-v", .version), ("--version", .version), ("-c", .config),
    ("--config", .config), ("-l", .listen), ("--listen", .listen), ("-n", .name), ("--name", .name),
    ("--no-interactive", .noInteractive)].lookup argument

/-- Reads the arguments in order on top of those already read. The argument behind a flag that takes
a value is its value, whatever it looks like; a later value replaces an earlier one. -/
def read (a : Arguments) : List String → Except Fault Invocation
  | [] => .ok (.run a)
  | argument :: rest =>
    match Flag.ofText? argument, rest with
    | none, _ => .error (.unknown argument)
    | some .help, _ => .ok .help
    | some .version, _ => .ok .version
    | some .noInteractive, rest => read { a with noInteractive := true } rest
    | some .config, path :: rest => read { a with configPath := some path } rest
    | some .listen, address :: rest => read { a with listen := some address } rest
    | some .name, name :: rest => read { a with name := some name } rest
    | some .config, [] => .error (.missingValue "--config")
    | some .listen, [] => .error (.missingValue "--listen")
    | some .name, [] => .error (.missingValue "--name")

def parse (arguments : List String) : Except Fault Invocation :=
  read {} arguments

def override (a : Arguments) (config : Config) : Config :=
  { config with
    listen := a.listen <|> config.listen
    name := a.name.getD config.name
    interactive := config.interactive && !a.noInteractive }

/-- Loads the configuration. A file that is asked for must be good; the default one gives way to the
defaults, and what is wrong with it comes along. -/
def load (a : Arguments) (reader : String → Option Config) (environment : Environment)
    (find : String → Stored) : Except Config.Fault (Config × Option Config.Fault) :=
  match a.configPath with
  | some path => (Config.ofFile reader path (find path)).map fun config => (a.override config, none)
  | none =>
    match Config.ofDefaultFile reader environment.configPath find with
    | .ok config => .ok (a.override config, none)
    | .error fault => .ok (a.override {}, some fault)

end Arguments

end Vty
