import Vty.Address
import Vty.Arguments
import Vty.Commands

namespace Vty.Launch

inductive Fault where
  | arguments (fault : Arguments.Fault)
  | config (fault : Config.Fault)
  | nothingToServe
  | listen (address : String) (fault : Address.Fault)
  | noTerminal
  deriving DecidableEq, Repr

namespace Fault

def message : Fault → String
  | .arguments fault => fault.message
  | .config fault => fault.message
  | .nothingToServe => "Nothing to serve: --no-interactive needs --listen"
  | .listen address _ => s!"Failed to listen on {address}"
  | .noTerminal => "Failed to enable raw mode"

def cause? : Fault → Option String
  | .config (.unreadable _ fault) => some fault.message
  | .listen _ fault => some fault.message
  | .noTerminal => some "No such device or address (os error 6)"
  | _ => none

def report (f : Fault) : String :=
  let hint := match f with
    | .arguments _ => "Use --help for usage information\n"
    | _ => ""
  let cause := match f.cause? with
    | some cause => s!"\nCaused by:\n    {cause}\n"
    | none => ""
  s!"Error: {f.message}\n{cause}{hint}"

end Fault

inductive Outcome where
  | exit (status : Nat) (message : String)
  | serve (config : Config) (warning : String)
  deriving DecidableEq, Repr

def helpLines : List String :=
  [Daemon.version ++ " - A router-style command line daemon",
    "",
    "Usage: rift-cli [OPTIONS]",
    "",
    "Options:",
    "  -c, --config <PATH>   Config file (default: ~/.rift-cli/config.toml)",
    "  -l, --listen <ADDR>   Accept Telnet sessions on host:port",
    "  -n, --name <NAME>     Name shown in the prompt",
    "  --no-interactive      Do not attach a session to this terminal",
    "  -v, --version         Show version",
    "  -h, --help            Show this help",
    "",
    "Line editing:",
    "  Ctrl+A / Ctrl+E       Start / end of line",
    "  Left / Right          Move cursor",
    "  Up / Down             Browse history (also Ctrl+P / Ctrl+N)",
    "  Backspace             Delete before cursor",
    "  ?                     Context help",
    "  Abbreviate any keyword to a unique prefix, e.g. \"sh ver\""]

def helpText : String :=
  String.join (helpLines.map (· ++ "\n"))

def warningText : Option Config.Fault → String
  | some fault => s!"Warning: {fault.message}, using defaults\n"
  | none => ""

def check (config : Config) (network : Network) (hasTerminal : Bool) : Except Fault Unit := do
  if !config.interactive && config.listen.isNone then throw .nothingToServe
  if let some address := config.listen then
    if let .error fault := network.listen address then throw (.listen address fault)
  if config.interactive && !hasTerminal then throw .noTerminal

def configPath? (arguments : List String) (environment : Environment) : Option String :=
  match Arguments.parse arguments with
  | .ok (.run a) => a.configPath <|> environment.configPath
  | _ => none

def run (reader : String → Option Config) (arguments : List String) (environment : Environment)
    (find : String → Stored) (network : Network) (hasTerminal : Bool) : Outcome :=
  match Arguments.parse arguments with
  | .error fault => .exit 1 (Fault.arguments fault).report
  | .ok .help => .exit 0 helpText
  | .ok .version => .exit 0 (Daemon.version ++ "\n")
  | .ok (.run a) =>
    match a.load reader environment find with
    | .error fault => .exit 1 (Fault.config fault).report
    | .ok (config, warning) =>
      match check config network hasTerminal with
      | .error fault => .exit 1 (warningText warning ++ fault.report)
      | .ok () => .serve config (warningText warning)

end Vty.Launch
