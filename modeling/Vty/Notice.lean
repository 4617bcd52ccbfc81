import Vty.Telnet
import Vty.Text.Quoted

namespace Vty

structure Origin where
  name : String
  peer : String
  deriving DecidableEq, Repr

def Origin.text (o : Origin) : String :=
  s!"[{o.name}] {o.peer}"

inductive Notice where
  | opened (origin : Origin)
  | closed (origin : Origin)
  | executing (origin : Origin) (command : String)
  | failed (origin : Origin) (command : String) (reason : String)
  | negotiated (origin : Origin) (verb : Telnet.Verb) (feature : Telnet.Feature)
  | endOfInput (origin : Origin)
  | readFailed (origin : Origin) (reason : String)
  | writeFailed (handle : Int) (reason : String)
  | releaseFailed (handle : Int) (reason : String)
  | escapeDiscarded (first second : UInt8)
  deriving DecidableEq, Repr

namespace Notice

inductive Level where
  | trace
  | debug
  | info
  | warn
  deriving DecidableEq, Repr

def Level.text : Level → String
  | .trace => "TRACE"
  | .debug => "DEBUG"
  | .info => "INFO"
  | .warn => "WARN"

def level : Notice → Level
  | .opened _ | .closed _ | .executing _ _ => .info
  | .failed _ _ _ | .writeFailed _ _ | .releaseFailed _ _ => .warn
  | .negotiated _ _ _ | .endOfInput _ | .readFailed _ _ => .debug
  | .escapeDiscarded _ _ => .trace

def message : Notice → String
  | .opened o => s!"{o.text}: Open CLI session"
  | .closed o => s!"{o.text}: Close CLI session"
  | .executing o command => s!"{o.text}: Execute CLI command \"{command}\""
  | .failed o command reason => s!"{o.text}: Command \"{command}\" failed: {reason}"
  | .negotiated o verb feature => s!"{o.text}: Telnet {verb.text} {feature.text}"
  | .endOfInput o => s!"{o.text}: End of input"
  | .readFailed o reason => s!"[{o.name}] Failed to read from {o.peer}: {reason}"
  | .writeFailed handle reason => s!"Failed to write to channel {handle}: {reason}"
  | .releaseFailed handle reason => s!"Failed to release channel {handle}: {reason}"
  | .escapeDiscarded first second =>
    if first = 0x5B then s!"Discarding escape sequence ESC [ {Text.hexByte second}"
    else s!"Discarding escape sequence ESC {Text.hexByte first} {Text.hexByte second}"

def line (n : Notice) : String :=
  n.level.text ++ " " ++ n.message

end Notice

end Vty
