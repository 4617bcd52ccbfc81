import Vty.Session

namespace Vty

structure LogConfig where
  level : String := "info"
  file : Option String := none
  deriving DecidableEq, Repr

structure Config where
  name : String := "rift"
  interactive : Bool := true
  listen : Option String := none
  session : Session.Options := {}
  log : LogConfig := {}
  deriving DecidableEq, Repr

inductive Stored where
  | missing
  | directory
  | notDirectory
  | file (bytes : Bytes)
  deriving DecidableEq, Repr

inductive ReadFault where
  | missing
  | directory
  | notDirectory
  | undecodable
  deriving DecidableEq, Repr

def ReadFault.message : ReadFault → String
  | .missing => "No such file or directory (os error 2)"
  | .directory => "Is a directory (os error 21)"
  | .notDirectory => "Not a directory (os error 20)"
  | .undecodable => "stream did not contain valid UTF-8"

def Stored.text : Stored → Except ReadFault String
  | .missing => .error .missing
  | .directory => .error .directory
  | .notDirectory => .error .notDirectory
  | .file bytes =>
    match Text.ofUtf8? bytes with
    | some text => .ok text
    | none => .error .undecodable

namespace Config

inductive Fault where
  | unreadable (path : String) (fault : ReadFault)
  | invalid (path : String)
  deriving DecidableEq, Repr

def Fault.message : Fault → String
  | .unreadable path fault => s!"Failed to read config {path}: {fault.message}"
  -- the reader does not say what is wrong
  | .invalid path => s!"Invalid config {path}: "

-- What the text of a file says as a configuration is left to the reader.
variable (reader : String → Option Config)

def ofFile (path : String) (stored : Stored) : Except Fault Config :=
  match stored.text with
  | .error fault => .error (.unreadable path fault)
  | .ok text =>
    match reader text with
    | some config => .ok config
    | none => .error (.invalid path)

/-- From the default place no file at all is as good as an empty one. -/
def ofDefaultFile (path : Option String) (find : String → Stored) : Except Fault Config :=
  match path with
  | none => .ok {}
  | some path =>
    match find path with
    | .missing | .notDirectory => .ok {}
    | stored => ofFile reader path stored

end Config

structure Environment where
  home : Option String := none
  userProfile : Option String := none
  deriving DecidableEq, Repr

namespace Environment

def join (directory name : String) : String :=
  if directory = "" ∨ directory.toList.getLast? = some '/' then directory ++ name
  else directory ++ "/" ++ name

def configDirectory (e : Environment) : Option String :=
  (e.userProfile <|> e.home).map (join · ".rift-cli")

def configPath (e : Environment) : Option String :=
  e.configDirectory.map (join · "config.toml")

def logPath (e : Environment) (log : LogConfig) : String :=
  (log.file <|> e.configDirectory.map (join · "rift-cli.log")).getD "rift-cli.log"

end Environment

end Vty
