import Vty.Grammar.Parse
import Vty.Session

namespace Vty

inductive Request where
  | print (message : String)
  | printPrompt
  | setName (name : String)
  | history (op : History.Op)
  | execute (line : String) (mode : Grammar.Mode)
  | processInput
  | readable
  | close
  deriving DecidableEq, Repr

structure View where
  id : Nat
  connection : Connection
  peer : String
  closed : Bool
  negotiated : Telnet.Features
  editor : Editor
  name : String
  deriving DecidableEq, Repr

def View.mustEcho (v : View) : Bool :=
  Display.Policy.mustEcho { connection := v.connection, negotiated := v.negotiated }

def Session.view (s : Session) : View where
  id := s.id
  connection := s.connection
  peer := s.peer
  closed := s.closed
  negotiated := s.negotiated
  editor := s.editor
  name := s.name

inductive Failure where
  | busy
  | because (reasons : List String)
  deriving DecidableEq, Repr

def Failure.message : Failure → String
  | .busy => "Command handler is busy"
  | .because reasons => ": ".intercalate reasons

/-- What an action does: requests to its session, each in view of what the last one led to, and at
the end the handler's new state. -/
inductive Program (H : Type) where
  | finish (handler : H) (result : Except Failure Unit)
  | ask (request : Request) (next : View → Program H)

abbrev Action (H : Type) := H → View → Grammar.Parameters → Program H

namespace Program

variable {H : Type}

def done (handler : H) : Program H :=
  .finish handler (.ok ())

def requests : List Request → Program H → Program H
  | [], program => program
  | request :: rest, program => .ask request fun _ => requests rest program

def prints (messages : List String) (program : Program H) : Program H :=
  requests (messages.map .print) program

end Program

end Vty
