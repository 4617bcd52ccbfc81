import Vty.Display
import Vty.Editor
import Vty.Input.Queue

namespace Vty

def Input.Decoded.notice? : Input.Decoded → Option Notice
  | .escape first second => some (.escapeDiscarded first second)
  | _ => none

structure Endpoint where
  connection : Connection
  input : InputChannel
  output : OutputChannel
  peer : String

def Endpoint.terminal (input : InputChannel) (output : OutputChannel) : Endpoint :=
  { connection := .terminal, input, output, peer := "local" }

structure Session.Options where
  readChunkSize : Nat := 1024
  historyLimit : Nat := 100
  gateControlSequences : Bool := false
  deriving DecidableEq, Repr

inductive Session.Effect where
  | registered (id : Nat) (handle : Int)
  | unregistered (id : Nat)
  | inputReleased (handle : Int)
  | outputReleased (handle : Int)
  | terminalClosed
  deriving DecidableEq, Repr

structure Session where
  id : Nat
  connection : Connection
  peer : String
  input : Option InputChannel
  display : Display
  queue : Input.Queue := .empty
  editor : Editor
  name : String
  chunk : Nat
  closed : Bool := false
  notices : List Notice := []
  effects : List Session.Effect := []

namespace Session

def origin (s : Session) : Origin :=
  ⟨s.name, s.peer⟩

def written (s : Session) : Bytes :=
  s.display.written

def mustEcho (s : Session) : Bool :=
  s.display.mustEcho

def negotiated (s : Session) : Telnet.Features :=
  s.display.negotiated

def note (s : Session) (notice : Notice) : Session :=
  { s with notices := s.notices ++ [notice] }

def emit (s : Session) (effect : Effect) : Session :=
  { s with effects := s.effects ++ [effect] }

def present (s : Session) (commands : List Display.Command) : Session :=
  let (display, notices) := s.display.present commands
  { s with display, notices := s.notices ++ notices }

def edit (s : Session) (change : Editor.Change) : Session :=
  { s with editor := change.1 }.present change.2

def print (s : Session) (message : String) : Session :=
  s.present [.text message true]

def printAll (s : Session) (messages : List String) : Session :=
  s.present (messages.map (.text · true))

def printPrompt (s : Session) : Session :=
  s.present [.text (s.name ++ "> ") false]

def noteRelease (s : Session) (handle : Int) (result : Except String Unit) : Session :=
  match result with
  | .ok () => s
  | .error reason => s.note (.releaseFailed handle reason)

/-- Lets go of both channels. An output that shares the input's handle goes with it. -/
def release (s : Session) : Session :=
  let output := s.display.output
  let detached := { s with input := none, display := { s.display with attached := false } }
  let inputGone := match s.input with
    | none => detached
    | some input => (detached.emit (.inputReleased input.handle)).noteRelease input.handle input.release
  if s.input.map InputChannel.handle = some output.handle then inputGone
  else (inputGone.emit (.outputReleased output.handle)).noteRelease output.handle output.release

/-- Ends the session. A network session releases its channels; the end of a terminal session is
for the host to act on. -/
def close (s : Session) : Session :=
  if s.closed then s
  else
    let ended := { s.note (.closed s.origin) with closed := true }.emit (.unregistered s.id)
    match s.connection with
    | .network => ended.release
    | .terminal => ended.emit .terminalClosed

def start (id : Nat) (endpoint : Endpoint) (name : String) (options : Options := {}) : Session :=
  let s : Session :=
    { id
      connection := endpoint.connection
      peer := endpoint.peer
      input := some endpoint.input
      display :=
        { output := endpoint.output
          policy := { connection := endpoint.connection, gated := options.gateControlSequences } }
      editor := .ofLimit options.historyLimit
      name
      chunk := max options.readChunkSize 1 }
  let announcements : List Display.Command := match s.connection with
    | .network => [.will Telnet.Feature.suppressGoAhead.code, .will Telnet.Feature.echo.code]
    | .terminal => []
  (((s.note (.opened s.origin)).present announcements).emit
    (.registered id endpoint.input.handle)).printPrompt

def receive (s : Session) (arrival : Arrival) : Session :=
  { s with input := s.input.map (·.receive arrival) }

def backlog (s : Session) : Nat :=
  s.queue.size + (s.input.map InputChannel.unread).getD 0

def flushed (s : Session) : Session :=
  { s with
    display := { s.display with output := { s.display.output with trail := [] } }
    notices := [] }

def hasArrivals (s : Session) : Bool :=
  match s.input with
  | some input => !input.arrivals.isEmpty
  | none => false

def readsLeft (s : Session) : Nat :=
  match s.input with
  | some input => input.unread + input.arrivals.length
  | none => 0

end Session

end Vty
