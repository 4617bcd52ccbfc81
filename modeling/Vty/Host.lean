import Vty.Commands
import Vty.Config
import Vty.Poll
import Vty.Session.Interpreter

namespace Vty

/-- The daemon with its sessions: each is known to the registry, which waits for its input, and to
the commands, which list it. -/
structure Host where
  config : Config
  registry : Poll.Registry := {}
  daemon : Daemon := {}
  sessions : Table Nat Session := []
  quit : Bool := false

namespace Host

def interpreter : Interpreter (Action Daemon) Daemon :=
  .ofGrammar Daemon.grammar

def apply (h : Host) : Session.Effect → Host
  | .registered id handle => { h with registry := h.registry.register id handle }
  | .unregistered id => { h with registry := h.registry.unregister id }
  | .inputReleased _ | .outputReleased _ => h
  | .terminalClosed => { h with quit := true }

def update (h : Host) (s : Session) : Host :=
  let h := s.effects.foldl apply h
  { h with sessions := Table.insert s.id { s with effects := [] } h.sessions }

def connect (h : Host) (endpoint : Endpoint) : Host :=
  let (id, registry) := h.registry.allocate
  let s := Session.start id endpoint h.config.name h.config.session
  let h := { h with registry }.update s
  { h with daemon := h.daemon.sessionOpened id s.connection s.peer }

def serve (h : Host) (id : Nat) : Host :=
  match Table.find? id h.sessions with
  | none => h
  | some s =>
    let (s, daemon) := interpreter.readable s h.daemon
    { h with daemon }.update s

def sweep (h : Host) : Host :=
  let closed := (h.sessions.filter fun entry => entry.2.closed).map Prod.fst
  { h with
    sessions := h.sessions.filter fun entry => !entry.2.closed
    daemon := closed.foldl Daemon.sessionClosed h.daemon }

def dispatch (h : Host) (ready : List Nat) : Host :=
  (ready.foldl serve h).sweep

def receive (h : Host) (id : Nat) (arrival : Arrival) : Host :=
  match Table.find? id h.sessions with
  | none => h
  | some s => { h with sessions := Table.insert id (s.receive arrival) h.sessions }

def hasArrivals (h : Host) (id : Nat) : Bool :=
  (Table.find? id h.sessions).any Session.hasArrivals

def flush (h : Host) : List (Nat × Bytes) × Host :=
  (h.sessions.map fun entry => (entry.1, entry.2.written),
    { h with sessions := h.sessions.map fun entry => (entry.1, entry.2.flushed) })

end Host

end Vty
