import Std.Async.TCP
import Std.Sync.Channel
import Vty.Config.Text
import Vty.Console
import Vty.Launch

namespace Vty.Service

open Std.Async (Selectable)
open Std.Async.TCP.Socket (Client Server)
open Std.Net (IPv4Addr SocketAddress)

inductive Wake where
  | connected (client : Client)
  | arrived (id : Nat) (arrival : Arrival)

structure World where
  host : Host
  typed : Std.Channel ByteArray
  server : Option Server := none
  clients : List (Nat × Client) := []

def ofBytes (bytes : Bytes) : ByteArray :=
  ⟨bytes.toArray⟩

def peerText : SocketAddress → String
  | .v4 ⟨host, service⟩ => s!"{host.toString}:{service.toNat}"
  | .v6 ⟨host, service⟩ => s!"[{host.toString}]:{service.toNat}"

def addressFault : IO.Error → Address.Fault
  | .permissionDenied .. => .notPermitted
  | failure => .failed (toString failure)

def listen (text : String) : IO (Except Address.Fault Server) := do
  match Network.unrestricted.listen text with
  | .error fault => return .error fault
  | .ok address =>
    let some host := IPv4Addr.ofString address.host | return .error .notHere
    try
      let server ← Server.mk
      server.bind (.v4 ⟨host, address.service.toUInt16⟩)
      server.listen 128
      return .ok server
    catch failure => return .error (addressFault failure)

/-- Asks for what is typed next. It comes byte by byte, as a longer read would wait for its end. -/
def askTerminal (w : World) : IO Unit := do
  let stdin ← IO.getStdin
  let read : IO Unit := do
    let bytes ← try stdin.read 1 catch _ => pure .empty
    discard <| w.typed.send bytes
  discard <| IO.asTask read .dedicated

def sources (w : World) : Array (Selectable Wake) :=
  let terminal := Selectable.case w.typed.recvSelector fun bytes =>
    return Wake.arrived Console.terminalId (.data bytes.toList)
  let server := w.server.toArray.map fun server =>
    Selectable.case server.acceptSelector fun client => return Wake.connected client
  let clients := w.clients.toArray.map fun (id, client) =>
    Selectable.case (client.recvSelector 4096) fun bytes =>
      return Wake.arrived id (.data (bytes.getD .empty).toList)
  #[terminal] ++ server ++ clients

def lost (w : World) (failure : IO.Error) : IO Wake := do
  for source in sources w do
    source.selector.unregisterFn.block
  for (id, client) in w.clients do
    let gone ← try discard client.getPeerName; pure false catch _ => pure true
    if gone then return .arrived id (.failure (toString failure))
  throw failure

def next (w : World) : IO Wake := do
  try (Selectable.one (sources w)).block catch failure => lost w failure

def deliver (w : World) : IO World := do
  let (outputs, host) := w.host.flush
  for (id, bytes) in outputs do
    if bytes ≠ [] then
      match w.clients.lookup id with
      | some client => try (client.send (ofBytes bytes)).block catch _ => pure ()
      | none =>
        let out ← IO.getStdout
        out.write (ofBytes bytes)
        out.flush
  let host := host.sweep
  let (kept, finished) := w.clients.partition fun entry => Table.contains entry.1 host.sessions
  for (_, client) in finished do
    try client.shutdown.block catch _ => pure ()
  return { w with host, clients := kept }

/-- Lets a session read what has arrived. An empty piece is read as well: it ends the session. -/
partial def readAll (w : World) (id : Nat) : IO World := do
  let w ← deliver { w with host := w.host.serve id }
  if w.host.hasArrivals id then readAll w id else return w

def connect (w : World) (client : Client) : IO World := do
  let peer ← try pure (peerText (← client.getPeerName)) catch _ => pure "unknown"
  let id := w.host.registry.lastId + 1
  let endpoint : Endpoint :=
    { connection := .network, input := { handle := id }, output := { handle := id }, peer }
  deliver { w with host := w.host.connect endpoint, clients := (id, client) :: w.clients }

partial def run (w : World) : IO Unit := do
  if w.host.quit then return
  match ← next w with
  | .connected client => run (← connect w client)
  | .arrived id arrival =>
    let fromTerminal := (w.clients.lookup id).isNone
    let w ← readAll { w with host := w.host.receive id arrival } id
    if fromTerminal && !w.host.quit then askTerminal w
    run w

def serve (config : Config) (server : Option Server) : IO Unit := do
  let world : World := { host := { config }, typed := ← Std.Channel.new, server }
  if config.interactive then
    let world ← deliver { world with host := world.host.connect Console.endpoint }
    askTerminal world
    run world
  else run world

def lookUp (path : String) : IO Stored := do
  try
    return .file (← IO.FS.readBinFile path).toList
  catch
    | .noFileOrDirectory .. => return .missing
    | .inappropriateType .. => return .directory
    | _ => return .notDirectory

end Vty.Service

open Vty in
def main (arguments : List String) : IO UInt32 := do
  let environment : Environment :=
    { home := ← IO.getEnv "HOME", userProfile := ← IO.getEnv "USERPROFILE" }
  let stored ← match Launch.configPath? arguments environment with
    | some path => Service.lookUp path
    | none => pure .missing
  let hasTerminal ← (← IO.getStdin).isTty
  match Launch.run Config.ofText? arguments environment (fun _ => stored) .unrestricted hasTerminal with
  | .exit status message =>
    IO.eprint message
    return status.toUInt32
  | .serve config warning =>
    IO.eprint warning
    match config.listen with
    | none => Service.serve config none
    | some text =>
      match ← Service.listen text with
      | .error fault =>
        IO.eprint (Launch.Fault.listen text fault).report
        return 1
      | .ok server => Service.serve config (some server)
    return 0
