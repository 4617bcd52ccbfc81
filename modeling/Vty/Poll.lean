import Vty.Table
import Vty.Text.Utf8

namespace Vty.Poll

structure Events where
  input : Bool := false
  hangUp : Bool := false
  error : Bool := false
  invalid : Bool := false
  deriving DecidableEq, Repr

/-- Hang-ups and errors count: the next read finds the end of the input. -/
def Events.readable (e : Events) : Bool :=
  e.input || e.hangUp || e.error || e.invalid

structure Registry where
  handlers : Table Nat Int := []
  lastId : Nat := 0
  deriving DecidableEq, Repr

structure Readiness where
  sessions : List Nat := []
  extra : List Int := []
  deriving DecidableEq, Repr

namespace Registry

def allocate (r : Registry) : Nat × Registry :=
  (r.lastId + 1, { r with lastId := r.lastId + 1 })

def register (r : Registry) (id : Nat) (handle : Int) : Registry :=
  { r with handlers := Table.insert id handle r.handlers }

def unregister (r : Registry) (id : Nat) : Registry :=
  { r with handlers := Table.erase id r.handlers }

def isRegistered (r : Registry) (id : Nat) : Bool :=
  Table.contains id r.handlers

def descriptors (r : Registry) (extra : List Int) : List Int :=
  r.handlers.map Prod.snd ++ extra

/-- Waits once. `poll` answers for each descriptor in its place, and by its place an answer belongs
to a session or to one of the other handles. -/
def wait (r : Registry) (extra : List Int) (poll : List Int → List Events) : Readiness :=
  let answers := poll (r.descriptors extra)
  let ready {β : Type} (owners : List β) (answers : List Events) : List β :=
    ((owners.zip answers).filter fun pair => pair.2.readable).map Prod.fst
  { sessions := ready (r.handlers.map Prod.fst) (answers.take r.handlers.length)
    extra := ready extra (answers.drop r.handlers.length) }

end Registry

structure Pipe where
  unread : Bytes := []
  writable : Bool := true
  deriving DecidableEq, Repr

namespace Pipe

def write (p : Pipe) (bytes : Bytes) : Nat × Pipe :=
  if p.writable then (bytes.length, { p with unread := p.unread ++ bytes }) else (0, p)

def read (p : Pipe) (limit : Nat) : Bytes × Pipe :=
  (p.unread.take limit, { p with unread := p.unread.drop limit })

def hangUp (p : Pipe) : Pipe :=
  { p with writable := false }

def events (p : Pipe) : Events :=
  { input := !p.unread.isEmpty, hangUp := !p.writable }

def poll (pipes : List Pipe) (handles : List Int) : List Events :=
  handles.map fun
    | .ofNat n => (pipes[n]?.map events).getD {}
    | .negSucc _ => {}

end Pipe

end Vty.Poll
