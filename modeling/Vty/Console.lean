import Vty.Host

namespace Vty

structure Console where
  host : Host
  shown : Bytes

namespace Console

def terminalId : Nat := 1

def endpoint : Endpoint :=
  .terminal { handle := 0, rawTerminal := true } { handle := 1 }

def refresh (c : Console) : Console :=
  let (outputs, host) := c.host.flush
  { host := host.sweep, shown := c.shown ++ (outputs.lookup terminalId).getD [] }

def start (config : Config) : Console :=
  Console.refresh { host := Host.connect { config } endpoint, shown := [] }

def serve : (fuel : Nat) → Console → Console
  | 0, c => c
  | fuel + 1, c =>
    if c.host.hasArrivals terminalId then
      serve fuel (Console.refresh { c with host := c.host.serve terminalId })
    else c

def type (c : Console) (bytes : Bytes) : Console :=
  serve (bytes.length + 1) { c with host := c.host.receive terminalId (.data bytes) }

structure Step where
  typed : Bytes
  ending : Option Bytes
  deriving DecidableEq, Repr

/-- What a step sees from where the last one stopped looking, and where it stops itself. It waits
for ever if what it waits for does not come. -/
def see (c : Console) (seen : Nat) : Option Bytes → Option (Bytes × Nat)
  | none => if c.host.quit then some (c.shown.drop seen, c.shown.length) else none
  | some [] => some ([], seen)
  | some ending =>
    if ending.isSuffixOf (c.shown.drop seen) then some (c.shown.drop seen, c.shown.length) else none

def play (c : Console) (seen : Nat) : List Step → Option (List Bytes × Console × Nat)
  | [] => some ([], c, seen)
  | step :: rest => do
    let c := c.type step.typed
    let (answer, seen) ← c.see seen step.ending
    let (answers, c, seen) ← c.play seen rest
    some (answer :: answers, c, seen)

def run (config : Config) (steps : List Step) (input : Bytes) : Option (List Bytes × Bytes) := do
  let start := Console.start config
  let (answers, c, seen) ← start.play start.shown.length steps
  let c := c.type input
  if c.host.quit then some (answers, start.shown ++ c.shown.drop seen) else none

end Console

end Vty
