namespace Vty

structure Address where
  host : String
  service : Nat
  deriving DecidableEq, Repr

namespace Address

inductive Fault where
  | noService
  | badService
  | notPermitted
  | notHere
  | failed (reason : String)
  deriving DecidableEq, Repr

def Fault.message : Fault → String
  | .noService => "invalid socket address"
  | .badService => "invalid port value"
  | .notPermitted => "Permission denied (os error 13)"
  | .notHere => "Cannot assign requested address (os error 99)"
  | .failed reason => reason

def number? (bound : Nat) (cs : List Char) : Option Nat :=
  if cs.isEmpty || !cs.all Char.isDigit then none
  else
    let n := cs.foldl (fun n c => n * 10 + (c.toNat - '0'.toNat)) 0
    if n < bound then some n else none

def service? (text : String) : Option Nat :=
  match text.toList with
  | '+' :: rest => number? 65536 rest
  | cs => number? 65536 cs

def parts? (host : String) : Option (List Nat) := do
  let parts ← (host.splitOn ".").mapM fun part => number? 256 part.toList
  if parts.length = 4 then some parts else none

def mayBeHere (host : String) : Bool :=
  match parts? host with
  | some parts =>
    let group := parts.headD 0
    group = 127 || parts = [0, 0, 0, 0] || (224 ≤ group && group ≤ 239) ||
      parts = [255, 255, 255, 255]
  | none => host.toList.head? ≠ some '[' || host = "[::]" || host = "[::1]"

def ofText (text : String) : Except Fault Address :=
  match (text.splitOn ":").reverse with
  | last :: first :: more =>
    match service? last with
    | none => .error .badService
    | some service => .ok { host := ":".intercalate (first :: more).reverse, service }
  | _ => .error .noService

end Address

structure Network where
  permits : (service : Nat) → Bool
  isHere : (host : String) → Bool

namespace Network

def unrestricted : Network where
  permits _ := true
  isHere _ := true

/-- Programs get no service but one that the system chooses for them, which they ask for as 0. -/
def confined : Network where
  permits service := service = 0
  isHere := Address.mayBeHere

def listen (n : Network) (text : String) : Except Address.Fault Address :=
  match Address.ofText text with
  | .error fault => .error fault
  | .ok address =>
    if !n.permits address.service then .error .notPermitted
    else if !n.isHere address.host then .error .notHere
    else .ok address

end Network

end Vty
