import Vty.Session.Program

namespace Vty.Script

inductive Step where
  | ask (request : Request)
  | printParameter (name : String)
  | count
  | fail (failure : Failure)
  deriving DecidableEq, Repr

structure Ledger where
  count : Nat := 0
  calls : List (String × Grammar.Parameters) := []
  deriving DecidableEq, Repr

def failure (reason : String) (contexts : List String) : Failure :=
  .because (contexts.reverse ++ [reason])

def program (parameters : Grammar.Parameters) : List Step → Ledger → Program Ledger
  | [], ledger => .done ledger
  | .ask request :: rest, ledger => .ask request fun _ => program parameters rest ledger
  | .printParameter name :: rest, ledger =>
    let value := (Table.find? name parameters).getD "(unbound)"
    .ask (.print value) fun _ => program parameters rest ledger
  | .count :: rest, ledger =>
    let ledger := { ledger with count := ledger.count + 1 }
    .ask (.print (toString ledger.count)) fun _ => program parameters rest ledger
  | .fail failure :: _, ledger => .finish ledger (.error failure)

def action (label : String) (steps : List Step) : Action Ledger :=
  fun ledger _ parameters =>
    program parameters steps { ledger with calls := ledger.calls ++ [(label, parameters)] }

end Vty.Script
