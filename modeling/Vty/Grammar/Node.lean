import Vty.Grammar.Key
import Vty.Table

namespace Vty.Grammar

/-- A tree of commands. The children of a branch stand in the order in which help lists them, each
key once. -/
inductive Node (α : Type) where
  | action (action : α)
  | branch (children : List (Key × Node α))

abbrev Children (α : Type) := List (Key × Node α)

variable {α β : Type}

namespace Children

def ofList (entries : List (Key × Node α)) : Children α :=
  Table.ofList entries

def forMatching {γ : Type} (entries : List (Key × γ)) : List (Key × γ) :=
  entries.filter (fun entry => entry.1.rank = 0) ++
    (entries.filter (fun entry => entry.1.rank = 1) ++
      entries.filter (fun entry => entry.1.rank = 2))

/-- The entries that a token may stand for. A keyword spelled out wins, then a parameter's name;
otherwise all that the token abbreviates compete. -/
def candidates (children : Children α) (token : String) : List (Key × Node α) :=
  match Table.find? (.keyword token) children with
  | some child => [(.keyword token, child)]
  | none =>
    match Table.find? (.parameter token) children with
    | some child => [(.parameter token, child)]
    | none => forMatching (children.filter fun entry => entry.1.abbreviatedBy token)

def parameters (children : Children α) : List (String × Node α) :=
  children.filterMap fun
    | (.parameter name, child) => some (name, child)
    | _ => none

def soleParameter (children : Children α) : Option (String × Node α) :=
  match children.parameters with
  | [only] => some only
  | _ => none

end Children

namespace Node

def ofList (entries : List (Key × Node α)) : Node α :=
  .branch (Children.ofList entries)

def insert : Node α → Key → Node α → Node α
  | .action a, _, _ => .action a
  | .branch children, key, child => .branch (Table.insert key child children)

mutual

def map (f : α → β) : Node α → Node β
  | .action a => .action (f a)
  | .branch children => .branch (mapChildren f children)

def mapChildren (f : α → β) : Children α → Children β
  | [] => []
  | (key, child) :: rest => (key, child.map f) :: mapChildren f rest

end

mutual

def settled : Node α → Node α
  | .action a => .action a
  | .branch children => (settledEnd children).getD (.branch children)

def settledEnd : Children α → Option (Node α)
  | [] => none
  | (.finish, child) :: _ => some child.settled
  | _ :: rest => settledEnd rest

end

end Node

end Vty.Grammar
