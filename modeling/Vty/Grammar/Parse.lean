import Vty.Grammar.Node
import Vty.Text.Space

namespace Vty.Grammar

abbrev Parameters := Table String String

inductive Mode where
  | execute
  | help
  deriving DecidableEq, Repr

inductive Outcome (α : Type) where
  | empty
  | execute (action : α) (parameters : Parameters) (normalized : String)
  | help (lines : List String)

inductive Fault where
  | missingInput (completions : List String)
  | extraInput (token : String)
  | ambiguous (token : String) (candidates : List String)
  | unrecognized (token : String) (completions : List String)
  | missingValue (name : String) (usage : List String)
  deriving DecidableEq, Repr

namespace Fault

def message : Fault → String
  | .missingInput _ => "Missing input, possible completions:"
  | .extraInput token => s!"Unexpected extra input: {token}"
  | .ambiguous token _ => s!"Ambiguous input \"{token}\", candidates:"
  | .unrecognized token _ => s!"Unrecognized input \"{token}\", expected:"
  | .missingValue name _ => s!"Missing value for parameter <{name}>"

def details : Fault → List String
  | .missingInput completions => completions
  | .extraInput _ => []
  | .ambiguous _ candidates => candidates
  | .unrecognized _ completions => completions
  | .missingValue _ usage => usage

end Fault

structure Progress where
  normalized : String := ""
  parameters : Parameters := []
  deriving DecidableEq, Repr

namespace Progress

def keyword (p : Progress) (word : String) : Progress :=
  { p with normalized := p.normalized ++ word ++ " " }

def bind (p : Progress) (name value : String) : Progress :=
  { normalized := p.normalized ++ value ++ " "
    parameters := Table.insert name value p.parameters }

end Progress

variable {α : Type}

inductive Choice (α : Type) where
  | keyword (word : String) (child : Node α)
  | parameter (name : String) (child : Node α)
  | value (name : String) (child : Node α)
  | several (entries : List (Key × Node α))
  | unknown

def Children.choose (children : Children α) (token : String) : Choice α :=
  match children.candidates token with
  | [(.keyword word, child)] => .keyword word child
  | [(.parameter name, child)] => .parameter name child
  | first :: second :: more => .several (first :: second :: more)
  | _ =>
    match children.soleParameter with
    | some (name, child) => .value name child
    | none => .unknown

def completionsHeader : String :=
  "Possible completions:"

namespace Node

mutual

def completions (lead : String) : Node α → List String
  | .action _ => [Text.trimEnd lead]
  | .branch children => completionsBelow lead children

def completionsBelow (lead : String) : Children α → List String
  | [] => []
  | (key, child) :: rest => child.completions (lead ++ key.help) ++ completionsBelow lead rest

end

def conclude (mode : Mode) (node : Node α) (done : Progress) : Except Fault (Outcome α) :=
  match mode, node with
  | .execute, node =>
    match node.settled with
    | .action a => .ok (.execute a done.parameters (Text.trimEnd done.normalized))
    | .branch children => .error (.missingInput (completionsBelow done.normalized children))
  | .help, .action _ => .ok (.help [Text.trimEnd done.normalized])
  | .help, .branch children =>
    let lines := completionsBelow done.normalized children
    if Table.contains .finish children then .ok (.help (completionsHeader :: lines))
    else .error (.missingInput lines)

def read (mode : Mode) : List String → Node α → Progress → Except Fault (Outcome α)
  | [], node, done => node.conclude mode done
  | token :: _, .action _, _ => .error (.extraInput token)
  | token :: rest, .branch children, done =>
    match Children.choose children token with
    | .keyword word child => read mode rest child (done.keyword word)
    | .parameter name child =>
      match rest with
      | [] =>
        .error <| .missingValue name <|
          match mode with
          | .help => [done.normalized ++ name ++ " <" ++ name ++ ">"]
          | .execute => []
      | value :: rest => read mode rest child (done.bind name value)
    | .value name child => read mode rest child (done.bind name token)
    | .several entries => .error (.ambiguous token (completionsBelow done.normalized entries))
    | .unknown => .error (.unrecognized token (completionsBelow done.normalized children))

/-- Reads a line. A blank one runs nothing, but help on it lists every command. -/
def parse (root : Node α) (line : String) (mode : Mode) : Except Fault (Outcome α) :=
  match Text.tokens line, mode with
  | [], .execute => .ok .empty
  | tokens, mode => root.read mode tokens {}

end Node

end Vty.Grammar
