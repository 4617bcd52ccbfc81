import Vty.Grammar.Parse
import Vty.Text.Quoted

namespace Vty.Grammar

open Text (quoted)

def describeList (items : List String) : String :=
  "[" ++ ", ".intercalate items ++ "]"

def describeTexts (texts : List String) : String :=
  describeList (texts.map quoted)

def describeEntries (entries : List (String × String)) : String :=
  "\x7b" ++ ", ".intercalate (entries.map fun entry => entry.1 ++ ": " ++ entry.2) ++ "\x7d"

def describeFields (label : String) (fields : List (String × String)) : String :=
  label ++ " \x7b " ++ ", ".intercalate (fields.map fun field => field.1 ++ ": " ++ field.2) ++ " \x7d"

def Key.describe : Key → String
  | .finish => "End"
  | .keyword word => s!"Keyword({quoted word})"
  | .parameter name => s!"Parameter({quoted name})"

def Parameters.describe (parameters : Parameters) : String :=
  let entries := parameters.map fun entry => (quoted entry.1, quoted entry.2)
  s!"Parameters({describeEntries entries})"

mutual

def Node.describe {α : Type} : Node α → String
  | .action _ => "Action"
  | .branch children =>
    describeEntries <|
      (Children.forMatching (Node.describeChildren children)).map fun entry =>
        (entry.1.describe, entry.2)

def Node.describeChildren {α : Type} : Children α → List (Key × String)
  | [] => []
  | (key, child) :: rest => (key, child.describe) :: Node.describeChildren rest

end

def Outcome.describe {α : Type} : Outcome α → String
  | .empty => "Empty"
  | .execute _ parameters normalized =>
    describeFields "Execute"
      [("parameters", Parameters.describe parameters), ("normalized", quoted normalized)]
  | .help lines => s!"Help({describeTexts lines})"

def Fault.describe : Fault → String
  | .missingInput completions =>
    describeFields "MissingInput" [("completions", describeTexts completions)]
  | .extraInput token => describeFields "ExtraInput" [("token", quoted token)]
  | .ambiguous token candidates =>
    describeFields "Ambiguous" [("token", quoted token), ("candidates", describeTexts candidates)]
  | .unrecognized token completions =>
    describeFields "Unrecognized"
      [("token", quoted token), ("completions", describeTexts completions)]
  | .missingValue name usage =>
    describeFields "MissingValue" [("name", quoted name), ("usage", describeTexts usage)]

end Vty.Grammar
