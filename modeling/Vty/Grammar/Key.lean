namespace Vty.Grammar

inductive Key where
  | finish
  | keyword (word : String)
  | parameter (name : String)
  deriving DecidableEq, Repr

namespace Key

/-- A leading sigil marks a parameter and no text the end. A sigil alone is a keyword. -/
def ofText (text : String) : Key :=
  match text.toList with
  | [] => .finish
  | '$' :: c :: name => .parameter (String.ofList (c :: name))
  | _ => .keyword text

def text : Key → String
  | .finish => ""
  | .keyword word => word
  | .parameter name => name

def toText : Key → String
  | .finish => ""
  | .keyword word => word
  | .parameter name => "$" ++ name

def help : Key → String
  | .finish => ""
  | .keyword word => word ++ " "
  | .parameter name => name ++ " <" ++ name ++ "> "

def rank : Key → Nat
  | .finish => 0
  | .keyword _ => 1
  | .parameter _ => 2

/-- Help lists keys by their text, and keys of one text by their rank. -/
instance : LT Key :=
  ⟨fun a b => a.text < b.text ∨ a.text = b.text ∧ a.rank < b.rank⟩

instance : DecidableLT Key := fun a b =>
  inferInstanceAs (Decidable (a.text < b.text ∨ a.text = b.text ∧ a.rank < b.rank))

def matchesBefore (a b : Key) : Bool :=
  decide (a.rank < b.rank ∨ a.rank = b.rank ∧ a.text ≤ b.text)

def sortForMatching (keys : List Key) : List Key :=
  keys.mergeSort matchesBefore

def abbreviatedBy (token : String) : Key → Bool
  | .finish => false
  | .keyword text | .parameter text => token.toList.isPrefixOf text.toList

example : ofText "" = .finish ∧ ofText "$" = .keyword "$" ∧ ofText "$x" = .parameter "x" := by decide
example : finish < keyword "" ∧ keyword "a" < parameter "a" ∧ parameter "a" < keyword "b" := by decide

end Key

end Vty.Grammar
