import Vty.Toml.Moment
import Vty.Toml.Section
import Vty.Toml.Text

namespace Vty.Toml

abbrev Reader (α : Type) := List Char → Option (α × List Char)

def skipBlanks (cs : List Char) : List Char :=
  cs.dropWhile isBlank

def isBare (c : Char) : Bool :=
  c.isAlphanum || c = '_' || c = '-'

def name : Reader String
  | '"' :: rest => (basic rest).map fun (text, rest) => (String.ofList text, rest)
  | '\'' :: rest => (literal rest).map fun (text, rest) => (String.ofList text, rest)
  | cs =>
    let word := cs.takeWhile isBare
    if word = [] then none else some (String.ofList word, cs.dropWhile isBare)

def names : (fuel : Nat) → Reader (List String)
  | 0, _ => none
  | fuel + 1, cs => do
    let (first, rest) ← name (skipBlanks cs)
    match skipBlanks rest with
    | '.' :: rest => do
      let (more, rest) ← names fuel rest
      some (first :: more, rest)
    | rest => some ([first], rest)

/-- Neither keys nor values go deeper than this. -/
def maxDepth : Nat := 79

def path : Reader Path := fun cs => do
  let (names, rest) ← names maxDepth cs
  some (← Path.ofList? names, rest)

def afterComment : List Char → List Char
  | '#' :: rest => rest.dropWhile fun c => !isControl c
  | cs => cs

def endOfLine? (cs : List Char) : Option (List Char) :=
  match afterComment (skipBlanks cs) with
  | [] => some []
  | rest => newline? rest

def skipLines : (fuel : Nat) → List Char → List Char
  | 0, cs => cs
  | fuel + 1, cs =>
    match newline? (afterComment (skipBlanks cs)) with
    | some rest => skipLines fuel rest
    | none => skipBlanks cs

def isPlain (c : Char) : Bool :=
  c.isAlphanum || ['+', '-', '_', '.', ':'].contains c

def plain? (cs : List Char) : Option Value :=
  if cs = "true".toList then some (.boolean true)
  else if cs = "false".toList then some (.boolean false)
  else moment? cs <|> float? cs <|> integer? cs

def plain : Reader Value := fun cs =>
  let word := cs.takeWhile isPlain
  let rest := cs.dropWhile isPlain
  match date? word, rest with
  | some [], ' ' :: c :: more =>
    if c.isDigit then
      let time := (c :: more).takeWhile isPlain
      (plain? (word ++ ' ' :: time)).map (·, (c :: more).dropWhile isPlain)
    else (plain? word).map (·, rest)
  | _, _ => (plain? word).map (·, rest)

mutual

def value : (fuel depth : Nat) → Reader Value
  | 0, _, _ => none
  | fuel + 1, depth, '[' :: rest => do
    if depth = 0 then none
    let (items, rest) ← items fuel (depth - 1) (skipLines rest.length rest)
    some (.list items, rest)
  | fuel + 1, depth, '\x7b' :: rest => do
    if depth = 0 then none
    let (entries, rest) ← match skipBlanks rest with
      | '\x7d' :: rest => some ([], rest)
      | rest => pairs fuel (depth - 1) [] rest
    some (.table (Item.toValues entries), rest)
  | _, _, '"' :: rest => (quotedText ('"' :: rest)).map fun (text, rest) => (.text (String.ofList text), rest)
  | _, _, '\'' :: rest => (quotedText ('\'' :: rest)).map fun (text, rest) => (.text (String.ofList text), rest)
  | _, _, cs => plain cs

def items : (fuel depth : Nat) → Reader (List Value)
  | 0, _, _ => none
  | _, _, ']' :: rest => some ([], rest)
  | fuel + 1, depth, cs => do
    let (first, rest) ← value fuel depth cs
    match skipLines rest.length rest with
    | ']' :: rest => some ([first], rest)
    | ',' :: rest => do
      let (more, rest) ← items fuel depth (skipLines rest.length rest)
      some (first :: more, rest)
    | _ => none

def pairs : (fuel depth : Nat) → Entries → Reader Entries
  | 0, _, _, _ => none
  | fuel + 1, depth, entries, cs => do
    let (path, rest) ← path cs
    let '=' :: rest := rest | none
    let (value, rest) ← value fuel depth (skipBlanks rest)
    let entries ← Entries.put path.before path.last value entries
    match skipBlanks rest with
    | '\x7d' :: rest => some (entries, rest)
    | ',' :: rest => pairs fuel depth entries rest
    | _ => none

end

inductive Line where
  | blank
  | pair (pair : Pair)
  | header (header : Header)

def headerLine : Reader Header
  | '[' :: '[' :: rest => do
    let (path, rest) ← path rest
    match rest with
    | ']' :: ']' :: rest => some (.tables path, rest)
    | _ => none
  | '[' :: rest => do
    let (path, rest) ← path rest
    match rest with
    | ']' :: rest => some (.table path, rest)
    | _ => none
  | _ => none

def line : Reader Line := fun cs =>
  let cs := skipBlanks cs
  match endOfLine? cs, cs with
  | some rest, _ => some (.blank, rest)
  | none, '[' :: _ => do
    let (header, rest) ← headerLine cs
    some (.header header, ← endOfLine? rest)
  | none, _ => do
    let (path, rest) ← path cs
    let '=' :: rest := rest | none
    let (value, rest) ← value (2 * rest.length + 1) maxDepth (skipBlanks rest)
    some (.pair (path, value), ← endOfLine? rest)

/-- Every line takes a character at least, so `fuel` of them suffice for as many characters. -/
def lines : (fuel : Nat) → List Char → Option (List Line)
  | _, [] => some []
  | 0, _ => none
  | fuel + 1, cs => do
    let (first, rest) ← line cs
    some (first :: (← lines fuel rest))

def sections : (current : Section) → List Line → List Section
  | current, [] => [current]
  | current, .blank :: rest => sections current rest
  | current, .pair pair :: rest => sections { current with pairs := current.pairs ++ [pair] } rest
  | current, .header header :: rest => current :: sections ⟨header, []⟩ rest

def document? (text : String) : Option (List (String × Value)) := do
  let cs := match text.toList with
    | '\uFEFF' :: rest => rest
    | cs => cs
  Section.assemble (sections ⟨.root, []⟩ (← lines cs.length cs))

end Vty.Toml
