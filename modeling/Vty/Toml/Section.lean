import Vty.Toml.Value

namespace Vty.Toml

/-- How a table came to be. Only a table that no header names may still be extended. -/
inductive TableKind where
  | header
  | path
  | dotted
  deriving DecidableEq, Repr

inductive Item where
  | value (value : Value)
  | table (kind : TableKind) (entries : List (String × Item))
  | tables (tables : List (List (String × Item)))

abbrev Entries := List (String × Item)

namespace Entries

def set (name : String) (item : Item) : Entries → Entries
  | [] => [(name, item)]
  | (key, old) :: rest => if key = name then (key, item) :: rest else (key, old) :: set name item rest

def put (path : List String) (key : String) (value : Value) (entries : Entries) : Option Entries :=
  match path with
  | [] => if (entries.lookup key).isSome then none else some (entries ++ [(key, .value value)])
  | name :: rest =>
    match entries.lookup name with
    | none => do some (set name (.table .dotted (← put rest key value [])) entries)
    | some (.table kind inner) => do
      if kind = .header ∨ (rest = [] ∧ kind ≠ .dotted) then none
      else some (set name (.table kind (← put rest key value inner)) entries)
    | some (.tables tables) => do
      if rest = [] then none
      else
        let inner ← put rest key value (← tables.getLast?)
        some (set name (.tables (tables.dropLast ++ [inner])) entries)
    | some (.value _) => none

def update (change : Entries → Option Entries) (path : List String) (entries : Entries) :
    Option Entries :=
  match path with
  | [] => change entries
  | name :: rest =>
    match entries.lookup name with
    | none => do some (set name (.table .path (← update change rest [])) entries)
    | some (.table kind inner) => do
      some (set name (.table kind (← update change rest inner)) entries)
    | some (.tables tables) => do
      let inner ← update change rest (← tables.getLast?)
      some (set name (.tables (tables.dropLast ++ [inner])) entries)
    | some (.value _) => none

end Entries

mutual

def Item.toValue : Item → Value
  | .value v => v
  | .table _ entries => .table (Item.toValues entries)
  | .tables ts => .list (Item.toTables ts)

def Item.toValues : List (String × Item) → List (String × Value)
  | [] => []
  | (name, item) :: rest => (name, item.toValue) :: Item.toValues rest

def Item.toTables : List (List (String × Item)) → List Value
  | [] => []
  | entries :: rest => .table (Item.toValues entries) :: Item.toTables rest

end

structure Path where
  before : List String
  last : String

def Path.ofList? (names : List String) : Option Path :=
  names.getLast?.map fun last => ⟨names.dropLast, last⟩

abbrev Pair := Path × Value

inductive Header where
  | root
  | table (path : Path)
  | tables (path : Path)

structure Section where
  header : Header
  pairs : List Pair

namespace Section

def fill (pairs : List Pair) (entries : Entries) : Option Entries :=
  pairs.foldlM (fun entries pair => Entries.put pair.1.before pair.1.last pair.2 entries) entries

def placeTable (pairs : List Pair) (name : String) (entries : Entries) : Option Entries := do
  let start ← match entries.lookup name with
    | none => some []
    | some (.table .path inner) => some inner
    | some _ => none
  some (Entries.set name (.table .header (← fill pairs start)) entries)

def placeTables (pairs : List Pair) (name : String) (entries : Entries) : Option Entries := do
  let tables ← match entries.lookup name with
    | none => some []
    | some (.tables tables) => some tables
    | some _ => none
  some (Entries.set name (.tables (tables ++ [← fill pairs []])) entries)

def addTo (document : Entries) (s : Section) : Option Entries :=
  match s.header with
  | .root => fill s.pairs document
  | .table path => Entries.update (placeTable s.pairs path.last) path.before document
  | .tables path => Entries.update (placeTables s.pairs path.last) path.before document

def assemble (sections : List Section) : Option (List (String × Value)) :=
  (sections.foldlM addTo []).map Item.toValues

end Section

end Vty.Toml
