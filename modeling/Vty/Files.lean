import Vty.Config

namespace Vty

structure Files where
  directories : List (List String) := [[]]
  files : List (List String × Bytes) := []
  deriving DecidableEq, Repr

namespace Files

def names (path : String) : List String :=
  path.splitOn "/"

def step (place : List String) (name : String) : List String :=
  if name = "" ∨ name = "." then place
  else if name = ".." then place.dropLast
  else place ++ [name]

def route (place : List String) : List String → List (List String) × List String
  | [] => ([], place)
  | name :: rest =>
    let (passed, last) := route (step place name) rest
    (place :: passed, last)

def write (f : Files) (here : List String) (path : String) (bytes : Bytes) : Files :=
  let (passed, place) := route here (names path)
  { directories := f.directories ++ passed, files := (place, bytes) :: f.files }

def entry (f : Files) (place : List String) : Stored :=
  match f.files.lookup place with
  | some bytes => .file bytes
  | none =>
    let inside := f.directories ++ f.files.map Prod.fst
    if inside.any fun other => place.isPrefixOf other then .directory else .missing

/-- Goes along the names. Only through a directory can one go on. -/
def walk (f : Files) (place : List String) : List String → Stored
  | [] => f.entry place
  | name :: rest =>
    match f.entry place with
    | .directory => f.walk (step place name) rest
    | .file _ => .notDirectory
    | stored => stored

def find (f : Files) (here : List String) (path : String) : Stored :=
  if path = "" then .missing
  else if path.toList.head? = some '/' then f.walk [] (names path)
  else f.walk here (names path)

end Files

end Vty
