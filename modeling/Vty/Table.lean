namespace Vty

/-- Entries in ascending order of their keys, one for each key. -/
abbrev Table (κ ν : Type) := List (κ × ν)

namespace Table

variable {κ ν : Type} [DecidableEq κ]

def insert [LT κ] [DecidableLT κ] (key : κ) (value : ν) : Table κ ν → Table κ ν
  | [] => [(key, value)]
  | (k, v) :: rest =>
    if key < k then (key, value) :: (k, v) :: rest
    else if key = k then (key, value) :: rest
    else (k, v) :: insert key value rest

def find? (key : κ) (table : Table κ ν) : Option ν :=
  (List.find? (fun entry => entry.1 = key) table).map Prod.snd

def contains (key : κ) (table : Table κ ν) : Bool :=
  table.any fun entry => entry.1 = key

def erase (key : κ) (table : Table κ ν) : Table κ ν :=
  table.filter fun entry => entry.1 ≠ key

def ofList [LT κ] [DecidableLT κ] (entries : List (κ × ν)) : Table κ ν :=
  entries.foldl (fun table entry => insert entry.1 entry.2 table) []

theorem find?_insert [LT κ] [DecidableLT κ] (key other : κ) (value : ν) (table : Table κ ν) :
    find? other (insert key value table) = if other = key then some value else find? other table := by
  induction table with
  | nil => by_cases h : key = other <;> simp [insert, find?, h, eq_comm]
  | cons entry rest ih =>
    obtain ⟨k, v⟩ := entry
    simp only [find?, insert] at ih ⊢
    split
    · by_cases h : key = other <;> simp [h, eq_comm]
    · split
      · subst k
        by_cases h : key = other <;> simp [h, eq_comm]
      · by_cases h : k = other <;> grind

theorem find?_erase (key other : κ) (table : Table κ ν) :
    find? other (erase key table) = if other = key then none else find? other table := by
  induction table with
  | nil => simp [erase, find?]
  | cons entry rest ih =>
    obtain ⟨k, v⟩ := entry
    simp only [find?, erase] at ih ⊢
    by_cases h : k = key <;> by_cases h' : k = other <;> grind

theorem find?_append (key : κ) (a b : Table κ ν) :
    find? key (a ++ b) = (find? key a).or (find? key b) := by
  simp only [find?, List.find?_append]
  cases List.find? (fun entry => decide (entry.1 = key)) a <;> rfl

theorem find?_ofList [LT κ] [DecidableLT κ] (key : κ) (entries : List (κ × ν)) :
    find? key (ofList entries) = find? key entries.reverse := by
  have step (table : Table κ ν) :
      find? key (entries.foldl (fun table entry => insert entry.1 entry.2 table) table) =
        (find? key entries.reverse).or (find? key table) := by
    induction entries generalizing table with
    | nil => rfl
    | cons entry rest ih =>
      rw [List.foldl_cons, ih, find?_insert, List.reverse_cons, find?_append, Option.or_assoc]
      congr 1
      by_cases h : key = entry.1 <;> simp [find?, h, eq_comm]
  rw [ofList, step]
  simp [find?]

end Table

end Vty
