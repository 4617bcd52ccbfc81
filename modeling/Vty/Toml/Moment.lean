import Vty.Toml.Value

namespace Vty.Toml

def twoDigits? : List Char → Option (Nat × List Char)
  | a :: b :: rest => if a.isDigit && b.isDigit then some (readDigits 10 [a, b], rest) else none
  | _ => none

def isLeapYear (year : Nat) : Bool :=
  year % 4 = 0 && (year % 100 ≠ 0 || year % 400 = 0)

def daysOfMonth (year month : Nat) : Nat :=
  if month = 2 then if isLeapYear year then 29 else 28
  else if [4, 6, 9, 11].contains month then 30
  else 31

def date? : List Char → Option (List Char)
  | a :: b :: c :: d :: '-' :: rest => do
    let year := [a, b, c, d]
    let (month, rest) ← twoDigits? rest
    let (day, rest) ← match rest with
      | '-' :: rest => twoDigits? rest
      | _ => none
    if year.all Char.isDigit ∧ 1 ≤ month ∧ month ≤ 12 ∧ 1 ≤ day ∧
        day ≤ daysOfMonth (readDigits 10 year) month then some rest
    else none
  | _ => none

def hourMinute? (cs : List Char) : Option (List Char) := do
  let (hour, rest) ← twoDigits? cs
  let (minute, rest) ← match rest with
    | ':' :: rest => twoDigits? rest
    | _ => none
  if hour ≤ 23 ∧ minute ≤ 59 then some rest else none

def time? (cs : List Char) : Option (List Char) := do
  let (second, rest) ← match ← hourMinute? cs with
    | ':' :: rest => twoDigits? rest
    | _ => none
  if 60 < second then none
  else
    match rest with
    | '.' :: c :: rest => if c.isDigit then some (rest.dropWhile Char.isDigit) else none
    | rest => some rest

def offset? : List Char → Bool
  | [] | ['Z'] | ['z'] => true
  | c :: rest => (c = '+' || c = '-') && hourMinute? rest = some []

def moment? (cs : List Char) : Option Value :=
  match date? cs with
  | some [] => some .moment
  | some (c :: rest) =>
    if c = 'T' ∨ c = 't' ∨ c = ' ' then
      match time? rest with
      | some rest => if offset? rest then some .moment else none
      | none => none
    else none
  | none => if time? cs = some [] then some .moment else none

end Vty.Toml
