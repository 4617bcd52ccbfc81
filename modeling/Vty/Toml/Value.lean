namespace Vty.Toml

inductive Value where
  | text (text : String)
  | integer (n : Int)
  | float
  | boolean (b : Bool)
  | moment
  | list (items : List Value)
  | table (entries : List (String × Value))

/-- The values of named fields, each if it is there. A list gives them in order, and what a date or
a time holds has none of these names. -/
def Value.fields? (names : List String) : Value → Option (List (Option Value))
  | .table entries => some (names.map fun name => entries.lookup name)
  | .list items => some (names.mapIdx fun i _ => items[i]?)
  | .moment => some (names.map fun _ => none)
  | _ => none

def ungroup (isDigit : Char → Bool) : List Char → Option (List Char)
  | [] => none
  | [c] => if isDigit c then some [c] else none
  | c :: '_' :: rest => if isDigit c then (ungroup isDigit rest).map (c :: ·) else none
  | c :: rest => if isDigit c then (ungroup isDigit rest).map (c :: ·) else none

def digitValue (c : Char) : Nat :=
  if c.isDigit then c.toNat - '0'.toNat
  else if 'a' ≤ c ∧ c ≤ 'f' then c.toNat - 'a'.toNat + 10
  else if 'A' ≤ c ∧ c ≤ 'F' then c.toNat - 'A'.toNat + 10
  else 16

def isDigitOf (base : Nat) (c : Char) : Bool :=
  digitValue c < base

def readDigits (base : Nat) (digits : List Char) : Nat :=
  digits.foldl (fun n c => n * base + digitValue c) 0

def decimal? (cs : List Char) : Option (List Char) :=
  if cs.head? = some '0' ∧ cs ≠ ['0'] then none else ungroup Char.isDigit cs

def inRange (n : Int) : Option Value :=
  if -9223372036854775808 ≤ n ∧ n ≤ 9223372036854775807 then some (.integer n) else none

def based? (base : Nat) (cs : List Char) : Option Value := do
  inRange (readDigits base (← ungroup (isDigitOf base) cs))

def splitSign : List Char → Bool × List Char
  | '+' :: rest => (false, rest)
  | '-' :: rest => (true, rest)
  | cs => (false, cs)

def integer? (cs : List Char) : Option Value :=
  match cs with
  | '0' :: 'x' :: rest => based? 16 rest
  | '0' :: 'o' :: rest => based? 8 rest
  | '0' :: 'b' :: rest => based? 2 rest
  | _ => do
    let (negative, rest) := splitSign cs
    let n : Int := readDigits 10 (← decimal? rest)
    inRange (if negative then -n else n)

/-- Whether mantissa · 10^exponent is nearer to infinity than to the greatest double. -/
def overflows (mantissa : Nat) (exponent : Int) : Bool :=
  let bound := Nat.pow 2 1024 - Nat.pow 2 970
  let order := (Nat.toDigits 10 mantissa).length + exponent
  if mantissa = 0 ∨ order < 300 then false
  else if 320 < order then true
  else bound * Nat.pow 10 (-exponent).toNat ≤ mantissa * Nat.pow 10 exponent.toNat

def exponent? : List Char → Option Int
  | [] => some 0
  | c :: rest =>
    if c = 'e' ∨ c = 'E' then do
      let (negative, rest) := splitSign rest
      let n : Int := readDigits 10 (← ungroup Char.isDigit rest)
      some (if negative then -n else n)
    else none

/-- A number with a fraction or an exponent. Too great a one is refused, unless it is negative. -/
def float? (cs : List Char) : Option Value := do
  let (negative, rest) := splitSign cs
  if rest = "inf".toList ∨ rest = "nan".toList then some .float
  else
    let isPart c := Char.isDigit c || c = '_'
    let whole ← decimal? (rest.takeWhile isPart)
    let rest := rest.dropWhile isPart
    let (fraction, rest) ← match rest with
      | '.' :: rest => (ungroup Char.isDigit (rest.takeWhile isPart)).map (·, rest.dropWhile isPart)
      | [] => none
      | rest => some ([], rest)
    let exponent ← exponent? rest
    if !negative && overflows (readDigits 10 (whole ++ fraction)) (exponent - fraction.length) then none
    else some .float

end Vty.Toml
