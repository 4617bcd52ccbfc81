import Vty.Toml.Value

namespace Vty.Toml

def isBlank (c : Char) : Bool :=
  c = ' ' || c = '\t'

def isControl (c : Char) : Bool :=
  (c.toNat < 0x20 && c ≠ '\t') || c.toNat = 0x7F

def newline? : List Char → Option (List Char)
  | '\n' :: rest => some rest
  | '\r' :: '\n' :: rest => some rest
  | _ => none

def afterNewline (cs : List Char) : List Char :=
  (newline? cs).getD cs

def scalar? (digits : List Char) : Option Char :=
  if digits.all (isDigitOf 16) then
    let n := readDigits 16 digits
    if h : n.isValidChar then some ⟨n.toUInt32, by
      rcases h with h | h
      · exact Or.inl (by simp [Nat.toUInt32, UInt32.toNat_ofNat']; omega)
      · exact Or.inr (by simp [Nat.toUInt32, UInt32.toNat_ofNat']; omega)⟩
    else none
  else none

def escaped? (c : Char) : Option Char :=
  [('b', '\x08'), ('t', '\t'), ('n', '\n'), ('f', '\x0c'), ('r', '\r'), ('"', '"'), ('\\', '\\')].lookup c

def keep (c : Char) (rest : Option (List Char × List Char)) : Option (List Char × List Char) :=
  rest.map fun (text, after) => (c :: text, after)

def basic : List Char → Option (List Char × List Char)
  | [] => none
  | '"' :: rest => some ([], rest)
  | '\\' :: 'u' :: a :: b :: c :: d :: rest => do keep (← scalar? [a, b, c, d]) (basic rest)
  | '\\' :: 'U' :: a :: b :: c :: d :: e :: f :: g :: h :: rest => do
    keep (← scalar? [a, b, c, d, e, f, g, h]) (basic rest)
  | '\\' :: c :: rest => do keep (← escaped? c) (basic rest)
  | c :: rest => if isControl c then none else keep c (basic rest)

def literal : List Char → Option (List Char × List Char)
  | [] => none
  | '\'' :: rest => some ([], rest)
  | c :: rest => if isControl c then none else keep c (literal rest)

/-- Text over several lines. One or two quotes may stand in it, also right before the three that
close it. A backslash at the end of a line skips to the next thing that is not blank. -/
def multilineBasic : (skipping : Bool) → List Char → Option (List Char × List Char)
  | _, [] => none
  | _, '"' :: '"' :: '"' :: '"' :: '"' :: rest => some (['"', '"'], rest)
  | _, '"' :: '"' :: '"' :: '"' :: rest => some (['"'], rest)
  | _, '"' :: '"' :: '"' :: rest => some ([], rest)
  | skipping, '\r' :: '\n' :: rest =>
    if skipping then multilineBasic true rest else keep '\n' (multilineBasic false rest)
  | skipping, '\n' :: rest =>
    if skipping then multilineBasic true rest else keep '\n' (multilineBasic false rest)
  | _, '\\' :: 'u' :: a :: b :: c :: d :: rest => do
    keep (← scalar? [a, b, c, d]) (multilineBasic false rest)
  | _, '\\' :: 'U' :: a :: b :: c :: d :: e :: f :: g :: h :: rest => do
    keep (← scalar? [a, b, c, d, e, f, g, h]) (multilineBasic false rest)
  | _, '\\' :: c :: rest =>
    if (newline? ((c :: rest).dropWhile isBlank)).isSome then multilineBasic true (c :: rest)
    else do keep (← escaped? c) (multilineBasic false rest)
  | skipping, c :: rest =>
    if skipping && isBlank c then multilineBasic true rest
    else if isControl c then none
    else keep c (multilineBasic false rest)

def multilineLiteral : List Char → Option (List Char × List Char)
  | [] => none
  | '\'' :: '\'' :: '\'' :: '\'' :: '\'' :: rest => some (['\'', '\''], rest)
  | '\'' :: '\'' :: '\'' :: '\'' :: rest => some (['\''], rest)
  | '\'' :: '\'' :: '\'' :: rest => some ([], rest)
  | '\r' :: '\n' :: rest => keep '\n' (multilineLiteral rest)
  | c :: rest => if isControl c ∧ c ≠ '\n' then none else keep c (multilineLiteral rest)

def quotedText : List Char → Option (List Char × List Char)
  | '"' :: '"' :: '"' :: rest => multilineBasic false (afterNewline rest)
  | '"' :: rest => basic rest
  | '\'' :: '\'' :: '\'' :: rest => multilineLiteral (afterNewline rest)
  | '\'' :: rest => literal rest
  | _ => none

end Vty.Toml
