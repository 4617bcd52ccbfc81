namespace Vty.Text

/-- The code points with Unicode's White_Space property, as closed ranges. -/
def spaceRanges : List (Nat × Nat) :=
  [(0x09, 0x0D), (0x20, 0x20), (0x85, 0x85), (0xA0, 0xA0), (0x1680, 0x1680), (0x2000, 0x200A),
    (0x2028, 0x2029), (0x202F, 0x202F), (0x205F, 0x205F), (0x3000, 0x3000)]

def isSpace (c : Char) : Bool :=
  spaceRanges.any fun range => range.1 ≤ c.toNat && c.toNat ≤ range.2

example : (spaceRanges.map fun range => range.2 + 1 - range.1).sum = 25 := by decide

def pieces : List Char → List (List Char)
  | [] => [[]]
  | c :: rest =>
    if isSpace c then [] :: pieces rest
    else
      match pieces rest with
      | [] => [[c]]
      | piece :: more => (c :: piece) :: more

def tokens (text : String) : List String :=
  ((pieces text.toList).filter (fun piece => !piece.isEmpty)).map String.ofList

def trimEnd (text : String) : String :=
  String.ofList (text.toList.reverse.dropWhile isSpace).reverse

end Vty.Text
