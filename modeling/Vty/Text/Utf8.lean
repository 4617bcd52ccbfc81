namespace Vty

abbrev Bytes := List UInt8

namespace Text

def utf8 (text : String) : Bytes :=
  text.toList.flatMap String.utf8EncodeChar

def ofUtf8? (bytes : Bytes) : Option String :=
  String.fromUTF8? ⟨bytes.toArray⟩

theorem utf8_append (a b : String) : utf8 (a ++ b) = utf8 a ++ utf8 b := by
  simp [utf8]

def tailLength (lead : UInt8) : Nat :=
  if 0xC2 ≤ lead ∧ lead ≤ 0xDF then 1
  else if 0xE0 ≤ lead ∧ lead ≤ 0xEF then 2
  else if 0xF0 ≤ lead ∧ lead ≤ 0xF4 then 3
  else 0

/-- The least and the greatest second byte after `lead`: no overlong form, no surrogate, nothing
past the last code point. -/
def secondRange (lead : UInt8) : UInt8 × UInt8 :=
  if lead = 0xE0 then (0xA0, 0xBF)
  else if lead = 0xED then (0x80, 0x9F)
  else if lead = 0xF0 then (0x90, 0xBF)
  else if lead = 0xF4 then (0x80, 0x8F)
  else (0x80, 0xBF)

def isTail (b : UInt8) : Bool :=
  0x80 ≤ b && b ≤ 0xBF

def tailRun (lead : UInt8) : Bytes → Nat
  | [] => 0
  | second :: rest =>
    if (secondRange lead).1 ≤ second ∧ second ≤ (secondRange lead).2 then
      min (tailLength lead) (1 + (rest.takeWhile isTail).length)
    else 0

def joinTail (lead : UInt8) (tail : Bytes) : Char :=
  let high := lead.toNat % Nat.pow 2 (6 - tail.length)
  Char.ofNat (tail.foldl (fun n b => n * 64 + b.toNat % 64) high)

/-- Decoding that loses nothing but what cannot be read: each maximal part of a character that is
not completed becomes one replacement character. -/
def lossyChars : Bytes → List Char
  | [] => []
  | lead :: rest =>
    if lead < 0x80 then Char.ofNat lead.toNat :: lossyChars rest
    else
      let run := tailRun lead rest
      let c := if 0 < run ∧ run = tailLength lead then joinTail lead (rest.take run) else '\uFFFD'
      c :: lossyChars (rest.drop run)
termination_by bytes => bytes.length
decreasing_by all_goals simp; try omega

def ofUtf8Lossy (bytes : Bytes) : String :=
  String.ofList (lossyChars bytes)

end Text

end Vty
