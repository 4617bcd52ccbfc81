import Vty.Telnet

namespace Vty.Input

inductive Event where
  | endOfLine
  | cursorToStart
  | cursorToEnd
  | cursorLeft
  | cursorRight
  | historyPrevious
  | historyNext
  | deleteBeforeCursor
  | contextHelp
  | telnet (verb : Telnet.Verb) (option : UInt8)
  | insert (byte : UInt8)
  deriving DecidableEq, Repr

inductive Decoded where
  | event (event : Event)
  | nul
  | escape (first second : UInt8)
  | incomplete
  deriving DecidableEq, Repr

def lf : UInt8 := 0x0A
def cr : UInt8 := 0x0D
def esc : UInt8 := 0x1B
def bracket : UInt8 := 0x5B

def Decoded.ofByte (b : UInt8) : Decoded :=
  if b = 0x00 then .nul
  else if b = 0x01 then .event .cursorToStart
  else if b = 0x05 then .event .cursorToEnd
  else if b = lf then .event .endOfLine
  else if b = 0x0E then .event .historyNext
  else if b = 0x10 then .event .historyPrevious
  else if b = 0x3F then .event .contextHelp
  else if b = 0x7F then .event .deleteBeforeCursor
  else .event (.insert b)

/-- Arrow keys are `ESC [` and a letter; every other escape is dropped whole. -/
def Decoded.ofEscape (first second : UInt8) : Decoded :=
  if first ≠ bracket then .escape first second
  else if second = 0x41 then .event .historyPrevious
  else if second = 0x42 then .event .historyNext
  else if second = 0x43 then .event .cursorRight
  else if second = 0x44 then .event .cursorLeft
  else .escape first second

def scan : Bytes → Option (Decoded × Nat)
  | [] => none
  | b :: rest =>
    some <|
      if b = cr then
        match rest with
        | [] => (.incomplete, 0)
        | next :: _ => (.event .endOfLine, if next = lf then 2 else 1)
      else if b = Telnet.iac then
        match rest with
        | verb :: option :: _ => (.event (.telnet (.ofCode verb) option), 3)
        | _ => (.incomplete, 0)
      else if b = esc then
        match rest with
        | first :: second :: _ => (.ofEscape first second, 3)
        | _ => (.incomplete, 0)
      else (.ofByte b, 1)

theorem scan_eq_none_iff {bytes : Bytes} : scan bytes = none ↔ bytes = [] := by
  cases bytes <;> simp [scan]

def Event.name : Event → String
  | .endOfLine => "EndOfLine"
  | .cursorToStart => "CursorToStart"
  | .cursorToEnd => "CursorToEnd"
  | .cursorLeft => "CursorLeft"
  | .cursorRight => "CursorRight"
  | .historyPrevious => "HistoryPrevious"
  | .historyNext => "HistoryNext"
  | .deleteBeforeCursor => "DeleteBeforeCursor"
  | .contextHelp => "ContextHelp"
  | .telnet verb option => s!"Telnet:{verb.text}:{option.toNat}"
  | .insert _ => "Insert"

end Vty.Input
