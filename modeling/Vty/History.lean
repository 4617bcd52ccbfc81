import Vty.Text.Utf8

namespace Vty

/-- The last lines of a session, oldest first, and the entry shown while browsing them. -/
structure History where
  capacity : Nat := 100
  entries : List Bytes := []
  browse : Option Nat := none
  deriving DecidableEq, Repr

namespace History

inductive Step where
  | bell
  | recall (line : Bytes)
  deriving DecidableEq, Repr

def ofLimit (limit : Nat) : History :=
  { capacity := max limit 1 }

def record (h : History) (line : Bytes) : History :=
  let lines := h.entries ++ [line]
  { h with entries := lines.drop (lines.length - h.capacity) }

def add (h : History) (line : Bytes) : History :=
  { h.record line with browse := none }

/-- The history with the index from which browsing goes back. A draft that is not empty becomes
the newest entry first. -/
def startBrowsing (h : History) (draft : Bytes) : History × Nat :=
  match h.browse with
  | some index => (h, index)
  | none =>
    if draft = [] then (h, h.entries.length)
    else
      let evicted := h.entries.length + 1 - h.capacity
      (h.record draft, h.entries.length - evicted)

def previous (h : History) (draft : Bytes) : History × Step :=
  if h.entries = [] then (h, .bell)
  else
    match h.startBrowsing draft with
    | (h, 0) => ({ h with browse := some 0 }, .bell)
    | (h, index + 1) => ({ h with browse := some index }, .recall (h.entries[index]?.getD []))

def next (h : History) : History × Step :=
  match h.browse with
  | none => (h, .bell)
  | some index =>
    match h.entries[index + 1]? with
    | some line => ({ h with browse := some (index + 1) }, .recall line)
    | none => ({ h with browse := none }, .recall [])

def stopBrowsing (h : History) : History :=
  { h with browse := none }

def clear (h : History) : History :=
  { h with entries := [], browse := none }

inductive Op where
  | add (line : Bytes)
  | previous (draft : Bytes)
  | next
  | stopBrowsing
  | clear
  deriving DecidableEq, Repr

def apply (h : History) : Op → History × Option Step
  | .add line => (h.add line, none)
  | .previous draft =>
    let (h, step) := h.previous draft
    (h, some step)
  | .next =>
    let (h, step) := h.next
    (h, some step)
  | .stopBrowsing => (h.stopBrowsing, none)
  | .clear => (h.clear, none)

end History

end Vty
