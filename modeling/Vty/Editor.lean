import Vty.Display.Command
import Vty.History

namespace Vty

/-- The line being typed. Positions count bytes. -/
structure Editor where
  buffer : Bytes := []
  cursor : Nat := 0
  history : History := {}
  deriving DecidableEq, Repr

namespace Editor

open Display (Command)

/-- An operation's effect on the line, and what keeps the display in step with it. -/
abbrev Change := Editor × List Command

def ofLimit (limit : Nat) : Editor :=
  { history := .ofLimit limit }

def before (e : Editor) : Bytes :=
  e.buffer.take e.cursor

def after (e : Editor) : Bytes :=
  e.buffer.drop e.cursor

theorem before_append_after (e : Editor) : e.before ++ e.after = e.buffer :=
  List.take_append_drop ..

def refresh (e : Editor) : List Command :=
  [.erase, .control e.after, .left e.after.length]

def insert (e : Editor) (byte : UInt8) : Change :=
  if e.buffer.length ≤ e.cursor then
    ({ buffer := e.buffer ++ [byte], cursor := e.cursor + 1, history := e.history.stopBrowsing },
      [.echo [byte]])
  else
    let grown := { e with buffer := e.before ++ byte :: e.after, history := e.history.stopBrowsing }
    ({ grown with cursor := e.cursor + 1 }, grown.refresh ++ [.right 1])

def deleteBefore (e : Editor) : Change :=
  if e.cursor = 0 then (e, [.bell])
  else
    let cursor := e.cursor - 1
    let shrunk :=
      { buffer := e.buffer.eraseIdx cursor, cursor, history := e.history.stopBrowsing }
    (shrunk, .left 1 :: shrunk.refresh)

def moveLeft (e : Editor) : Change :=
  if 0 < e.cursor then ({ e with cursor := e.cursor - 1 }, [.left 1]) else (e, [.bell])

def moveRight (e : Editor) : Change :=
  if e.cursor < e.buffer.length then ({ e with cursor := e.cursor + 1 }, [.right 1])
  else (e, [.bell])

def moveToStart (e : Editor) : Change :=
  ({ e with cursor := 0 }, [.left e.cursor])

def moveToEnd (e : Editor) : Change :=
  ({ e with cursor := e.buffer.length }, [.right (e.buffer.length - e.cursor)])

def replaceLine (e : Editor) (line : Bytes) : Change :=
  ({ e with buffer := line, cursor := line.length }, [.left e.cursor, .erase, .control line])

def follow (e : Editor) : History.Step → Change
  | .bell => (e, [.bell])
  | .recall line => e.replaceLine line

def historyPrevious (e : Editor) : Change :=
  let (history, step) := e.history.previous e.buffer
  { e with history }.follow step

def historyNext (e : Editor) : Change :=
  let (history, step) := e.history.next
  { e with history }.follow step

def takeLine (e : Editor) : Bytes × Editor :=
  (e.buffer, { e with buffer := [], cursor := 0 })

def commit (e : Editor) (line : Bytes) : Editor :=
  if line = [] then e else { e with history := e.history.add line }

def redraw (e : Editor) : List Command :=
  [.send e.buffer, .left (e.buffer.length - e.cursor)]

inductive Op where
  | insert (byte : UInt8)
  | deleteBefore
  | moveLeft
  | moveRight
  | moveToStart
  | moveToEnd
  | replaceLine (line : Bytes)
  | historyPrevious
  | historyNext
  | takeLine
  | commit (line : Bytes)
  | enter
  | redraw
  | clearHistory
  | stopBrowsing
  deriving DecidableEq, Repr

def apply (e : Editor) : Op → Change
  | .insert byte => e.insert byte
  | .deleteBefore => e.deleteBefore
  | .moveLeft => e.moveLeft
  | .moveRight => e.moveRight
  | .moveToStart => e.moveToStart
  | .moveToEnd => e.moveToEnd
  | .replaceLine line => e.replaceLine line
  | .historyPrevious => e.historyPrevious
  | .historyNext => e.historyNext
  | .takeLine => (e.takeLine.2, [])
  | .commit line => (e.commit line, [])
  | .enter => (e.takeLine.2.commit e.takeLine.1, [])
  | .redraw => (e, e.redraw)
  | .clearHistory => ({ e with history := e.history.clear }, [])
  | .stopBrowsing => ({ e with history := e.history.stopBrowsing }, [])

end Editor

end Vty
