import Vty.Display
import Vty.Proofs.Editor.Browsing

namespace Vty

structure Zipper where
  before : Bytes := []
  after : Bytes := []
  deriving DecidableEq, Repr

namespace Zipper

def line (z : Zipper) : Bytes :=
  z.before ++ z.after

def ofLine (line : Bytes) : Zipper :=
  { before := line }

def moveLeft (z : Zipper) : Zipper :=
  match z.before.getLast? with
  | none => z
  | some b => ⟨z.before.dropLast, b :: z.after⟩

def moveRight (z : Zipper) : Zipper :=
  match z.after with
  | [] => z
  | b :: after => ⟨z.before ++ [b], after⟩

def follow (z : Zipper) : History.Step → Zipper
  | .bell => z
  | .recall line => ofLine line

def apply (z : Zipper) (history : History) : Editor.Op → Zipper
  | .insert byte => { z with before := z.before ++ [byte] }
  | .deleteBefore => { z with before := z.before.dropLast }
  | .moveLeft => z.moveLeft
  | .moveRight => z.moveRight
  | .moveToStart => { after := z.line }
  | .moveToEnd => ofLine z.line
  | .replaceLine line => ofLine line
  | .historyPrevious => z.follow (history.previous z.line).2
  | .historyNext => z.follow history.next.2
  | .takeLine | .enter => ofLine []
  | .commit _ | .redraw | .clearHistory | .stopBrowsing => z

def editor (z : Zipper) (history : History) : Editor :=
  { buffer := z.line, cursor := z.before.length, history }

end Zipper

namespace Editor

def sides (e : Editor) : Zipper :=
  ⟨e.before, e.after⟩

theorem sides_editor (z : Zipper) (history : History) : (z.editor history).sides = z := by
  simp [sides, before, after, Zipper.editor, Zipper.line]

theorem editor_sides {e : Editor} (h : e.cursor ≤ e.buffer.length) :
    e.sides.editor e.history = e := by
  have hl : e.before.length = e.cursor := List.length_take_of_le h
  simp only [sides, Zipper.editor, Zipper.line, before_append_after, hl]

theorem cursor_le_editor (z : Zipper) (history : History) :
    (z.editor history).cursor ≤ (z.editor history).buffer.length := by
  simp [Zipper.editor, Zipper.line]

variable (z : Zipper) (history : History)

theorem insert_editor (byte : UInt8) :
    ((z.editor history).insert byte).1 =
      Zipper.editor { z with before := z.before ++ [byte] } history.stopBrowsing := by
  obtain ⟨before, after⟩ := z
  cases after with
  | nil => simp [insert, Zipper.editor, Zipper.line]
  | cons b after =>
    have hl : ¬ before.length + (after.length + 1) ≤ before.length := by omega
    simp [insert, Zipper.editor, Zipper.line, hl, Editor.before, Editor.after]

theorem deleteBefore_editor :
    (z.editor history).deleteBefore.1 =
      Zipper.editor { z with before := z.before.dropLast }
        (z.editor history).deleteBefore.1.history := by
  obtain ⟨before, after⟩ := z
  rcases List.eq_nil_or_concat before with rfl | ⟨before, b, rfl⟩
  · rfl
  · simp [deleteBefore, Zipper.editor, Zipper.line, List.eraseIdx_append_of_length_le]

theorem moveLeft_editor : (z.editor history).moveLeft.1 = z.moveLeft.editor history := by
  obtain ⟨before, after⟩ := z
  rcases List.eq_nil_or_concat before with rfl | ⟨before, b, rfl⟩
  · rfl
  · simp [moveLeft, Zipper.moveLeft, Zipper.editor, Zipper.line]

theorem moveRight_editor : (z.editor history).moveRight.1 = z.moveRight.editor history := by
  obtain ⟨before, after⟩ := z
  cases after with
  | nil => simp [moveRight, Zipper.moveRight, Zipper.editor, Zipper.line]
  | cons b after => simp [moveRight, Zipper.moveRight, Zipper.editor, Zipper.line]

theorem follow_editor (step : History.Step) :
    ((z.editor history).follow step).1 = (z.follow step).editor history := by
  rcases step with _ | line
  · rfl
  · simp [follow, replaceLine, Zipper.follow, Zipper.editor, Zipper.line, Zipper.ofLine]

theorem eq_editor {e : Editor} {z : Zipper} {history : History} (h : e = z.editor history) :
    e = z.editor e.history := by
  rw [h]
  rfl

theorem apply_editor (op : Op) :
    ((z.editor history).apply op).1 =
      (z.apply history op).editor ((z.editor history).apply op).1.history := by
  cases op with
  | insert byte => exact eq_editor (insert_editor z history byte)
  | deleteBefore => exact deleteBefore_editor z history
  | moveLeft => exact eq_editor (moveLeft_editor z history)
  | moveRight => exact eq_editor (moveRight_editor z history)
  | moveToStart => exact eq_editor rfl
  | moveToEnd => simp [apply, moveToEnd, Zipper.apply, Zipper.editor, Zipper.line, Zipper.ofLine]
  | replaceLine line => exact eq_editor (follow_editor z history (.recall line))
  | historyPrevious =>
    exact eq_editor (follow_editor z (history.previous z.line).1 (history.previous z.line).2)
  | historyNext => exact eq_editor (follow_editor z history.next.1 history.next.2)
  | takeLine => rfl
  | commit line =>
    simp only [apply, commit]
    split <;> rfl
  | enter =>
    by_cases hl : (z.editor history).buffer = [] <;> simp only [apply, takeLine, commit, hl] <;> rfl
  | redraw => rfl
  | clearHistory => rfl
  | stopBrowsing => rfl

variable {z history} {e : Editor}

theorem apply_sides (h : e.cursor ≤ e.buffer.length) (op : Op) :
    (e.apply op).1.sides = e.sides.apply e.history op := by
  have ha := apply_editor e.sides e.history op
  rw [editor_sides h] at ha
  rw [ha, sides_editor]

theorem cursor_le_apply (h : e.cursor ≤ e.buffer.length) (op : Op) :
    (e.apply op).1.cursor ≤ (e.apply op).1.buffer.length := by
  have ha := apply_editor e.sides e.history op
  rw [editor_sides h] at ha
  rw [ha]
  exact cursor_le_editor ..

theorem cursor_le_run (h : e.cursor ≤ e.buffer.length) (ops : List Op) :
    (e.run ops).cursor ≤ (e.run ops).buffer.length := by
  induction ops generalizing e with
  | nil => exact h
  | cons op ops ih => exact ih (cursor_le_apply h op)

end Editor

namespace Bytes

def insertAt? (bytes : Bytes) (position : Nat) (byte : UInt8) : Option Bytes :=
  if position ≤ bytes.length then some (bytes.insertIdx position byte) else none

def removeAt? (bytes : Bytes) (position : Nat) : Option Bytes :=
  if position < bytes.length then some (bytes.eraseIdx position) else none

def rest? (bytes : Bytes) (position : Nat) : Option Bytes :=
  if position ≤ bytes.length then some (bytes.drop position) else none

theorem insertIdx_eq {bytes : Bytes} {position : Nat} (h : position ≤ bytes.length) (byte : UInt8) :
    bytes.insertIdx position byte = bytes.take position ++ byte :: bytes.drop position := by
  obtain ⟨before, after, rfl, rfl, hm⟩ := List.exists_of_modifyTailIdx (List.cons byte) h
  rw [List.take_left, List.drop_left]
  exact hm

end Bytes

def difference? (a b : Nat) : Option Nat :=
  if b ≤ a then some (a - b) else none

namespace Editor

open Display (Command)

def refresh? (e : Editor) : Option (List Command) :=
  (e.buffer.rest? e.cursor).map fun rest => [.erase, .control rest, .left rest.length]

def insert? (e : Editor) (byte : UInt8) : Option Change :=
  if e.buffer.length ≤ e.cursor then some (e.insert byte)
  else do
    let buffer ← e.buffer.insertAt? e.cursor byte
    let grown := { e with buffer, history := e.history.stopBrowsing }
    let commands ← grown.refresh?
    some ({ grown with cursor := e.cursor + 1 }, commands ++ [.right 1])

def deleteBefore? (e : Editor) : Option Change :=
  if e.cursor = 0 then some (e, [.bell])
  else do
    let cursor ← difference? e.cursor 1
    let buffer ← e.buffer.removeAt? cursor
    let shrunk := { buffer, cursor, history := e.history.stopBrowsing }
    let commands ← shrunk.refresh?
    some (shrunk, .left 1 :: commands)

def moveLeft? (e : Editor) : Option Change :=
  if 0 < e.cursor then
    (difference? e.cursor 1).map fun cursor => ({ e with cursor }, [.left 1])
  else some (e, [.bell])

def moveToEnd? (e : Editor) : Option Change :=
  (difference? e.buffer.length e.cursor).map fun columns =>
    ({ e with cursor := e.buffer.length }, [.right columns])

def redraw? (e : Editor) : Option Change :=
  (difference? e.buffer.length e.cursor).map fun columns => (e, [.send e.buffer, .left columns])

/-- The operation as a sequence of steps of which one that leaves the line fails. -/
def attempt (e : Editor) : Op → Option Change
  | .insert byte => e.insert? byte
  | .deleteBefore => e.deleteBefore?
  | .moveLeft => e.moveLeft?
  | .moveToEnd => e.moveToEnd?
  | .redraw => e.redraw?
  | op => some (e.apply op)

variable {e : Editor}

theorem refresh?_eq (h : e.cursor ≤ e.buffer.length) : e.refresh? = some e.refresh := by
  rw [refresh?, Bytes.rest?, if_pos h]
  rfl

theorem insert?_eq (h : e.cursor ≤ e.buffer.length) (byte : UInt8) :
    e.insert? byte = some (e.insert byte) := by
  by_cases hl : e.buffer.length ≤ e.cursor
  · rw [insert?, if_pos hl]
  · have hi : e.buffer.insertAt? e.cursor byte = some (e.before ++ byte :: e.after) := by
      rw [Bytes.insertAt?, if_pos h, Bytes.insertIdx_eq h]
      rfl
    have hb : e.cursor ≤ (e.before ++ byte :: e.after).length := by
      simp [before, after]
      omega
    have hr := refresh?_eq (e :=
      { e with buffer := e.before ++ byte :: e.after, history := e.history.stopBrowsing }) hb
    simp only [insert?, insert, if_neg hl, hi, hr, Option.bind_eq_bind, Option.bind_some]

theorem deleteBefore?_eq (h : e.cursor ≤ e.buffer.length) :
    e.deleteBefore? = some e.deleteBefore := by
  by_cases hc : e.cursor = 0
  · rw [deleteBefore?, deleteBefore, if_pos hc, if_pos hc]
  · have hd : difference? e.cursor 1 = some (e.cursor - 1) := if_pos (Nat.pos_of_ne_zero hc)
    have hm : e.buffer.removeAt? (e.cursor - 1) = some (e.buffer.eraseIdx (e.cursor - 1)) :=
      if_pos (by omega)
    have hb : e.cursor - 1 ≤ (e.buffer.eraseIdx (e.cursor - 1)).length := by
      rw [List.length_eraseIdx]
      split <;> omega
    have hr := refresh?_eq (e :=
      { buffer := e.buffer.eraseIdx (e.cursor - 1), cursor := e.cursor - 1,
        history := e.history.stopBrowsing }) hb
    simp only [deleteBefore?, deleteBefore, if_neg hc, hd, hm, hr, Option.bind_eq_bind,
      Option.bind_some]

theorem moveLeft?_eq (e : Editor) : e.moveLeft? = some e.moveLeft := by
  by_cases hc : 0 < e.cursor
  · have hd : difference? e.cursor 1 = some (e.cursor - 1) := if_pos hc
    rw [moveLeft?, moveLeft, if_pos hc, if_pos hc, hd, Option.map_some]
  · rw [moveLeft?, moveLeft, if_neg hc, if_neg hc]

theorem moveToEnd?_eq (h : e.cursor ≤ e.buffer.length) : e.moveToEnd? = some e.moveToEnd := by
  rw [moveToEnd?, difference?, if_pos h]
  rfl

theorem redraw?_eq (h : e.cursor ≤ e.buffer.length) : e.redraw? = some (e, e.redraw) := by
  rw [redraw?, difference?, if_pos h]
  rfl

theorem attempt_eq (h : e.cursor ≤ e.buffer.length) (op : Op) :
    e.attempt op = some (e.apply op) := by
  cases op with
  | insert byte => exact insert?_eq h byte
  | deleteBefore => exact deleteBefore?_eq h
  | moveLeft => exact moveLeft?_eq e
  | moveToEnd => exact moveToEnd?_eq h
  | redraw => exact redraw?_eq h
  | _ => rfl

def attemptAll (e : Editor) (d : Display) : List Op → Option (Editor × Display)
  | [] => some (e, d)
  | op :: ops => (e.attempt op).bind fun change => change.1.attemptAll (d.present change.2).1 ops

theorem attemptAll_eq (h : e.cursor ≤ e.buffer.length) (d : Display) (ops : List Op) :
    ∃ shown, e.attemptAll d ops = some (e.run ops, shown) := by
  induction ops generalizing e d with
  | nil => exact ⟨d, rfl⟩
  | cons op ops ih =>
    obtain ⟨shown, hs⟩ := ih (cursor_le_apply h op) (d.present (e.apply op).2).1
    exact ⟨shown, by rw [attemptAll, attempt_eq h, Option.bind_some, hs]; rfl⟩

/-- Whatever is done to a new line, and on whatever display, no step leaves the line, and the sides
of the cursor change as the two sides of a list do. -/
theorem run_sides (limit : Nat) (d : Display) (ops : List Op) :
    let e := (ofLimit limit).run ops
    (∃ shown, (ofLimit limit).attemptAll d ops = some (e, shown)) ∧
      e.cursor ≤ e.buffer.length ∧
      (∀ op, e.attempt op = some (e.apply op)) ∧
      (ofLimit limit).sides = {} ∧
      ∀ op, (e.apply op).1.sides = e.sides.apply e.history op := by
  intro e
  have hn : (ofLimit limit).cursor ≤ (ofLimit limit).buffer.length := Nat.le_refl 0
  have h : e.cursor ≤ e.buffer.length := cursor_le_run hn ops
  exact ⟨attemptAll_eq hn d ops, h, attempt_eq h, rfl, apply_sides h⟩

example : attempt { buffer := [0x61], cursor := 2 } .redraw = none := rfl

end Editor

end Vty
