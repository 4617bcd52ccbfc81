import Vty.Proofs.Editor.History

namespace Vty

def Bytes.Over (P : UInt8 → Prop) (bytes : Bytes) : Prop :=
  ∀ b ∈ bytes, P b

variable {P : UInt8 → Prop}

namespace Bytes.Over

theorem nil : Bytes.Over P [] :=
  fun _ hb => absurd hb List.not_mem_nil

theorem append {a b : Bytes} (ha : Bytes.Over P a) (hb : Bytes.Over P b) :
    Bytes.Over P (a ++ b) := by
  intro c hc
  rcases List.mem_append.mp hc with hc | hc
  · exact ha c hc
  · exact hb c hc

theorem sublist {a b : Bytes} (hb : Bytes.Over P b) (h : a.Sublist b) : Bytes.Over P a :=
  fun c hc => hb c (h.subset hc)

end Bytes.Over

def Display.Command.Over (P : UInt8 → Prop) : Display.Command → Prop
  | .send bytes | .control bytes => Bytes.Over P bytes
  | .echo bytes => Bytes.Over P bytes ∨ bytes = [0x0D, 0x0A]
  | .will _ => False
  | .left _ | .right _ | .erase | .bell | .text _ _ => True

namespace History

def Over (P : UInt8 → Prop) (h : History) : Prop :=
  ∀ line ∈ h.entries, Bytes.Over P line

def Op.Over (P : UInt8 → Prop) : Op → Prop
  | .add line | .previous line => Bytes.Over P line
  | .next | .stopBrowsing | .clear => True

variable {h : History} {line : Bytes}

theorem Over.record (ho : h.Over P) (hl : Bytes.Over P line) : (h.record line).Over P := by
  intro entry hm
  rcases mem_of_record hm with hm | rfl
  · exact ho entry hm
  · exact hl

theorem Over.previous (ho : h.Over P) (hl : Bytes.Over P line) : (h.previous line).1.Over P := by
  have hs : (h.startBrowsing line).1.Over P := by
    intro entry hm
    rcases mem_of_startBrowsing hm with hm | rfl
    · exact ho entry hm
    · exact hl
  unfold History.previous
  split
  · exact ho
  · generalize h.startBrowsing line = started at hs
    obtain ⟨grown, index⟩ := started
    cases index <;> exact hs

theorem Over.next (ho : h.Over P) : h.next.1.Over P := by
  unfold History.next
  split
  · exact ho
  · split <;> exact ho

theorem Over.apply (ho : h.Over P) {op : Op} (hop : op.Over P) : (h.apply op).1.Over P := by
  cases op with
  | add line => exact ho.record hop
  | previous draft => exact ho.previous hop
  | next => exact ho.next
  | stopBrowsing => exact ho
  | clear => exact fun _ hm => absurd hm List.not_mem_nil

end History

namespace Editor

structure Over (P : UInt8 → Prop) (e : Editor) : Prop where
  line : Bytes.Over P e.buffer
  history : e.history.Over P

structure Change.Over (P : UInt8 → Prop) (change : Change) : Prop where
  editor : change.1.Over P
  commands : ∀ command ∈ change.2, command.Over P

variable {e : Editor}

theorem over_ofLimit (limit : Nat) : (ofLimit limit).Over P :=
  ⟨.nil, fun _ hm => absurd hm List.not_mem_nil⟩

theorem Over.refresh (h : e.Over P) : ∀ command ∈ e.refresh, command.Over P := by
  simp only [Editor.refresh, List.forall_mem_cons, Display.Command.Over]
  exact ⟨trivial, h.line.sublist (List.drop_sublist ..), trivial, nofun⟩

theorem Over.redraw (h : e.Over P) : ∀ command ∈ e.redraw, command.Over P := by
  simp only [Editor.redraw, List.forall_mem_cons, Display.Command.Over]
  exact ⟨h.line, trivial, nofun⟩

theorem Over.quiet (h : e.Over P) (cursor : Nat) {command : Display.Command}
    (hc : command.Over P) : Change.Over P ({ e with cursor }, [command]) :=
  ⟨⟨h.line, h.history⟩, by simpa using hc⟩

theorem Over.insert (h : e.Over P) {byte : UInt8} (hb : P byte) : (e.insert byte).Over P := by
  have hs : Bytes.Over P [byte] := by simpa [Bytes.Over] using hb
  unfold Editor.insert
  split
  · refine ⟨⟨h.line.append hs, h.history⟩, ?_⟩
    simpa [Display.Command.Over] using hs
  · have hg : Over P { e with
        buffer := e.before ++ byte :: e.after, history := e.history.stopBrowsing } := by
      have ha := h.line.sublist (List.drop_sublist e.cursor _)
      exact ⟨(h.line.sublist (List.take_sublist ..)).append (hs.append ha), h.history⟩
    refine ⟨⟨hg.line, hg.history⟩, ?_⟩
    rw [List.forall_mem_append]
    exact ⟨hg.refresh, by simp [Display.Command.Over]⟩

theorem Over.deleteBefore (h : e.Over P) : e.deleteBefore.Over P := by
  unfold Editor.deleteBefore
  split
  · exact h.quiet _ trivial
  · have hs : Over P
        { buffer := e.buffer.eraseIdx (e.cursor - 1), cursor := e.cursor - 1,
          history := e.history.stopBrowsing } :=
      ⟨h.line.sublist (List.eraseIdx_sublist ..), h.history⟩
    refine ⟨hs, ?_⟩
    rw [List.forall_mem_cons]
    exact ⟨trivial, hs.refresh⟩

theorem Over.moveLeft (h : e.Over P) : e.moveLeft.Over P := by
  unfold Editor.moveLeft
  split <;> exact h.quiet _ trivial

theorem Over.moveRight (h : e.Over P) : e.moveRight.Over P := by
  unfold Editor.moveRight
  split <;> exact h.quiet _ trivial

theorem Over.follow (h : e.Over P) {history : History} (hh : history.Over P) {step : History.Step}
    (hs : ∀ line, step = .recall line → Bytes.Over P line) :
    (({ e with history } : Editor).follow step).Over P := by
  match step with
  | .bell => exact ⟨⟨h.line, hh⟩, by simp [Editor.follow, Display.Command.Over]⟩
  | .recall line =>
    have hl := hs line rfl
    refine ⟨⟨hl, hh⟩, ?_⟩
    simpa [Editor.follow, replaceLine, Display.Command.Over] using hl

theorem Over.historyPrevious (h : e.Over P) : e.historyPrevious.Over P := by
  refine h.follow (h.history.previous h.line) fun line hs => ?_
  rcases History.mem_of_previous hs with hm | rfl | rfl
  · exact h.history line hm
  · exact h.line
  · exact .nil

theorem Over.historyNext (h : e.Over P) : e.historyNext.Over P := by
  refine h.follow h.history.next fun line hs => ?_
  rcases History.mem_of_next hs with hm | rfl
  · exact h.history line hm
  · exact .nil

theorem Over.takeLine (h : e.Over P) : e.takeLine.2.Over P :=
  ⟨.nil, h.history⟩

theorem Over.commit (h : e.Over P) {line : Bytes} (hl : Bytes.Over P line) :
    (e.commit line).Over P := by
  unfold Editor.commit
  split
  · exact h
  · exact ⟨h.line, h.history.record hl⟩

def Op.Over (P : UInt8 → Prop) : Op → Prop
  | .insert byte => P byte
  | .replaceLine line | .commit line => Bytes.Over P line
  | .deleteBefore | .moveLeft | .moveRight | .moveToStart | .moveToEnd => True
  | .historyPrevious | .historyNext | .takeLine | .enter => True
  | .redraw | .clearHistory | .stopBrowsing => True

theorem Over.apply (h : e.Over P) {op : Op} (ho : op.Over P) : (e.apply op).1.Over P := by
  cases op with
  | insert byte => exact (h.insert ho).editor
  | deleteBefore => exact h.deleteBefore.editor
  | moveLeft => exact h.moveLeft.editor
  | moveRight => exact h.moveRight.editor
  | moveToStart => exact ⟨h.line, h.history⟩
  | moveToEnd => exact ⟨h.line, h.history⟩
  | replaceLine line => exact ⟨ho, h.history⟩
  | historyPrevious => exact h.historyPrevious.editor
  | historyNext => exact h.historyNext.editor
  | takeLine => exact h.takeLine
  | commit line => exact h.commit ho
  | enter => exact h.takeLine.commit h.line
  | redraw => exact h
  | clearHistory => exact ⟨h.line, fun _ hm => absurd hm List.not_mem_nil⟩
  | stopBrowsing => exact ⟨h.line, h.history⟩

end Editor

end Vty
