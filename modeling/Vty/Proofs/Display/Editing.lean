import Vty.Proofs.Display.Margin
import Vty.Proofs.Editor.Browsing

namespace Vty

open Display (Command)
open Terminal (Printable)

namespace Editor

def Op.Edits : Op → Prop
  | .insert byte => Terminal.isControl byte = false
  | .replaceLine line => Printable line
  | .deleteBefore | .moveLeft | .moveRight | .moveToStart | .moveToEnd => True
  | .historyPrevious | .historyNext => True
  | .takeLine | .commit _ | .enter | .redraw | .clearHistory | .stopBrowsing => False

variable {e : Editor} {margin column : Nat}

theorem stays_refresh (hp : Printable e.buffer) {commands : List Command}
    (h : Command.Stays margin column commands) :
    Command.Stays margin column (e.refresh ++ commands) := by
  have ha : Printable e.after := hp.sublist (List.drop_sublist ..)
  have hm := h.margin_le
  simp only [refresh, List.cons_append, List.nil_append, Command.Stays, Command.Drawn,
    Command.shift, Nat.add_sub_cancel]
  exact ⟨hm, trivial, hm, ha, Nat.le_add_right_of_le hm, trivial, h⟩

theorem stays_insert (h : e.Tidy) {byte : UInt8} (hb : Terminal.isControl byte = false) :
    Command.Stays margin (margin + e.cursor) (e.insert byte).2 := by
  have hs : Printable [byte] := by simpa [Printable] using hb
  have hg := (shown_insert h hb).tidy.printable
  unfold insert at hg ⊢
  split at hg
  · rw [if_pos ‹_›]
    exact Command.stays_echo (Nat.le_add_right ..) hs
  · rw [if_neg ‹_›]
    let grown : Editor :=
      { e with buffer := e.before ++ byte :: e.after, history := e.history.stopBrowsing }
    exact stays_refresh (e := grown) hg (Command.stays_right (Nat.le_add_right ..))

theorem stays_deleteBefore (h : e.Tidy) :
    Command.Stays margin (margin + e.cursor) e.deleteBefore.2 := by
  have hm : margin ≤ margin + e.cursor := Nat.le_add_right ..
  have hg := (shown_deleteBefore h).tidy.printable
  unfold deleteBefore at hg ⊢
  split at hg
  · rw [if_pos ‹_›]
    exact Command.stays_bell hm
  · rw [if_neg ‹_›]
    have hl : Command.Stays margin (margin + e.cursor - 1) [] := by
      change margin ≤ _
      omega
    have hr := stays_refresh hg hl
    rw [List.append_nil] at hr
    exact ⟨hm, trivial, hr⟩

theorem stays_moveLeft : Command.Stays margin (margin + e.cursor) e.moveLeft.2 := by
  unfold moveLeft
  split
  · exact Command.stays_left (by omega)
  · exact Command.stays_bell (Nat.le_add_right ..)

theorem stays_moveRight : Command.Stays margin (margin + e.cursor) e.moveRight.2 := by
  unfold moveRight
  split
  · exact Command.stays_right (Nat.le_add_right ..)
  · exact Command.stays_bell (Nat.le_add_right ..)

theorem stays_replaceLine {line : Bytes} (hl : Printable line) :
    Command.Stays margin (margin + e.cursor) (e.replaceLine line).2 := by
  have hm : margin ≤ margin + e.cursor := Nat.le_add_right ..
  have hz : margin ≤ margin + e.cursor - e.cursor := by omega
  exact ⟨hm, trivial, hz, trivial, hz, hl, Nat.le_add_right_of_le hz⟩

theorem stays_follow (history : History) {step : History.Step}
    (hs : ∀ line, step = .recall line → Printable line) :
    Command.Stays margin (margin + e.cursor) (({ e with history } : Editor).follow step).2 := by
  rcases step with _ | line
  · exact Command.stays_bell (Nat.le_add_right ..)
  · exact stays_replaceLine (e := { e with history }) (hs line rfl)

theorem shown_apply (h : e.Tidy) (hh : ∀ line ∈ e.history.entries, Printable line) {op : Op}
    (ho : op.Edits) : e.Shown (e.apply op) := by
  cases op with
  | insert byte => exact shown_insert h ho
  | deleteBefore => exact shown_deleteBefore h
  | moveLeft => exact shown_moveLeft h
  | moveRight => exact shown_moveRight h
  | moveToStart => exact shown_moveToStart h
  | moveToEnd => exact shown_moveToEnd h
  | replaceLine line => exact shown_replaceLine h ho
  | historyPrevious => exact shown_historyPrevious h hh
  | historyNext => exact shown_historyNext h hh
  | _ => exact ho.elim

theorem stays_apply (h : e.Tidy) (hh : ∀ line ∈ e.history.entries, Printable line) {op : Op}
    (ho : op.Edits) : Command.Stays margin (margin + e.cursor) (e.apply op).2 := by
  cases op with
  | insert byte => exact stays_insert h ho
  | deleteBefore => exact stays_deleteBefore h
  | moveLeft => exact stays_moveLeft
  | moveRight => exact stays_moveRight
  | moveToStart => exact Command.stays_left (Nat.le_refl _)
  | moveToEnd => exact Command.stays_right (Nat.le_add_right ..)
  | replaceLine line => exact stays_replaceLine ho
  | historyPrevious => exact stays_follow _ fun _ hs => h.printable_previous hh hs
  | historyNext => exact stays_follow _ fun _ hs => printable_next hh hs
  | _ => exact ho.elim

def shown (front : Bytes) (e : Editor) : Terminal :=
  { row := front ++ e.buffer, column := front.length + e.cursor }

/-- A terminal that shows one line shows the other once it has taken up the bytes, and its column
is at no time in front of the line. -/
structure Keeps (bytes : Bytes) (e e' : Editor) : Prop where
  run : ∀ front, (e.shown front).run bytes = e'.shown front
  margin : ∀ front k, front.length ≤ ((e.shown front).run (bytes.take k)).column

namespace Keeps

variable {a b : Bytes} {e' e'' : Editor}

theorem refl (e : Editor) : Keeps [] e e where
  run _ := rfl
  margin front k := by
    rw [List.take_nil]
    exact Nat.le_add_right ..

theorem append (h : Keeps a e e') (h' : Keeps b e' e'') : Keeps (a ++ b) e e'' where
  run front := by rw [Terminal.run_append, h.run, h'.run]
  margin front k := by
    rw [List.take_append, Terminal.run_append]
    rcases Nat.lt_or_ge k a.length with hk | hk
    · rw [Nat.sub_eq_zero_of_le (Nat.le_of_lt hk), List.take_zero]
      exact h.margin front k
    · rw [List.take_of_length_le hk, h.run]
      exact h'.margin front _

end Keeps

theorem keeps_apply (h : e.Tidy) (hh : ∀ line ∈ e.history.entries, Printable line) {op : Op}
    (ho : op.Edits) :
    Keeps ((e.apply op).2.flatMap (Command.encode .terminal)) e (e.apply op).1 := by
  have hs := shown_apply h hh ho
  refine ⟨fun front => ?_, fun front k => ?_⟩
  · have hp := hs.perform front
    rw [Terminal.onLine_eq front h.cursor_le, Terminal.onLine_eq front hs.tidy.cursor_le] at hp
    rw [Terminal.run_encode]
    exact hp
  · exact Terminal.margin_le_run (t := e.shown front) rfl (stays_apply h hh ho) k

def drawn (e : Editor) : List Op → List Command
  | [] => []
  | op :: ops => (e.apply op).2 ++ (e.apply op).1.drawn ops

theorem Op.Edits.over {op : Op} (ho : op.Edits) : op.Over (Terminal.isControl · = false) := by
  cases op with
  | insert byte => exact ho
  | replaceLine line => exact ho
  | commit line => exact ho.elim
  | _ => trivial

theorem keeps_run (hc : e.cursor ≤ e.buffer.length) (h : e.Over (Terminal.isControl · = false))
    {ops : List Op} (ho : ∀ op ∈ ops, op.Edits) :
    Keeps ((e.drawn ops).flatMap (Command.encode .terminal)) e (e.run ops) := by
  induction ops generalizing e with
  | nil => exact .refl e
  | cons op ops ih =>
    rw [List.forall_mem_cons] at ho
    have ht : e.Tidy := ⟨hc, h.line⟩
    have hs := (shown_apply ht h.history ho.1).tidy
    rw [drawn, List.flatMap_append]
    exact (keeps_apply ht h.history ho.1).append (ih hs.cursor_le (h.apply ho.1.over) ho.2)

/-- Where input is echoed, what an operation sends keeps a terminal that shows the line in step. -/
theorem apply_in_step (d : Display) (ha : d.attached = true) (hr : d.output.Reliable)
    (hm : d.mustEcho = true) (e : Editor) (hc : e.cursor ≤ e.buffer.length)
    (hp : Printable e.buffer) (hh : ∀ line ∈ e.history.entries, Printable line) (op : Op)
    (ho : op.Edits) :
    ∃ bytes, (d.present (e.apply op).2).1.written = d.written ++ bytes ∧
      ∀ front : Bytes,
        let terminal : Terminal := { row := front ++ e.buffer, column := front.length + e.cursor }
        terminal.run bytes =
            { row := front ++ (e.apply op).1.buffer
              column := front.length + (e.apply op).1.cursor } ∧
          ∀ k, front.length ≤ (terminal.run (bytes.take k)).column := by
  have hd : d.Echoing := ⟨ha, hr, hm⟩
  have hk := keeps_apply ⟨hc, hp⟩ hh ho
  exact ⟨_, (hd.present _).2, fun front => ⟨hk.run front, hk.margin front⟩⟩

theorem apply_in_step_insert :
    let d : Display :=
      { output := { handle := 9, accept := OutputChannel.acceptWithin none (some 3) }
        policy := { connection := .network, negotiated := { echo := true }, gated := true } }
    let e : Editor := { buffer := [0x61, 0x62, 0x64], cursor := 2 }
    let sent : Bytes :=
      [0x1B, 0x5B, 0x4B, 0x63, 0x64, 0x1B, 0x5B, 0x32, 0x44, 0x1B, 0x5B, 0x31, 0x43]
    let terminal : Terminal := { row := [0x3E, 0x20, 0x61, 0x62, 0x64], column := 4 }
    d.attached = true ∧ d.output.Reliable ∧ d.mustEcho = true ∧
      e.cursor ≤ e.buffer.length ∧ Printable e.buffer ∧
      (∀ line ∈ e.history.entries, Printable line) ∧ (Op.insert 0x63).Edits ∧
      (d.present (e.insert 0x63).2).1.written = sent ∧
      terminal.run sent = { row := [0x3E, 0x20, 0x61, 0x62, 0x63, 0x64], column := 5 } ∧
      ∀ k, 2 ≤ (terminal.run (sent.take k)).column := by
  intro d e sent terminal
  have hr : d.output.Reliable := fun _ _ offered ho => ⟨min offered 3, by omega, rfl⟩
  have hp : Printable e.buffer := by decide
  have hh : ∀ line ∈ e.history.entries, Printable line := fun _ hm => absurd hm List.not_mem_nil
  have hw : (d.present (e.insert 0x63).2).1.written = sent := by decide +kernel
  obtain ⟨bytes, hb, hs⟩ := apply_in_step d rfl hr rfl e (by decide) hp hh (.insert 0x63) rfl
  obtain rfl : bytes = sent := hb.symm.trans hw
  obtain ⟨ht, hm⟩ := hs [0x3E, 0x20]
  exact ⟨rfl, hr, rfl, by decide, hp, hh, rfl, hw, ht, hm⟩

end Editor

end Vty
