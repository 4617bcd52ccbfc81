import Vty.Proofs.Display.Terminal
import Vty.Proofs.Editor.History

namespace Vty

namespace Display

theorem Command.encode_congr {p q : Policy} (he : p.mustEcho = q.mustEcho)
    (hs : p.sendsControl = q.sendsControl) (command : Command) :
    command.encode p = command.encode q := by
  cases command <;> simp only [Command.encode, he, hs]

def Policy.terminal : Policy :=
  { connection := .terminal }

theorem Command.encode_echoing {p : Policy} (he : p.mustEcho = true) (command : Command) :
    command.encode p = command.encode .terminal := by
  have hs : p.sendsControl = true := by rw [Policy.sendsControl, he, Bool.or_true]
  exact encode_congr (he.trans rfl) (hs.trans rfl) command

theorem Command.encode_terminal {p : Policy} (hp : p.connection = .terminal) (command : Command) :
    command.encode p = command.encode .terminal :=
  encode_echoing (by rw [Policy.mustEcho, hp]) command

end Display

open Display (Command)

namespace Terminal

def obey (t : Terminal) (command : Command) : Terminal :=
  t.run (command.encode .terminal)

def perform (t : Terminal) (commands : List Command) : Terminal :=
  commands.foldl obey t

theorem perform_cons (t : Terminal) (command : Command) (commands : List Command) :
    t.perform (command :: commands) = (t.obey command).perform commands :=
  rfl

theorem perform_append (t : Terminal) (a b : List Command) :
    t.perform (a ++ b) = (t.perform a).perform b :=
  List.foldl_append

theorem run_encode (t : Terminal) (commands : List Command) :
    t.run (commands.flatMap (Command.encode .terminal)) = t.perform commands := by
  induction commands generalizing t with
  | nil => rfl
  | cons command commands ih => rw [List.flatMap_cons, run_append, ih, perform_cons, obey]

def onLine (prompt buffer : Bytes) (cursor : Nat) : Terminal :=
  between (prompt ++ buffer.take cursor) (buffer.drop cursor)

theorem onLine_eq (prompt : Bytes) {buffer : Bytes} {cursor : Nat} (h : cursor ≤ buffer.length) :
    onLine prompt buffer cursor =
      { row := prompt ++ buffer, column := prompt.length + cursor, mode := .ground } := by
  simp [onLine, between, h]

theorem onLine_length (prompt buffer : Bytes) :
    onLine prompt buffer buffer.length = between (prompt ++ buffer) [] := by
  simp [onLine]

variable {prompt buffer : Bytes} {i j : Nat}

theorem take_drop_between (hi : i ≤ j) (hj : j ≤ buffer.length) :
    ∃ middle, middle.length = j - i ∧ buffer.take j = buffer.take i ++ middle ∧
      buffer.drop i = middle ++ buffer.drop j := by
  refine ⟨(buffer.take j).drop i, by simp; omega, ?_, ?_⟩
  · have h := List.take_append_drop i (buffer.take j)
    rw [List.take_take, Nat.min_eq_left hi] at h
    exact h.symm
  · rw [List.drop_take]
    have h := List.take_append_drop (j - i) (buffer.drop i)
    rw [List.drop_drop, Nat.add_sub_of_le hi] at h
    exact h.symm

theorem obey_left (hi : i ≤ j) (hj : j ≤ buffer.length) :
    (onLine prompt buffer j).obey (.left (j - i)) = onLine prompt buffer i := by
  obtain ⟨middle, hl, ht, hd⟩ := take_drop_between hi hj
  have h := run_left (prompt ++ buffer.take i) middle (buffer.drop j)
  rw [hl, List.append_assoc, ← ht, ← hd] at h
  exact h

theorem obey_right (hi : i ≤ j) (hj : j ≤ buffer.length) :
    (onLine prompt buffer i).obey (.right (j - i)) = onLine prompt buffer j := by
  obtain ⟨middle, hl, ht, hd⟩ := take_drop_between hi hj
  have h := run_right (prompt ++ buffer.take i) middle (buffer.drop j)
  rw [hl, List.append_assoc, ← ht, ← hd] at h
  exact h

theorem obey_erase :
    (onLine prompt buffer j).obey .erase =
      onLine prompt (buffer.take j) (buffer.take j).length := by
  rw [onLine_length]
  exact run_erase _ _

theorem obey_bell : (onLine prompt buffer j).obey .bell = onLine prompt buffer j :=
  run_bell _ _

theorem run_onLine {bytes : Bytes} (h : Printable bytes) :
    (onLine prompt buffer buffer.length).run bytes =
      onLine prompt (buffer ++ bytes) (buffer ++ bytes).length := by
  rw [onLine_length, run_printable h, onLine_length, List.append_assoc, List.drop_nil]

theorem obey_control {bytes : Bytes} (h : Printable bytes) :
    (onLine prompt buffer buffer.length).obey (.control bytes) =
      onLine prompt (buffer ++ bytes) (buffer ++ bytes).length :=
  run_onLine h

theorem obey_echo {bytes : Bytes} (h : Printable bytes) :
    (onLine prompt buffer buffer.length).obey (.echo bytes) =
      onLine prompt (buffer ++ bytes) (buffer ++ bytes).length :=
  run_onLine h

theorem obey_send {bytes : Bytes} (h : Printable bytes) :
    (onLine prompt buffer buffer.length).obey (.send bytes) =
      onLine prompt (buffer ++ bytes) (buffer ++ bytes).length :=
  run_onLine h

theorem obey_text {message : String} (h : Plain (Text.utf8 message)) (left right : Bytes) :
    (between left right).obey (.text message true) = between [] [] := by
  obtain ⟨left', right', hr⟩ := run_expandNewlines h left right
  have he : Command.encode .terminal (.text message true) =
      Display.expandNewlines (Text.utf8 message) ++ [0x0D, 0x0A] := List.flatMap_append
  rw [obey, he, run_append, hr, run_newline]

theorem obey_prompt {message : String} (h : Printable (Text.utf8 message)) :
    (between [] []).obey (.text message false) = onLine (Text.utf8 message) [] 0 := by
  have he : Command.encode .terminal (.text message false) = Text.utf8 message := by
    have hx : Display.expandNewlines (Text.utf8 message ++ []) = Text.utf8 message := by
      rw [List.append_nil]
      exact expandNewlines_printable h
    exact hx
  rw [obey, he, run_printable h, List.drop_nil]
  simp [onLine]

theorem perform_texts {texts : List String} (h : ∀ text ∈ texts, Plain (Text.utf8 text)) :
    (between [] []).perform (texts.map (.text · true)) = between [] [] := by
  induction texts with
  | nil => rfl
  | cons text texts ih =>
    rw [List.forall_mem_cons] at h
    rw [List.map_cons, perform_cons, obey_text h.1, ih h.2]

theorem perform_refresh (e : Editor) (hc : e.cursor ≤ e.buffer.length) (hp : Printable e.buffer)
    (hb : buffer.take e.cursor = e.before) :
    (onLine prompt buffer e.cursor).perform e.refresh = onLine prompt e.buffer e.cursor := by
  have ha : Printable e.after := hp.sublist (List.drop_sublist ..)
  have hd : e.after.length = e.buffer.length - e.cursor := List.length_drop
  unfold Editor.refresh
  rw [perform_cons, obey_erase, hb, perform_cons, obey_control ha, Editor.before_append_after,
    perform_cons, hd, obey_left hc (Nat.le_refl _)]
  rfl

end Terminal

namespace Editor

structure Tidy (e : Editor) : Prop where
  cursor_le : e.cursor ≤ e.buffer.length
  printable : Terminal.Printable e.buffer

structure Shown (e : Editor) (change : Change) : Prop where
  tidy : change.1.Tidy
  perform : ∀ prompt, (Terminal.onLine prompt e.buffer e.cursor).perform change.2 =
    Terminal.onLine prompt change.1.buffer change.1.cursor

open Terminal (Printable onLine)

variable {e : Editor}

theorem Tidy.shown_bell (h : e.Tidy) : e.Shown (e, [.bell]) :=
  ⟨h, fun _ => Terminal.obey_bell⟩

theorem Tidy.history (h : e.Tidy) (history : History) : ({ e with history } : Editor).Tidy :=
  ⟨h.cursor_le, h.printable⟩

theorem shown_insert (h : e.Tidy) {byte : UInt8} (hb : Terminal.isControl byte = false) :
    e.Shown (e.insert byte) := by
  have hs : Printable [byte] := by simpa [Printable] using hb
  unfold insert
  split
  · rename_i hl
    have hc : e.cursor = e.buffer.length := Nat.le_antisymm h.cursor_le hl
    refine ⟨⟨?_, h.printable.append hs⟩, fun prompt => ?_⟩
    · rw [List.length_append]
      exact Nat.add_le_add_right h.cursor_le 1
    · have hr : (onLine prompt e.buffer e.buffer.length).obey (.echo [byte]) = _ :=
        Terminal.obey_echo hs
      rw [List.length_append, List.length_singleton, ← hc] at hr
      exact hr
  · rename_i hl
    have hc : e.before.length = e.cursor := List.length_take_of_le h.cursor_le
    have hp : Printable (e.before ++ byte :: e.after) := by
      have ha := h.printable.sublist (List.drop_sublist e.cursor _)
      exact (h.printable.sublist (List.take_sublist ..)).append (hs.append ha)
    have hg : e.cursor + 1 ≤ (e.before ++ byte :: e.after).length := by
      rw [List.length_append, hc, List.length_cons]
      omega
    have ht : e.buffer.take e.cursor = (e.before ++ byte :: e.after).take e.cursor :=
      (List.take_left' hc).symm
    refine ⟨⟨hg, hp⟩, fun prompt => ?_⟩
    let grown : Editor :=
      { e with buffer := e.before ++ byte :: e.after, history := e.history.stopBrowsing }
    have hf : (onLine prompt e.buffer e.cursor).perform grown.refresh = _ :=
      Terminal.perform_refresh grown (Nat.le_of_succ_le hg) hp ht
    have hr : (onLine prompt (e.before ++ byte :: e.after) e.cursor).obey
        (.right (e.cursor + 1 - e.cursor)) = _ := Terminal.obey_right (Nat.le_add_right ..) hg
    rw [Nat.add_sub_cancel_left] at hr
    rw [Terminal.perform_append]
    exact (congrArg (Terminal.perform · [.right 1]) hf).trans hr

theorem shown_deleteBefore (h : e.Tidy) : e.Shown e.deleteBefore := by
  unfold deleteBefore
  split
  · exact h.shown_bell
  · rename_i hc
    have hb := h.cursor_le
    have hl : e.cursor - 1 ≤ (e.buffer.eraseIdx (e.cursor - 1)).length := by
      rw [List.length_eraseIdx]
      split <;> omega
    have hp := h.printable.sublist (List.eraseIdx_sublist e.buffer (e.cursor - 1))
    refine ⟨⟨hl, hp⟩, fun prompt => ?_⟩
    have hs : (onLine prompt e.buffer e.cursor).obey (.left (e.cursor - (e.cursor - 1))) = _ :=
      Terminal.obey_left (Nat.sub_le ..) hb
    rw [Nat.sub_sub_self (Nat.pos_of_ne_zero hc)] at hs
    rw [Terminal.perform_cons, hs]
    have ht : e.buffer.take (e.cursor - 1) =
        (e.buffer.eraseIdx (e.cursor - 1)).take (e.cursor - 1) := by
      rw [List.eraseIdx_eq_take_drop_succ, List.take_left' (List.length_take_of_le (by omega))]
    let shrunk : Editor :=
      { buffer := e.buffer.eraseIdx (e.cursor - 1), cursor := e.cursor - 1,
        history := e.history.stopBrowsing }
    exact Terminal.perform_refresh shrunk hl hp ht

theorem shown_moveLeft (h : e.Tidy) : e.Shown e.moveLeft := by
  unfold moveLeft
  split
  · rename_i hc
    refine ⟨⟨Nat.le_trans (Nat.sub_le ..) h.cursor_le, h.printable⟩, fun prompt => ?_⟩
    have hl : (onLine prompt e.buffer e.cursor).obey (.left (e.cursor - (e.cursor - 1))) = _ :=
      Terminal.obey_left (Nat.sub_le ..) h.cursor_le
    rw [Nat.sub_sub_self hc] at hl
    exact hl
  · exact h.shown_bell

theorem shown_moveRight (h : e.Tidy) : e.Shown e.moveRight := by
  unfold moveRight
  split
  · rename_i hc
    refine ⟨⟨hc, h.printable⟩, fun prompt => ?_⟩
    have hr : (onLine prompt e.buffer e.cursor).obey (.right (e.cursor + 1 - e.cursor)) = _ :=
      Terminal.obey_right (Nat.le_add_right ..) hc
    rw [Nat.add_sub_cancel_left] at hr
    exact hr
  · exact h.shown_bell

theorem shown_moveToStart (h : e.Tidy) : e.Shown e.moveToStart :=
  ⟨⟨Nat.zero_le _, h.printable⟩, fun _ => Terminal.obey_left (Nat.zero_le _) h.cursor_le⟩

theorem shown_moveToEnd (h : e.Tidy) : e.Shown e.moveToEnd :=
  ⟨⟨Nat.le_refl _, h.printable⟩, fun _ => Terminal.obey_right h.cursor_le (Nat.le_refl _)⟩

theorem shown_replaceLine (h : e.Tidy) {line : Bytes} (hl : Printable line) :
    e.Shown (e.replaceLine line) := by
  refine ⟨⟨Nat.le_refl _, hl⟩, fun prompt => ?_⟩
  unfold replaceLine
  have hs : (onLine prompt e.buffer e.cursor).obey (.left e.cursor) = onLine prompt e.buffer 0 :=
    Terminal.obey_left (Nat.zero_le _) h.cursor_le
  rw [Terminal.perform_cons, hs, Terminal.perform_cons, Terminal.obey_erase, List.take_zero,
    Terminal.perform_cons, Terminal.obey_control hl]
  rfl

theorem Tidy.perform_redraw (h : e.Tidy) (prompt : Bytes) :
    (onLine prompt [] 0).perform e.redraw = onLine prompt e.buffer e.cursor := by
  have hs : (onLine prompt [] ([] : Bytes).length).obey (.send e.buffer) = _ :=
    Terminal.obey_send h.printable
  rw [redraw, Terminal.perform_cons]
  exact (congrArg (Terminal.perform · _) hs).trans
    (Terminal.obey_left h.cursor_le (Nat.le_refl e.buffer.length))

theorem shown_follow (h : e.Tidy) (history : History) {step : History.Step}
    (hs : ∀ line, step = .recall line → Printable line) :
    e.Shown (({ e with history } : Editor).follow step) := by
  have hh := h.history history
  match step with
  | .bell => exact ⟨hh.shown_bell.tidy, hh.shown_bell.perform⟩
  | .recall line =>
    have hr := shown_replaceLine hh (hs line rfl)
    exact ⟨hr.tidy, hr.perform⟩

theorem Tidy.printable_previous (h : e.Tidy) (hh : ∀ line ∈ e.history.entries, Printable line)
    {line : Bytes} (hs : (e.history.previous e.buffer).2 = .recall line) : Printable line := by
  rcases History.mem_of_previous hs with hm | rfl | rfl
  · exact hh line hm
  · exact h.printable
  · exact Terminal.printable_nil

theorem printable_next (hh : ∀ line ∈ e.history.entries, Printable line) {line : Bytes}
    (hs : e.history.next.2 = .recall line) : Printable line := by
  rcases History.mem_of_next hs with hm | rfl
  · exact hh line hm
  · exact Terminal.printable_nil

theorem shown_historyPrevious (h : e.Tidy) (hh : ∀ line ∈ e.history.entries, Printable line) :
    e.Shown e.historyPrevious :=
  shown_follow h _ fun _ hs => h.printable_previous hh hs

theorem shown_historyNext (h : e.Tidy) (hh : ∀ line ∈ e.history.entries, Printable line) :
    e.Shown e.historyNext :=
  shown_follow h _ fun _ hs => printable_next hh hs

end Editor

end Vty
