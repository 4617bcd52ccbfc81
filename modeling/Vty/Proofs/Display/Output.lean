import Vty.Proofs.Display.Line
import Vty.Session

namespace Vty

namespace OutputChannel

theorem handle_write (fuel : Nat) (bytes : Bytes) (c : OutputChannel) :
    (write fuel bytes c).2.handle = c.handle := by
  induction fuel generalizing bytes c with
  | zero => rfl
  | succ fuel ih =>
    cases bytes with
    | nil => rfl
    | cons b bytes =>
      unfold write
      dsimp only
      split
      · rfl
      · rfl
      · apply ih

theorem handle_send (c : OutputChannel) (bytes : Bytes) : (c.send bytes).2.handle = c.handle := by
  have hw := handle_write bytes.length bytes c
  unfold send
  generalize write bytes.length bytes c = result at hw
  obtain ⟨result, c'⟩ := result
  cases result <;> exact hw

/-- Every attempt to write takes a byte at least. -/
def Reliable (c : OutputChannel) : Prop :=
  ∀ attempts taken offered, 0 < offered →
    ∃ count, 0 < count ∧ c.accept attempts taken offered = .ok count

theorem write_reliable {c : OutputChannel} (h : c.Reliable) {fuel : Nat} {bytes : Bytes}
    (hf : bytes.length ≤ fuel) :
    (write fuel bytes c).1 = .ok () ∧ (write fuel bytes c).2.written = c.written ++ bytes ∧
      (write fuel bytes c).2.accept = c.accept := by
  induction fuel generalizing bytes c with
  | zero =>
    obtain rfl := List.length_eq_zero_iff.mp (Nat.le_zero.mp hf)
    simp [write]
  | succ fuel ih =>
    cases bytes with
    | nil => simp [write]
    | cons b bytes =>
      obtain ⟨count, hp, ha⟩ := h c.attempts c.taken (b :: bytes).length (Nat.succ_pos _)
      obtain ⟨count, rfl⟩ := Nat.exists_eq_add_of_le' hp
      let kept := OutputChannel.keep { c with attempts := c.attempts + 1 }
        ((b :: bytes).take (count + 1))
      have hk : kept.Reliable := h
      have hl : ((b :: bytes).drop (count + 1)).length ≤ fuel := by
        rw [List.length_drop]
        omega
      have hi := ih hk hl
      have hw : kept.written = c.written ++ (b :: bytes).take (count + 1) := written_keep ..
      simp only [write, ha]
      refine ⟨hi.1, hi.2.1.trans ?_, hi.2.2⟩
      rw [hw, List.append_assoc, List.take_append_drop]

theorem send_reliable {c : OutputChannel} (h : c.Reliable) (bytes : Bytes) :
    (c.send bytes).2.written = c.written ++ bytes ∧ (c.send bytes).2.accept = c.accept := by
  have hw := write_reliable h (Nat.le_refl bytes.length)
  unfold send
  generalize write bytes.length bytes c = result at hw
  obtain ⟨result, c'⟩ := result
  obtain ⟨rfl, hw⟩ := hw
  exact hw

end OutputChannel

namespace Display

theorem send_eq (d : Display) (bytes : Bytes) :
    ∃ output, output.handle = d.output.handle ∧ (d.send bytes).1 = { d with output } := by
  have hs := OutputChannel.handle_send d.output bytes
  unfold send
  split
  · exact ⟨d.output, rfl, rfl⟩
  · generalize d.output.send bytes = result at hs
    obtain ⟨result, output⟩ := result
    cases result <;> exact ⟨output, hs, rfl⟩

theorem present_eq (d : Display) (commands : List Command) :
    ∃ output, output.handle = d.output.handle ∧ (d.present commands).1 = { d with output } := by
  induction commands generalizing d with
  | nil => exact ⟨d.output, rfl, rfl⟩
  | cons command commands ih =>
    obtain ⟨output, ho, hs⟩ := send_eq d (command.encode d.policy)
    obtain ⟨output', ho', hp⟩ := ih { d with output }
    refine ⟨output', ho'.trans ho, ?_⟩
    rw [← hs] at hp
    exact hp.trans (by rw [hs])

def sent (d : Display) (commands : List Command) : Bytes :=
  if d.attached then commands.flatMap (Command.encode d.policy) else []

theorem send_reliable {d : Display} (h : d.output.Reliable) (bytes : Bytes) :
    (d.send bytes).1.output.Reliable ∧
      (d.send bytes).1.written = d.written ++ if d.attached then bytes else [] := by
  unfold send
  split
  · rename_i hb
    refine ⟨h, ?_⟩
    rcases hb with rfl | hb
    · simp
    · simp [hb]
  · rename_i hb
    rw [not_or, Bool.not_eq_false] at hb
    rw [if_pos hb.2]
    obtain ⟨hw, ha⟩ := OutputChannel.send_reliable h bytes
    have hr : (d.output.send bytes).2.Reliable := fun a t o ho => ha ▸ h a t o ho
    generalize d.output.send bytes = result at hw hr
    obtain ⟨result, output⟩ := result
    cases result <;> exact ⟨hr, hw⟩

theorem present_reliable {d : Display} (h : d.output.Reliable) (commands : List Command) :
    (d.present commands).1.output.Reliable ∧
      (d.present commands).1.written = d.written ++ d.sent commands := by
  induction commands generalizing d with
  | nil => exact ⟨h, by simp [present, sent]⟩
  | cons command commands ih =>
    obtain ⟨hr, hw⟩ := send_reliable h (command.encode d.policy)
    obtain ⟨output, -, hs⟩ := send_eq d (command.encode d.policy)
    obtain ⟨hr', hw'⟩ := ih hr
    refine ⟨hr', hw'.trans ?_⟩
    rw [hw, hs, List.append_assoc]
    simp only [sent, List.flatMap_cons]
    split <;> simp

structure Echoing (d : Display) : Prop where
  attached : d.attached = true
  reliable : d.output.Reliable
  mustEcho : d.mustEcho = true

theorem Echoing.present {d : Display} (h : d.Echoing) (commands : List Command) :
    (d.present commands).1.Echoing ∧
      (d.present commands).1.written =
        d.written ++ commands.flatMap (Command.encode .terminal) := by
  obtain ⟨hr, hw⟩ := present_reliable h.reliable commands
  obtain ⟨output, -, hp⟩ := present_eq d commands
  rw [hp] at hr hw ⊢
  refine ⟨⟨h.attached, hr, h.mustEcho⟩, ?_⟩
  rw [hw, sent, if_pos h.attached]
  exact congrArg _ (List.flatMap_congr fun command _ => Command.encode_echoing h.mustEcho command)

theorem present_of_detached {d : Display} (h : d.attached = false) (commands : List Command) :
    d.present commands = (d, []) := by
  induction commands with
  | nil => rfl
  | cons command commands ih => simp [present, send, h, ih]

end Display

namespace Session

theorem present_eq (s : Session) (commands : List Display.Command) :
    ∃ output notices, output.handle = s.display.output.handle ∧
      s.present commands = { s with display := { s.display with output }, notices } := by
  obtain ⟨output, ho, hp⟩ := Display.present_eq s.display commands
  refine ⟨output, s.notices ++ (s.display.present commands).2, ho, ?_⟩
  rw [← hp]
  rfl

theorem present_of_detached {s : Session} (h : s.display.attached = false)
    (commands : List Display.Command) : s.present commands = s := by
  unfold present
  rw [Display.present_of_detached h]
  dsimp only
  rw [List.append_nil]

theorem present_reliable {s : Session} (h : s.display.output.Reliable)
    (commands : List Display.Command) :
    (s.present commands).display.output.Reliable ∧
      (s.present commands).written = s.written ++ s.display.sent commands :=
  Display.present_reliable h commands

theorem start_eq (id : Nat) (e : Endpoint) (name : String) (options : Options) :
    ∃ output notices, output.handle = e.output.handle ∧
      start id e name options =
        { id
          connection := e.connection
          peer := e.peer
          input := some e.input
          display :=
            { output
              policy := { connection := e.connection, gated := options.gateControlSequences } }
          editor := .ofLimit options.historyLimit
          name
          chunk := max options.readChunkSize 1
          notices
          effects := [.registered id e.input.handle] } := by
  unfold start printPrompt
  extract_lets s announcements
  obtain ⟨output, notices, ho, ha⟩ := present_eq (s.note (.opened s.origin)) announcements
  rw [ha]
  obtain ⟨output', notices', ho', hp⟩ := present_eq
    (emit { s.note (.opened s.origin) with
      display := { (s.note (.opened s.origin)).display with output }, notices }
      (.registered id e.input.handle)) [.text (name ++ "> ") false]
  exact ⟨output', notices', ho'.trans ho, hp⟩

def announcements : Bytes :=
  Telnet.will Telnet.Feature.suppressGoAhead.code ++ Telnet.will Telnet.Feature.echo.code

theorem start_network (id : Nat) {e : Endpoint} (hc : e.connection = .network)
    (hr : e.output.Reliable) (name : String) (options : Options) :
    (start id e name options).display.output.Reliable ∧
      (start id e name options).written =
        e.output.written ++ (announcements ++ Text.utf8 (name ++ "> ")) := by
  unfold start printPrompt
  extract_lets s greeting
  have hg : greeting =
      [.will Telnet.Feature.suppressGoAhead.code, .will Telnet.Feature.echo.code] := by
    dsimp only [greeting, s]
    rw [hc]
  obtain ⟨output, _, -, ha⟩ := present_eq (s.note (.opened s.origin)) greeting
  obtain ⟨hr', hw⟩ := present_reliable (s := s.note (.opened s.origin)) hr greeting
  rw [ha] at hr' hw ⊢
  obtain ⟨hr'', hw'⟩ := present_reliable hr' [.text (name ++ "> ") false]
  refine ⟨hr'', hw'.trans ?_⟩
  rw [← List.append_assoc]
  refine congrArg₂ (· ++ ·) (hw.trans ?_) ?_
  · rw [hg]
    rfl
  · simp [Display.sent, note, s, Display.Command.encode, Display.Policy.mustEcho, hc]

end Session

end Vty
