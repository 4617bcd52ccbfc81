import Vty.Proofs.Display.Output
import Vty.Proofs.Session.Alphabet
import Vty.Session.Script

namespace Vty

open Grammar (Node)

namespace Text

theorem iac_notMem_utf8EncodeChar (c : Char) : Telnet.iac ∉ String.utf8EncodeChar c := by
  -- the markers leave at most 240 + 7
  have hb {n : Nat} (hn : n < 255) : Telnet.iac ≠ UInt8.ofNat n := by
    intro h
    have ht := congrArg UInt8.toNat h
    rw [UInt8.toNat_ofNat', Nat.mod_eq_of_lt (by omega)] at ht
    exact absurd ht.symm (Nat.ne_of_lt hn)
  unfold String.utf8EncodeChar
  dsimp only
  split_ifs <;> simp only [List.mem_cons, List.not_mem_nil, or_false, not_or]
  · exact hb (by omega)
  · exact ⟨hb (by omega), hb (by omega)⟩
  · exact ⟨hb (by omega), hb (by omega), hb (by omega)⟩
  · exact ⟨hb (by omega), hb (by omega), hb (by omega), hb (by omega)⟩

theorem iac_notMem_utf8 (text : String) : Telnet.iac ∉ utf8 text := by
  rw [utf8, List.mem_flatMap]
  rintro ⟨c, -, hc⟩
  exact iac_notMem_utf8EncodeChar c hc

end Text

/-- Neither starts a command or an escape, nor ends or corrects a line. -/
def Harmless (b : UInt8) : Prop :=
  b ∉ [Telnet.iac, Input.cr, Input.lf, Input.esc, 0x00, 0x7F]

theorem Input.Literal.harmless {b : UInt8} (h : Literal b) : Harmless b := by
  obtain ⟨hcr, hiac, hesc, hb⟩ := h
  unfold Harmless
  simp only [List.mem_cons, List.not_mem_nil, or_false, not_or]
  refine ⟨hiac, hcr, ?_, hesc, ?_, ?_⟩ <;>
  · rintro rfl
    simp [Decoded.ofByte, lf] at hb

namespace Display

theorem iac_notMem_columns (count : Nat) {letter : UInt8} (h : Telnet.iac ≠ letter) :
    Telnet.iac ∉ columns count letter := by
  unfold columns
  split
  · exact List.not_mem_nil
  · rw [List.append_assoc, List.mem_append, List.mem_append, List.mem_singleton]
    rintro (hm | hm | hm)
    · revert hm
      decide
    · exact Text.iac_notMem_utf8 _ hm
    · exact h hm

theorem iac_notMem_expandNewlines {bytes : Bytes} (h : Telnet.iac ∉ bytes) :
    Telnet.iac ∉ expandNewlines bytes := by
  rw [expandNewlines, List.mem_flatMap]
  rintro ⟨b, hb, hm⟩
  split at hm
  · revert hm
    decide
  · rw [List.mem_singleton] at hm
    exact h (hm ▸ hb)

theorem iac_notMem_encode (p : Policy) {command : Command} (h : command.Over Harmless) :
    Telnet.iac ∉ command.encode p := by
  have ho {bytes : Bytes} (hb : Bytes.Over Harmless bytes) : Telnet.iac ∉ bytes :=
    fun hm => hb _ hm List.mem_cons_self
  have hg {allowed : Bool} {bytes : Bytes} (hb : Telnet.iac ∉ bytes) :
      Telnet.iac ∉ if allowed then bytes else [] := by
    split
    · exact hb
    · exact List.not_mem_nil
  cases command with
  | send bytes => exact ho h
  | echo bytes =>
    apply hg
    rcases h with hb | rfl
    · exact ho hb
    · decide
  | control bytes => exact hg (ho h)
  | left n => exact hg (iac_notMem_columns n (by decide))
  | right n => exact hg (iac_notMem_columns n (by decide))
  | erase => exact hg (by decide)
  | bell => exact hg (by decide)
  | will option => cases h
  | text message newline =>
    have ht : Telnet.iac ∉ Text.utf8 message ++ if newline then [0x0A] else [] := by
      rw [List.mem_append, not_or]
      exact ⟨Text.iac_notMem_utf8 message, hg (by decide)⟩
    unfold Command.encode
    dsimp only
    split
    · exact iac_notMem_expandNewlines ht
    · exact ht

structure Discreet (base : Bytes) (d : Display) : Prop where
  reliable : d.output.Reliable
  written : ∃ sent, d.written = base ++ sent ∧ Telnet.iac ∉ sent

theorem upheld_discreet (base : Bytes) : Upheld Harmless (Discreet base) where
  literal h := h.harmless
  present {d} h {commands} hc := by
    obtain ⟨hr, hw⟩ := present_reliable h.reliable commands
    obtain ⟨sent, hs, hi⟩ := h.written
    refine ⟨hr, sent ++ d.sent commands, ?_, ?_⟩
    · rw [hw, hs, List.append_assoc]
    · rw [List.mem_append, not_or]
      refine ⟨hi, ?_⟩
      unfold Display.sent
      split
      · rw [List.mem_flatMap]
        rintro ⟨command, hm, hb⟩
        exact iac_notMem_encode d.policy (hc command hm) hb
      · exact List.not_mem_nil
  feature h _ _ := ⟨h.reliable, h.written⟩
  detach h := ⟨h.reliable, h.written⟩

end Display

theorem Session.discreet_start (id : Nat) {e : Endpoint} (hc : e.connection = .network)
    (hr : e.output.Reliable) (name : String) (options : Options) :
    (start id e name options).Upholds Harmless
      (Display.Discreet (e.output.written ++ announcements)) := by
  obtain ⟨hr', hw⟩ := start_network id hc hr name options
  refine ⟨?_, hr', _, ?_, Text.iac_notMem_utf8 (name ++ "> ")⟩
  · obtain ⟨_, _, -, hs⟩ := start_eq id e name options
    rw [hs]
    exact Editor.over_ofLimit _
  · exact hw.trans (List.append_assoc ..).symm

namespace Machine

variable {H : Type} {m : Machine H}

/-- Whatever is typed, and whatever the actions do, a Telnet peer finds no command in the output
but the two announcements. -/
theorem written_discreet {grammar : Node (Action H)} (hg : grammar.Within (Request.Over Harmless))
    (id : Nat) {e : Endpoint} (hc : e.connection = .network) (hr : e.output.Reliable)
    (name : String) (options : Session.Options) (handler : H)
    (hm : MomentsWithin (Request.Over Harmless) grammar
      ⟨.start id e name options, some handler, []⟩ m) :
    (∃ rest, m.session.written = e.output.written ++ ([Telnet.iac, Telnet.willCode, 3,
        Telnet.iac, Telnet.willCode, 1] ++ rest) ∧ Telnet.iac ∉ rest) ∧
      (∀ b ∈ m.session.editor.buffer, Harmless b) ∧
      (∀ line ∈ m.session.editor.history.entries, ∀ b ∈ line, Harmless b) ∧
      (m.frames = [] → ∀ handler, m.handler = some handler → ∀ request : Request,
        request.Over Harmless → MomentsWithin (Request.Over Harmless) grammar m
          ⟨((Interpreter.ofGrammar grammar).perform request m.session handler).1,
            some ((Interpreter.ofGrammar grammar).perform request m.session handler).2, []⟩) := by
  have hs : Upholds Harmless (Display.Discreet (e.output.written ++ Session.announcements))
      (⟨.start id e name options, some handler, []⟩ : Machine H) :=
    ⟨Session.discreet_start id hc hr name options, nofun⟩
  have hd := (hs.moments (Display.upheld_discreet _) hg hm).session
  obtain ⟨sent, hw, hi⟩ := hd.display.written
  refine ⟨⟨sent, hw.trans (List.append_assoc ..), hi⟩, hd.editor.line, hd.editor.history, ?_⟩
  exact fun h handler hh request ho => momentsWithin_perform h hh ho

end Machine

namespace Script

def parrot : Node (Action Ledger) :=
  .ofList
    [(.parameter "word", .action (action "parrot"
      [.ask (.print "ÿ"), .ask (.setName "ÿ"), .ask .readable, .printParameter "word",
        .fail (.because ["ÿ"])]))]

def babbler : Endpoint where
  connection := .network
  input :=
    { handle := 4
      arrivals :=
        [.data [0x61, 255, 253, 1, 0x62, 0x0D, 0x0A],
          .data [0xFE, 255, 255, 255, 0x1B, 0x5B, 0x44, 0x7A]] }
  output := { handle := 9, accept := OutputChannel.acceptWithin none (some 1) }
  peer := "10.0.0.7:4000"

def babbled : Session × Ledger :=
  (Interpreter.ofGrammar parrot).perform .readable (.start 1 babbler "rift") {}

theorem written_discreet_babbled :
    parrot.Within (Request.Over Harmless) ∧ babbler.output.Reliable ∧
      Machine.MomentsWithin (Request.Over Harmless) parrot
        ⟨.start 1 babbler "rift", some {}, []⟩ ⟨babbled.1, some babbled.2, []⟩ ∧
      ∃ rest, babbled.1.written = [255, 251, 3, 255, 251, 1] ++ rest ∧ Telnet.iac ∉ rest ∧
        babbled.1.editor.buffer = [0x7A, 0xFE] ∧
        babbled.1.editor.history.entries = [[0x61, 0x62]] := by
  have hg : parrot.Within (Request.Over Harmless) := by
    apply Node.within_ofList
    simp only [List.forall_mem_singleton]
    refine within_action (fun _ => trivial) (fun request hm => ?_) "parrot"
    simp only [List.mem_cons, List.not_mem_nil, or_false, Step.ask.injEq, reduceCtorEq] at hm
    obtain rfl | rfl | rfl := hm <;> trivial
  have hr : babbler.output.Reliable := by
    intro _ _ offered ho
    exact ⟨min offered 1, by omega, rfl⟩
  have ho : Request.readable.Over Harmless := trivial
  have hm : Machine.MomentsWithin (Request.Over Harmless) parrot
      ⟨.start 1 babbler "rift", some {}, []⟩ ⟨babbled.1, some babbled.2, []⟩ :=
    Machine.momentsWithin_perform rfl rfl ho
  obtain ⟨⟨rest, hw, hi⟩, -⟩ := Machine.written_discreet hg 1 rfl hr "rift" {} {} hm
  exact ⟨hg, hr, hm, rest, hw, hi, by decide +kernel, by decide +kernel⟩

end Script

end Vty
