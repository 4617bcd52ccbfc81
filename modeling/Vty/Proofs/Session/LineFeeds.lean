import Vty.Proofs.Display.Output
import Vty.Proofs.Session.Alphabet
import Vty.Session.Script

namespace Vty

open Grammar (Node)
open Input (cr lf)

/-- Each line feed stands right behind a carriage return. -/
def Bytes.Returned (bytes : Bytes) : Prop :=
  ∀ front back, bytes = front ++ lf :: back → front.getLast? = some cr

namespace Bytes

variable {a b : Bytes}

theorem returned_of_notMem (h : lf ∉ a) : Returned a := by
  rintro front back rfl
  simp at h

theorem returned_crlf : Returned [cr, lf] := by
  intro front back h
  rcases front with _ | ⟨_, _ | ⟨_, front⟩⟩
  · cases h
  · cases h
    rfl
  · simp at h

theorem Returned.append (ha : Returned a) (hb : Returned b) : Returned (a ++ b) := by
  intro front back h
  rcases List.append_eq_append_iff.mp h with ⟨rest, rfl, hr⟩ | ⟨rest, rfl, hr⟩
  · have hl := hb rest back hr
    rw [List.getLast?_append, hl, Option.some_or]
  · -- the line feed is the first byte of `b`, which has none before it, or stands in `a`
    cases rest with
    | nil => exact absurd (hb [] back hr.symm) nofun
    | cons byte rest =>
      obtain ⟨rfl, -⟩ := List.cons.inj hr
      exact ha front rest rfl

theorem returned_flatMap {α : Type} {f : α → Bytes} {xs : List α}
    (h : ∀ x ∈ xs, Returned (f x)) : Returned (xs.flatMap f) := by
  induction xs with
  | nil => exact returned_of_notMem List.not_mem_nil
  | cons x xs ih =>
    rw [List.forall_mem_cons] at h
    rw [List.flatMap_cons]
    exact h.1.append (ih h.2)

end Bytes

abbrev Unbroken (b : UInt8) : Prop :=
  b ≠ lf

theorem Input.Literal.unbroken {b : UInt8} (h : Literal b) : Unbroken b := by
  rintro rfl
  exact absurd h.2.2.2 (by decide)

namespace Display

theorem lf_notMem_count (count : Nat) : lf ∉ Text.utf8 (toString count) := by
  rw [Text.utf8, Nat.toString_eq_ofList_toDigits, String.toList_ofList, List.mem_flatMap]
  rintro ⟨c, hc, hm⟩
  have hd : c.isDigit = true := Nat.isDigit_of_mem_toDigits (by decide) (by decide) hc
  obtain ⟨he, ht, hl, -⟩ := Terminal.utf8EncodeChar_digit hd
  rw [he, List.mem_singleton] at hm
  have hn : lf.toNat = c.toNat := hm ▸ ht
  have : lf.toNat = 10 := rfl
  omega

theorem lf_notMem_columns (count : Nat) {letter : UInt8} (h : lf ≠ letter) :
    lf ∉ columns count letter := by
  unfold columns
  split
  · exact List.not_mem_nil
  · rw [List.append_assoc, List.mem_append, List.mem_append, List.mem_singleton, not_or, not_or]
    exact ⟨by decide, lf_notMem_count count, h⟩

theorem returned_expandNewlines (bytes : Bytes) : (expandNewlines bytes).Returned := by
  apply Bytes.returned_flatMap
  intro b _
  split
  · exact Bytes.returned_crlf
  · rename_i hb
    exact Bytes.returned_of_notMem fun hm => hb (List.mem_singleton.mp hm).symm

theorem returned_encode {command : Command} (h : command.Over Unbroken) :
    (command.encode .terminal).Returned := by
  have hn {bytes : Bytes} (hb : lf ∉ bytes) : bytes.Returned := Bytes.returned_of_notMem hb
  have ho {bytes : Bytes} (hb : Bytes.Over Unbroken bytes) : bytes.Returned :=
    hn fun hm => hb _ hm rfl
  cases command with
  | send bytes => exact ho h
  | echo bytes =>
    rcases h with hb | rfl
    · exact ho hb
    · exact Bytes.returned_crlf
  | control bytes => exact ho h
  | left n => exact hn (lf_notMem_columns n (by decide))
  | right n => exact hn (lf_notMem_columns n (by decide))
  | erase => exact hn (by decide)
  | bell => exact hn (by decide)
  | will option => cases h
  | text message newline => exact returned_expandNewlines _

structure Level (base : Bytes) (d : Display) : Prop where
  terminal : d.policy.connection = .terminal
  reliable : d.output.Reliable
  written : ∃ sent, d.written = base ++ sent ∧ sent.Returned

theorem Level.present {base : Bytes} {d : Display} (h : d.Level base) {commands : List Command}
    (hc : ∀ command ∈ commands, command.Over Unbroken) : (d.present commands).1.Level base := by
  obtain ⟨hr, hw⟩ := present_reliable h.reliable commands
  obtain ⟨output, -, hp⟩ := present_eq d commands
  obtain ⟨sent, hs, hl⟩ := h.written
  have ht : (d.sent commands).Returned := by
    unfold Display.sent
    split
    · apply Bytes.returned_flatMap
      intro command hm
      rw [Command.encode_terminal h.terminal]
      exact returned_encode (hc command hm)
    · exact Bytes.returned_of_notMem List.not_mem_nil
  refine ⟨?_, hr, sent ++ d.sent commands, ?_, hl.append ht⟩
  · rw [hp]
    exact h.terminal
  · rw [hw, hs, List.append_assoc]

theorem upheld_level (base : Bytes) : Upheld Unbroken (Level base) where
  literal h := h.unbroken
  present h _ hc := h.present hc
  feature h _ _ := ⟨h.terminal, h.reliable, h.written⟩
  detach h := ⟨h.terminal, h.reliable, h.written⟩

end Display

theorem Session.level_start (id : Nat) {e : Endpoint} (hc : e.connection = .terminal)
    (hr : e.output.Reliable) (name : String) (options : Options) :
    (start id e name options).Upholds Unbroken (Display.Level e.output.written) := by
  have hI := Display.upheld_level e.output.written
  unfold start
  extract_lets s announcements
  have ha : announcements = [] := by
    dsimp only [announcements, s]
    rw [hc]
  have hs : (s.note (.opened s.origin)).Upholds Unbroken (Display.Level e.output.written) :=
    ⟨Editor.over_ofLimit _, hc, hr, [], (List.append_nil _).symm,
      Bytes.returned_of_notMem List.not_mem_nil⟩
  have hn : ∀ command ∈ announcements, command.Over Unbroken := by simp [ha]
  have hp := hs.present hI hn
  have he : (((s.note (.opened s.origin)).present announcements).emit
      (.registered id e.input.handle)).Upholds Unbroken (Display.Level e.output.written) :=
    ⟨hp.editor, hp.display⟩
  exact he.printPrompt hI

namespace Machine

variable {H : Type} {m : Machine H}

/-- Whatever is typed, recalled, printed or set as a name, each row that a terminal is sent down to
is started from its left. -/
theorem written_returned {grammar : Node (Action H)} (hg : grammar.Within (Request.Over Unbroken))
    (id : Nat) {e : Endpoint} (hc : e.connection = .terminal) (hr : e.output.Reliable)
    (name : String) (options : Session.Options) (handler : H)
    (hm : MomentsWithin (Request.Over Unbroken) grammar
      ⟨.start id e name options, some handler, []⟩ m) :
    (∃ sent, m.session.written = e.output.written ++ sent ∧ sent.Returned) ∧
      (∀ b ∈ m.session.editor.buffer, b ≠ lf) ∧
      (∀ line ∈ m.session.editor.history.entries, ∀ b ∈ line, b ≠ lf) ∧
      (m.frames = [] → ∀ handler, m.handler = some handler → ∀ request : Request,
        request.Over Unbroken →
          let s := ((Interpreter.ofGrammar grammar).perform request m.session handler).1
          ∃ sent, s.written = e.output.written ++ sent ∧ sent.Returned) := by
  have hs : Upholds Unbroken (Display.Level e.output.written)
      (⟨.start id e name options, some handler, []⟩ : Machine H) :=
    ⟨Session.level_start id hc hr name options, nofun⟩
  have hl {n : Machine H} (hn : MomentsWithin (Request.Over Unbroken) grammar
      ⟨.start id e name options, some handler, []⟩ n) :=
    (hs.moments (Display.upheld_level _) hg hn).session
  refine ⟨(hl hm).display.written, (hl hm).editor.line, (hl hm).editor.history, ?_⟩
  intro hf handler hh request hq
  exact (hl (hm.trans (momentsWithin_perform hf hh hq))).display.written

end Machine

namespace Script

def descending : Node (Action Ledger) :=
  .ofList
    [(.ofText "go", .action (action "go"
      [.ask (.print "one\ntwo\r\n"), .ask (.setName "x\ny"), .ask .readable,
        .fail (.because ["p\nq"])]))]

def climber : Endpoint :=
  .terminal
    { handle := 0
      arrivals :=
        [.data [0x67, 0x6F, 0x0D, 0x00, 0x1B, 0x0A, 0x0A, 0x0A],
          .data [0x61, 255, 0x0A, 0x0A, 0x0D, 0x0A, 0x10, 0x01, 0x62, 0x3F]] }
    { handle := 1, accept := OutputChannel.acceptWithin none (some 1) }

def climbed : Session × Ledger :=
  (Interpreter.ofGrammar descending).perform .readable (.start 1 climber "a\nb") {}

theorem written_returned_climbed :
    descending.Within (Request.Over Unbroken) ∧ climber.output.Reliable ∧
      Machine.MomentsWithin (Request.Over Unbroken) descending
        ⟨.start 1 climber "a\nb", some {}, []⟩ ⟨climbed.1, some climbed.2, []⟩ ∧
      climbed.1.written.Returned ∧ climbed.1.written.count lf = 18 ∧
      climbed.1.editor.buffer = [0x62, 0x61] := by
  have hg : descending.Within (Request.Over Unbroken) := by
    apply Node.within_ofList
    rw [List.forall_mem_singleton]
    refine within_action (fun _ => trivial) (fun request hm => ?_) "go"
    simp only [List.mem_cons, List.not_mem_nil, or_false, Step.ask.injEq, reduceCtorEq] at hm
    obtain rfl | rfl | rfl := hm <;> trivial
  have hr : climber.output.Reliable := by
    intro _ _ offered ho
    exact ⟨min offered 1, by omega, rfl⟩
  have ho : Request.readable.Over Unbroken := trivial
  have hm : Machine.MomentsWithin (Request.Over Unbroken) descending
      ⟨.start 1 climber "a\nb", some {}, []⟩ ⟨climbed.1, some climbed.2, []⟩ :=
    Machine.momentsWithin_perform rfl rfl ho
  obtain ⟨⟨sent, hw, hs⟩, -⟩ := Machine.written_returned hg 1 rfl hr "a\nb" {} {} hm
  obtain rfl : climbed.1.written = sent := hw
  exact ⟨hg, hr, hm, hs, by decide +kernel, by decide +kernel⟩

end Script

end Vty
