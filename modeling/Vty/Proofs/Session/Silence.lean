import Vty.Proofs.Session.Exclusion
import Vty.Proofs.Session.Speech

namespace Vty

open Display (Command)
open Grammar (Node)

namespace Session

variable {s t : Session}

theorem Local.step (h : s.Local) (hs : Step s t) : t.Local := by
  have hw := h.working
  cases hs with
  | present commands => exact (h.present commands).1
  | close => exact (says_close h).isLocal
  | feature => exact ⟨h.connection, hw.terminal, hw.attached, hw.reliable⟩
  | _ => exact ⟨h.connection, hw⟩

theorem Local.changes (h : s.Local) (hs : Changes s t) : t.Local := by
  induction hs with
  | refl => exact h
  | tail _ hc ih =>
    cases hc with
    | step hs => exact ih.step hs
    | _ => exact ⟨ih.connection, ih.working⟩

theorem local_start (id : Nat) {e : Endpoint} (hc : e.connection = .terminal)
    (hr : e.output.Reliable) (name : String) (options : Options) :
    (start id e name options).Local := by
  unfold start printPrompt
  extract_lets s announcements
  have hs : (s.note (.opened s.origin)).Local := ⟨hc, hc, rfl, hr⟩
  have ha := (hs.present announcements).1
  have he : (((s.note (.opened s.origin)).present announcements).emit
      (.registered id e.input.handle)).Local := ⟨ha.connection, ha.working⟩
  exact (he.present _).1

theorem promptAgain_of_closed (h : s.closed = true) (line : Bytes) : s.promptAgain line = s :=
  if_pos h

end Session

namespace Machine

variable {H : Type} {grammar : Node (Action H)} {m n : Machine H}

/-- A session that has been closed takes in nothing more and does not prompt again. On the network
it is silent; at a terminal it still shows whatever it is asked to. -/
theorem written_of_closed (id : Nat) (e : Endpoint) (name : String) (options : Session.Options)
    (handler : H) (hm : Moments grammar ⟨.start id e name options, some handler, []⟩ m)
    (hc : m.session.closed = true) (hn : Moments grammar m n) :
    n.session.pull = none ∧ (∀ line, n.session.promptAgain line = n.session) ∧
      (e.connection = .network → n.session.written = m.session.written) ∧
      (e.connection = .terminal → e.output.Reliable → ∀ commands,
        (n.session.present commands).written =
          n.session.written ++ commands.flatMap (Command.encode .terminal)) := by
  have hr := Session.Rests.changes hc hn.changes
  refine ⟨Session.pull_of_closed hr.closed, Session.promptAgain_of_closed hr.closed, ?_, ?_⟩
  · intro hk
    have ha := (Session.accountable_start id e name options).changes hm.changes
    exact (hr.silent (ha.parted hc hk).2).2
  · intro hk ho commands
    have hl := (Session.local_start id hk ho name options).changes (hm.changes.trans hn.changes)
    exact (hl.present commands).2

end Machine

namespace Script

open Machine (Moments)

def leaving : Node (Action Ledger) :=
  .ofList
    [(.ofText "leave", .action (action "leave"
      [.ask .close, .ask (.print "bye"), .fail (.because ["boom"])]))]

def shut : Machine Ledger where
  session := asking.close
  handler := none
  frames :=
    [.action "leave" (program [] [.ask (.print "bye"), .fail (.because ["boom"])]
      { calls := [("leave", [])] })]

theorem moments_shut : Moments leaving ⟨asking, some {}, []⟩ shut :=
  .head (.call rfl (.execute "leave" .execute)) <| .head (.work rfl) <| .head (.work rfl) <|
    .head (.work rfl) (.single (.work rfl))

theorem written_of_closed_shut :
    Moments leaving ⟨asking, some {}, []⟩ shut ∧ shut.session.closed = true ∧
      (shut.session.print "late").written = shut.session.written ++ Text.utf8 "late\r\n" := by
  have hc : shut.session.closed = true := by decide +kernel
  have hr : OutputChannel.Reliable { handle := 1 } := fun _ _ offered h => ⟨offered, h, rfl⟩
  obtain ⟨-, -, -, hw⟩ := Machine.written_of_closed 1 _ "rift" {} {} moments_shut hc .refl
  exact ⟨moments_shut, hc, hw rfl hr [.text "late" true]⟩

theorem shut_not_silent :
    Moments leaving ⟨asking, some {}, []⟩ shut ∧ shut.session.closed = true ∧
      ∃ n, Moments leaving shut n ∧
        n.session.written =
          shut.session.written ++ Text.utf8 "bye\r\nCommand failed: boom\r\n" := by
  refine ⟨moments_shut, by decide +kernel, ?_⟩
  refine ⟨_, .head (.work rfl) <| .head (.work rfl) <| .head (.work rfl) (.single (.work rfl)), ?_⟩
  decide +kernel

end Script

end Vty
