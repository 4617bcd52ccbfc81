import Vty.Proofs.Session.Lifecycle
import Vty.Session.Script

namespace Vty

open Grammar (Mode Node Parameters)

variable {H : Type}

def Frame.isAction : Frame H → Bool
  | .action .. | .waiting .. => true
  | _ => false

namespace Machine

variable {grammar : Node (Action H)} {m n : Machine H}

def running (m : Machine H) : Nat :=
  m.frames.countP Frame.isAction

def holders (m : Machine H) : Nat :=
  m.running + m.handler.toList.length

theorem holders_push (m : Machine H) (s : Session) {frame : Frame H}
    (h : frame.isAction = false) :
    holders ⟨s, m.handler, frame :: m.frames⟩ = m.holders := by
  simp [holders, running, h]

theorem holders_execute (grammar : Node (Action H)) (command : String) (mode : Mode)
    (m : Machine H) : (m.execute grammar command mode).holders = m.holders := by
  unfold execute
  split
  · rfl
  · rfl
  · split
    · rename_i handler hm
      simp [holders, running, List.countP_cons, Frame.isAction, hm]
    · rfl
  · rfl

theorem holders_answer (line : Bytes) (mode : Mode) (m : Machine H) :
    (answer line mode m).holders = m.holders := by
  unfold answer
  split
  · exact holders_push m m.session rfl
  · rfl

theorem holders_call (grammar : Node (Action H)) (request : Request) (m : Machine H) :
    (m.call grammar request).holders = m.holders := by
  cases request with
  | execute line mode => exact holders_execute ..
  | processInput => exact holders_push m m.session rfl
  | readable =>
    unfold call readable
    dsimp only
    split
    · exact holders_push m _ rfl
    · rfl
  | _ => rfl

theorem holders_handle (event : Input.Event) (m : Machine H) :
    (handle event m).holders = m.holders := by
  cases event with
  | endOfLine => exact (holders_answer ..).trans (holders_push m _ rfl)
  | contextHelp => exact (holders_answer ..).trans (holders_push m _ rfl)
  | _ => rfl

theorem holders_drain (m : Machine H) : m.drain.holders = m.holders := by
  unfold drain
  split
  · rfl
  · exact holders_push m _ rfl
  · exact (holders_handle ..).trans (holders_push m _ rfl)

theorem holders_step (hm : m.holders = 1) (h : m.step grammar = some n) : n.holders = 1 := by
  obtain ⟨s, handler, frames⟩ := m
  cases frames with
  | nil => cases h
  | cons frame frames =>
    obtain rfl := Option.some.inj h
    cases frame with
    | call request => exact (holders_call grammar request ⟨s, handler, frames⟩).trans hm
    | drain => exact (holders_drain ⟨s, handler, frames⟩).trans hm
    | promptAgain line => exact hm
    | showAgain => exact hm
    | action command program =>
      cases program with
      | ask request next => exact hm
      | finish handler' result =>
        -- the action that ends is the only one, and it gives the handler back
        have hn : frames.countP Frame.isAction = 0 := by
          simp only [holders, running, List.countP_cons, Frame.isAction, if_true] at hm
          omega
        cases result with
        | ok => simp [holders, running, hn]
        | error failure => simp [holders, running, hn]
    | waiting command next => exact hm

theorem holders_moments (h : Moments grammar m n) (hm : m.holders = 1) : n.holders = 1 := by
  induction h with
  | refl => exact hm
  | tail _ ht ih =>
    cases ht with
    | work hs => exact holders_step ih hs
    | arrive arrival => exact ih
    | call hf request => simpa [holders, running, hf, Frame.isAction] using ih
    | share hf free handler => simp [holders, running, hf]

end Machine

namespace Script

open Machine (Moments)

def again : Node (Action Ledger) :=
  .ofList
    [(.ofText "again", .action (action "again" [.ask (.execute "again" .execute), .count]))]

def asking : Session :=
  .start 1 (.terminal { handle := 0 } { handle := 1 }) "rift"

example : ((Interpreter.ofGrammar again).perform (.execute "again" .execute) asking {}).2 =
    { count := 1, calls := [("again", [])] } := by
  decide +kernel

end Script

end Vty
