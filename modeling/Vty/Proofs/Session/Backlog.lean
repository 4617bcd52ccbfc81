import Vty.Proofs.Input.Stream
import Vty.Proofs.Session.Intake

namespace Vty

open Grammar (Mode Node Parameters)

namespace InputChannel

theorem unread_read (c : InputChannel) (limit : Nat) :
    (c.read limit).2.unread + ((c.read limit).1.toOption.getD []).length = c.unread := by
  obtain ⟨handle, arrivals, rawTerminal, release⟩ := c
  cases arrivals with
  | nil => rfl
  | cons first rest =>
    cases first with
    | failure reason => simp [read, unread, Arrival.size, Except.toOption]
    | data bytes =>
      have hl : (if rawTerminal then enterToLineFeed (bytes.take limit)
          else bytes.take limit).length = min limit bytes.length := by
        split <;> simp [length_enterToLineFeed]
      simp only [read, unread, Except.toOption, Option.getD_some, hl]
      by_cases hk : bytes.drop limit = []
      · have := List.drop_eq_nil_iff.mp hk
        simp only [hk, if_true, List.foldr_cons, Arrival.size]
        omega
      · simp only [hk, if_false, List.foldr_cons, Arrival.size, List.length_drop]
        omega

end InputChannel

namespace Session

theorem backlog_close_le (s : Session) : s.close.backlog ≤ s.backlog := by
  by_cases h : s.closed = true
  · rw [close_of_closed h]
  · obtain ⟨notices, hc⟩ := close_of_open (Bool.eq_false_iff.mpr h)
    rw [hc]
    cases s.connection with
    | terminal => exact Nat.le_refl _
    | network => exact Nat.add_le_add_left (Nat.zero_le _) _

theorem backlog_pull_lt {s t : Session} {event : Option Input.Event}
    (h : s.pull = some (event, t)) : t.backlog < s.backlog := by
  obtain ⟨-, decoded, queue, notices, hn, hd, rfl⟩ := pull_eq_some h
  exact Nat.add_lt_add_right (Input.Queue.size_next_lt hn hd) _

theorem pull_of_backlog_eq_zero {s : Session} (h : s.backlog = 0) : s.pull = none := by
  have hq : s.queue.pending.length = 0 :=
    (Input.Queue.length_pending _).trans (Nat.eq_zero_of_add_eq_zero_right h)
  exact pull_of_next_eq_none (Input.Queue.next_eq_none_iff.mpr (List.length_eq_zero_iff.mp hq))

theorem backlog_of_input {s : Session} {c : InputChannel} (h : s.input = some c) :
    s.backlog = s.queue.size + c.unread := by
  rw [backlog, h]
  rfl

theorem backlog_absorb_le (s : Session) (result : Except String Bytes) :
    (s.absorb result).1.backlog ≤ s.backlog + (result.toOption.getD []).length := by
  match result with
  | .ok [] => exact backlog_close_le _
  | .ok (byte :: bytes) =>
    refine Nat.le_of_eq ?_
    simp only [absorb, backlog, Input.Queue.size_extend, Except.toOption, Option.getD_some]
    omega
  | .error reason => exact backlog_close_le _

theorem backlog_intake_le (s : Session) : s.intake.1.backlog ≤ s.backlog := by
  by_cases hc : s.closed = true
  · rw [intake_of_closed hc]
  · cases hin : s.input with
    | none => rw [intake_of_detached hin]
    | some c =>
      rw [intake_of_open (Bool.eq_false_iff.mpr hc) hin, backlog_of_input hin]
      refine (backlog_absorb_le _ _).trans (Nat.le_of_eq ?_)
      rw [backlog_of_input rfl, Nat.add_assoc, InputChannel.unread_read]

theorem Step.backlog_le {s t : Session} (h : Step s t) : t.backlog ≤ s.backlog := by
  cases h with
  | close => exact backlog_close_le s
  | _ => exact Nat.le_refl _

theorem Steps.backlog_le {s t : Session} (h : Steps s t) : t.backlog ≤ s.backlog := by
  induction h with
  | refl => exact Nat.le_refl _
  | tail _ hs ih => exact hs.backlog_le.trans ih

theorem course_backlog : Course fun s t => t.backlog ≤ s.backlog :=
  .of_steps Steps.backlog_le fun h hr => hr.trans h

end Session

namespace Interpreter

variable {α σ H : Type} {i : Interpreter α σ}

def Thrifty (i : Interpreter α σ) : Prop :=
  ∀ action parameters s state, (i.run action parameters s state).1.backlog ≤ s.backlog

theorem Thrifty.follows (hi : i.Thrifty) : i.Follows fun s t => t.backlog ≤ s.backlog :=
  fun _ action _ => hi action

theorem backlog_handle_le (hi : i.Thrifty) (event : Input.Event) (s : Session) (state : σ) :
    (i.handle event s state).1.backlog ≤ s.backlog :=
  course_handle Session.course_backlog Session.Steps.backlog_le hi.follows event s state

theorem backlog_drain_le (hi : i.Thrifty) (fuel : Nat) (s : Session) (state : σ) :
    (i.drain fuel s state).1.backlog ≤ s.backlog :=
  course_drain Session.course_backlog (fun hp => (Session.backlog_pull_lt hp).le)
    (backlog_handle_le hi) fuel s state

theorem drain_eq_of_backlog_le (hi : i.Thrifty) {fuel fuel' : Nat} {s : Session} (state : σ)
    (hf : s.backlog ≤ fuel) (hf' : s.backlog ≤ fuel') :
    i.drain fuel s state = i.drain fuel' s state := by
  induction fuel generalizing fuel' s state with
  | zero =>
    have hp := Session.pull_of_backlog_eq_zero (Nat.le_zero.mp hf)
    rw [drain_of_pull_eq_none hp, drain_of_pull_eq_none hp]
  | succ fuel ih =>
    cases hp : s.pull with
    | none => rw [drain_of_pull_eq_none hp, drain_of_pull_eq_none hp]
    | some found =>
      obtain ⟨event, t⟩ := found
      have hl := Session.backlog_pull_lt hp
      obtain ⟨fuel', rfl⟩ := Nat.exists_eq_succ_of_ne_zero (Nat.ne_zero_of_lt (hl.trans_le hf'))
      cases event with
      | none =>
        rw [drain_of_pull_skip hp, drain_of_pull_skip hp]
        exact ih state (by omega) (by omega)
      | some event =>
        have hh := (backlog_handle_le hi event t state).trans_lt hl
        rw [drain_of_pull_event hp, drain_of_pull_event hp]
        exact ih _ (by omega) (by omega)

theorem backlog_readable_le (hi : i.Thrifty) (s : Session) (state : σ) :
    (i.readable s state).1.backlog ≤ s.backlog := by
  rw [readable_eq]
  split
  · exact (backlog_drain_le hi ..).trans (Session.backlog_intake_le s)
  · exact Session.backlog_intake_le s

theorem backlog_perform_le (hi : i.Thrifty) (request : Request) (s : Session) (state : σ) :
    (i.perform request s state).1.backlog ≤ s.backlog := by
  cases request with
  | execute line mode => exact course_execute Session.course_backlog hi.follows ..
  | processInput => exact backlog_drain_le hi ..
  | readable => exact backlog_readable_le hi ..
  | close => exact Session.backlog_close_le s
  | _ => exact Nat.le_refl _

theorem thrifty_busy (grammar : Node α) : (busy grammar).Thrifty :=
  fun _ _ _ _ => Nat.le_refl _

end Interpreter

theorem Program.backlog_run_le {α H : Type} (grammar : Node α) (program : Program H) (s : Session) :
    (program.run grammar s).1.backlog ≤ s.backlog := by
  induction program generalizing s with
  | finish => exact Nat.le_refl _
  | ask request next ih =>
    exact (ih _ _).trans (Interpreter.backlog_perform_le (Interpreter.thrifty_busy grammar) ..)

theorem Interpreter.thrifty_ofGrammar {H : Type} (grammar : Node (Action H)) :
    (ofGrammar grammar).Thrifty :=
  fun _ _ s _ => Program.backlog_run_le grammar _ s

end Vty
