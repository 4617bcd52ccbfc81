import Vty.Proofs.Session.Steps

namespace Vty

namespace Session

/-- The next event with the session that is to handle it, or no event where something was dropped.
A session that is closed, or has nothing whole to decode, has none. -/
def pull (s : Session) : Option (Option Input.Event × Session) :=
  if s.closed then none
  else
    match s.queue.next with
    | none | some (.incomplete, _) => none
    | some (.event event, queue) => some (some event, { s with queue })
    | some (decoded, queue) =>
      some (none, { s with queue, notices := s.notices ++ decoded.notice?.toList })

/-- What a read leads to. The answer says whether there is now something to decode. -/
def absorb (s : Session) : Except String Bytes → Session × Bool
  | .ok [] => ((s.note (.endOfInput s.origin)).close, false)
  | .ok bytes => ({ s with queue := s.queue.extend bytes }, true)
  | .error reason => ((s.note (.readFailed s.origin reason)).close, false)

def intake (s : Session) : Session × Bool :=
  match s.closed, s.input with
  | false, some input =>
    let (result, rest) := input.read s.chunk
    { s with input := some rest }.absorb result
  | _, _ => (s, false)

theorem pull_of_closed {s : Session} (h : s.closed = true) : s.pull = none := by
  rw [pull, if_pos h]

theorem pull_of_next_eq_none {s : Session} (h : s.queue.next = none) : s.pull = none := by
  simp only [pull, h, ite_self]

theorem pull_eq_some {s t : Session} {event : Option Input.Event} (h : s.pull = some (event, t)) :
    s.closed = false ∧ ∃ decoded queue notices, s.queue.next = some (decoded, queue) ∧
      decoded ≠ .incomplete ∧ t = { s with queue, notices } := by
  unfold pull at h
  split at h
  · cases h
  · rename_i hc
    refine ⟨Bool.eq_false_iff.mpr hc, ?_⟩
    split at h
    · cases h
    · cases h
    · rename_i found queue hn
      obtain ⟨-, rfl⟩ := Prod.mk.inj (Option.some.inj h)
      exact ⟨_, queue, s.notices, hn, nofun, rfl⟩
    · rename_i decoded queue hd he hn
      obtain ⟨-, rfl⟩ := Prod.mk.inj (Option.some.inj h)
      exact ⟨_, queue, _, hn, hd, rfl⟩

theorem pull_eq_event {s t : Session} {event : Input.Event} (h : s.pull = some (some event, t)) :
    ∃ queue, s.queue.next = some (.event event, queue) ∧ t = { s with queue } := by
  unfold pull at h
  split at h
  · cases h
  · split at h
    · cases h
    · cases h
    · rename_i found queue hn
      obtain ⟨he, rfl⟩ := Prod.mk.inj (Option.some.inj h)
      obtain rfl := Option.some.inj he
      exact ⟨queue, hn, rfl⟩
    · cases h

theorem intake_of_closed {s : Session} (h : s.closed = true) : s.intake = (s, false) := by
  unfold intake
  rw [h]

theorem intake_of_detached {s : Session} (h : s.input = none) : s.intake = (s, false) := by
  unfold intake
  rw [h]
  split
  · rename_i hn
    cases hn
  · rfl

theorem intake_of_open {s : Session} {c : InputChannel} (ho : s.closed = false)
    (h : s.input = some c) :
    s.intake = { s with input := some (c.read s.chunk).2 }.absorb (c.read s.chunk).1 := by
  unfold intake
  rw [h]
  simp only [ho]

end Session

namespace Interpreter

variable {α σ : Type} {i : Interpreter α σ} {s t : Session}

theorem drain_succ (i : Interpreter α σ) (fuel : Nat) (s : Session) (state : σ) :
    i.drain (fuel + 1) s state =
      match s.pull with
      | none => (s, state)
      | some (none, t) => i.drain fuel t state
      | some (some event, t) =>
        i.drain fuel (i.handle event t state).1 (i.handle event t state).2 := by
  rw [drain, Session.pull]
  by_cases hc : s.closed = true
  · rw [if_pos hc, if_pos hc]
  · rw [if_neg hc, if_neg hc]
    cases s.queue.next with
    | none => rfl
    | some found =>
      obtain ⟨decoded, queue⟩ := found
      cases decoded <;> rfl

theorem drain_of_pull_eq_none (h : s.pull = none) (fuel : Nat) (state : σ) :
    i.drain fuel s state = (s, state) := by
  cases fuel with
  | zero => rfl
  | succ => rw [drain_succ, h]

theorem drain_of_pull_skip (h : s.pull = some (none, t)) (fuel : Nat) (state : σ) :
    i.drain (fuel + 1) s state = i.drain fuel t state := by
  rw [drain_succ, h]

theorem drain_of_pull_event {event : Input.Event} (h : s.pull = some (some event, t)) (fuel : Nat)
    (state : σ) :
    i.drain (fuel + 1) s state =
      i.drain fuel (i.handle event t state).1 (i.handle event t state).2 := by
  rw [drain_succ, h]

theorem course_drain {R : Session → Session → Prop} (hR : Session.Course R)
    (hp : ∀ {s t : Session} {event : Option Input.Event}, s.pull = some (event, t) → R s t)
    (hh : ∀ event s state, R s (i.handle event s state).1) (fuel : Nat) (s : Session) (state : σ) :
    R s (i.drain fuel s state).1 := by
  induction fuel generalizing s state with
  | zero => exact hR.refl s
  | succ fuel ih =>
    cases hn : s.pull with
    | none =>
      rw [drain_of_pull_eq_none hn]
      exact hR.refl s
    | some found =>
      obtain ⟨event, t⟩ := found
      cases event with
      | none =>
        rw [drain_of_pull_skip hn]
        exact hR.trans (hp hn) (ih t state)
      | some event =>
        rw [drain_of_pull_event hn]
        exact hR.trans (hp hn) (hR.trans (hh event t state) (ih _ _))

theorem readable_eq (i : Interpreter α σ) (s : Session) (state : σ) :
    i.readable s state =
      if s.intake.2 then i.processInput s.intake.1 state else (s.intake.1, state) := by
  match hc : s.closed, hin : s.input with
  | true, _ =>
    rw [Session.intake_of_closed hc]
    simp [readable, hc]
  | false, none =>
    rw [Session.intake_of_detached hin]
    simp [readable, hin]
  | false, some input =>
    rw [Session.intake_of_open hc hin]
    unfold readable
    match hr : input.read s.chunk with
    | (.error reason, rest) => simp [hr, hc, hin, Session.absorb]
    | (.ok [], rest) => simp [hr, hc, hin, Session.absorb]
    | (.ok (byte :: bytes), rest) => simp [hr, hc, hin, Session.absorb]

end Interpreter

end Vty
