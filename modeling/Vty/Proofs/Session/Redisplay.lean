import Vty.Proofs.Display.Output
import Vty.Proofs.Session.Reading

namespace Vty

open Display (Command Policy)

structure Display.Policy.Lenience (akin : Policy → Policy → Prop) : Prop
    extends Equivalence akin where
  feature {p q} (h : akin p q) (feature : Telnet.Feature) (on : Bool) :
    akin { p with negotiated := p.negotiated.set feature on }
      { q with negotiated := q.negotiated.set feature on }

namespace Session

/-- Nothing differs but what has been shown, what has been noticed and, as far as `akin` allows,
what decides what will be shown. -/
def Redisplayed (akin : Policy → Policy → Prop) (s t : Session) : Prop :=
  ∃ output policy notices, output.handle = s.display.output.handle ∧
    akin s.display.policy policy ∧
    t = { s with display := { s.display with output, policy }, notices }

namespace Redisplayed

variable {akin : Policy → Policy → Prop} {s t u : Session}

theorem refl (ha : Policy.Lenience akin) (s : Session) : Redisplayed akin s s :=
  ⟨s.display.output, s.display.policy, s.notices, rfl, ha.refl _, rfl⟩

theorem symm (ha : Policy.Lenience akin) (h : Redisplayed akin s t) : Redisplayed akin t s := by
  obtain ⟨_, _, _, ho, hp, rfl⟩ := h
  exact ⟨s.display.output, s.display.policy, s.notices, ho.symm, ha.symm hp, rfl⟩

theorem trans (ha : Policy.Lenience akin) (h : Redisplayed akin s t) (h' : Redisplayed akin t u) :
    Redisplayed akin s u := by
  obtain ⟨_, _, _, ho, hp, rfl⟩ := h
  obtain ⟨output, policy, notices, ho', hp', rfl⟩ := h'
  exact ⟨output, policy, notices, ho'.trans ho, ha.trans hp hp', rfl⟩

theorem equivalence (ha : Policy.Lenience akin) : Equivalence (Redisplayed akin) :=
  ⟨.refl ha, .symm ha, .trans ha⟩

theorem present (ha : Policy.Lenience akin) (s : Session) (commands : List Command) :
    Redisplayed akin s (s.present commands) := by
  obtain ⟨output, notices, ho, hs⟩ := present_eq s commands
  rw [hs]
  exact ⟨output, s.display.policy, notices, ho, ha.refl _, rfl⟩

theorem note (ha : Policy.Lenience akin) (s : Session) (notice : Notice) :
    Redisplayed akin s (s.note notice) :=
  ⟨s.display.output, s.display.policy, _, rfl, ha.refl _, rfl⟩

theorem closed_eq (h : Redisplayed akin s t) : s.closed = t.closed := by
  obtain ⟨_, _, _, -, -, rfl⟩ := h
  rfl

theorem editor_eq (h : Redisplayed akin s t) : s.editor = t.editor := by
  obtain ⟨_, _, _, -, -, rfl⟩ := h
  rfl

theorem name_eq (h : Redisplayed akin s t) : s.name = t.name := by
  obtain ⟨_, _, _, -, -, rfl⟩ := h
  rfl

theorem effects_eq (h : Redisplayed akin s t) : s.effects = t.effects := by
  obtain ⟨_, _, _, -, -, rfl⟩ := h
  rfl

theorem view_eq (h : Redisplayed akin s t) :
    akin s.display.policy t.display.policy ∧
      t.view = { s.view with negotiated := t.negotiated } := by
  obtain ⟨_, _, _, -, hp, rfl⟩ := h
  exact ⟨hp, rfl⟩

theorem close (h : Redisplayed akin s t) : Redisplayed akin s.close t.close := by
  cases hc : s.closed with
  | true =>
    rw [close_of_closed hc, close_of_closed (h.closed_eq.symm.trans hc)]
    exact h
  | false =>
    obtain ⟨_, hs⟩ := close_of_open hc
    obtain ⟨notices, ht⟩ := close_of_open (h.closed_eq.symm.trans hc)
    rw [hs, ht]
    obtain ⟨output, policy, _, ho, hp, rfl⟩ := h
    dsimp only
    rw [ho]
    cases s.connection <;> exact ⟨output, policy, notices, ho, hp, rfl⟩

theorem absorb (ha : Policy.Lenience akin) (h : Redisplayed akin s t)
    (result : Except String Bytes) :
    Redisplayed akin (s.absorb result).1 (t.absorb result).1 ∧
      (s.absorb result).2 = (t.absorb result).2 := by
  have hn (a b : Notice) : Redisplayed akin (s.note a) (t.note b) :=
    .trans ha (.symm ha (note ha s a)) (.trans ha h (note ha t b))
  match result with
  | .ok [] => exact ⟨(hn _ _).close, rfl⟩
  | .ok (byte :: bytes) =>
    obtain ⟨output, policy, notices, ho, hp, rfl⟩ := h
    exact ⟨⟨output, policy, notices, ho, hp, rfl⟩, rfl⟩
  | .error reason => exact ⟨(hn _ _).close, rfl⟩

theorem intake (ha : Policy.Lenience akin) (h : Redisplayed akin s t) :
    Redisplayed akin s.intake.1 t.intake.1 ∧ s.intake.2 = t.intake.2 := by
  have hin : t.input = s.input ∧ t.chunk = s.chunk := by
    obtain ⟨_, _, _, -, -, rfl⟩ := h
    exact ⟨rfl, rfl⟩
  cases hc : s.closed with
  | true =>
    rw [intake_of_closed hc, intake_of_closed (h.closed_eq.symm.trans hc)]
    exact ⟨h, rfl⟩
  | false =>
    cases hi : s.input with
    | none =>
      rw [intake_of_detached hi, intake_of_detached (hin.1.trans hi)]
      exact ⟨h, rfl⟩
    | some c =>
      rw [intake_of_open hc hi, intake_of_open (h.closed_eq.symm.trans hc) (hin.1.trans hi), hin.2]
      apply absorb ha
      obtain ⟨output, policy, notices, ho, hp, rfl⟩ := h
      exact ⟨output, policy, notices, ho, hp, rfl⟩

theorem pull (h : Redisplayed akin s t) :
    Option.Rel (fun p q => p.1 = q.1 ∧ Redisplayed akin p.2 q.2) s.pull t.pull := by
  obtain ⟨output, policy, notices, ho, hp, rfl⟩ := h
  unfold Session.pull
  dsimp only
  split
  · exact .none
  · cases s.queue.next with
    | none => exact .none
    | some found =>
      obtain ⟨decoded, queue⟩ := found
      cases decoded with
      | incomplete => exact .none
      | _ => exact .some ⟨rfl, output, policy, _, ho, hp, rfl⟩

end Redisplayed

theorem likeness_redisplayed {akin : Policy → Policy → Prop} (ha : Policy.Lenience akin) :
    Likeness.Fed (Redisplayed akin) where
  closed h := h.closed_eq
  editor h := h.editor_eq
  name h := h.name_eq
  present {s t} h commands :=
    .trans ha (.symm ha (.present ha s commands)) (.trans ha h (.present ha t commands))
  note {s t} h _ := .trans ha (.symm ha (.note ha s _)) (.trans ha h (.note ha t _))
  rename h _ := by
    obtain ⟨output, policy, notices, ho, hp, rfl⟩ := h
    exact ⟨output, policy, notices, ho, hp, rfl⟩
  replace h _ := by
    obtain ⟨output, policy, notices, ho, hp, rfl⟩ := h
    exact ⟨output, policy, notices, ho, hp, rfl⟩
  feature h feature on := by
    obtain ⟨output, policy, notices, ho, hp, rfl⟩ := h
    exact ⟨output, _, notices, ho, ha.feature hp feature on, rfl⟩
  close h := h.close
  pull h := h.pull
  intake h := h.intake ha

end Session

namespace Interpreter

open Session (Alike Likeness)

variable {α σ τ : Type} {R : Session → Session → Prop} {Q : σ → τ → Prop}
  {i : Interpreter α σ} {j : Interpreter α τ} {s t : Session} {x : σ} {y : τ}
  {kept : Input.Event → Bool}

theorem joined_handleAll (hR : Likeness R) (hp : Paired R Q i j) (events : List Input.Event)
    (h : R s t) (hq : Q x y) :
    Joined R Q (i.handleAll events s x) (j.handleAll events t y) := by
  induction events generalizing s t x y with
  | nil => exact ⟨h, hq⟩
  | cons event events ih =>
    unfold handleAll
    rw [← hR.closed h]
    split
    · exact ⟨h, hq⟩
    · have hh := joined_handle hR hp h hq event
      exact ih hh.1 hh.2

theorem handleAll_logged (i : Interpreter α σ) (events : List Input.Event) (s : Session) (state : σ)
    (calls : List (α × Grammar.Parameters)) :
    i.handleAll events s state =
      ((i.logged.handleAll events s (state, calls)).1,
        (i.logged.handleAll events s (state, calls)).2.1) := by
  have hj := joined_handleAll Session.likeness_eq.toLikeness (paired_unlogged i) events
    (rfl : s = s) (rfl : (state, calls).1 = state)
  exact Prod.ext hj.1.symm hj.2.symm

theorem deliver_logged (hi : i.Thrifty) (offers : List (List Arrival)) (s : Session) (state : σ)
    (calls : List (α × Grammar.Parameters)) :
    i.deliver offers s state =
      ((i.logged.deliver offers s (state, calls)).1,
        (i.logged.deliver offers s (state, calls)).2.1) := by
  induction offers generalizing s state calls with
  | nil => rfl
  | cons arrivals offers ih =>
    have hj := joined_readable Session.likeness_eq (paired_unlogged i) (thrifty_logged hi) hi
      (rfl : s.offer arrivals = s.offer arrivals) (rfl : (state, calls).1 = state)
    rw [deliver, deliver, ← hj.1, ← hj.2]
    exact ih ..

theorem outward_logged (hi : i.Outward) : i.logged.Outward :=
  fun path action hl parameters s state => hi path action hl parameters s state.1

theorem uniform_logged (hi : i.Uniform) : i.logged.Uniform := by
  intro path action hl parameters s t state h
  have hr := hi path action hl parameters s t state.1 h
  refine ⟨hr.1, ?_⟩
  dsimp only [logged]
  rw [hr.2]

def Skips (R : Session → Session → Prop) (i : Interpreter α σ) (kept : Input.Event → Bool) : Prop :=
  ∀ event, kept event = false → ∀ s state,
    R s (i.handle event s state).1 ∧ (i.handle event s state).2 = state

theorem joined_filter (hR : Likeness R) (he : Equivalence R) (hp : Paired R Eq i i)
    (hk : i.Skips R kept) (events : List Input.Event) (h : R s t) (state : σ) :
    Joined R Eq (i.handleAll events s state) (i.handleAll (events.filter kept) t state) := by
  induction events generalizing s t state with
  | nil => exact ⟨h, rfl⟩
  | cons event events ih =>
    have hc := hR.closed h
    by_cases hs : s.closed = true
    · rw [handleAll_of_closed hs, handleAll_of_closed (hc.symm.trans hs)]
      exact ⟨h, rfl⟩
    · cases hn : kept event with
      | false =>
        obtain ⟨hd, hx⟩ := hk event hn s state
        rw [List.filter_cons_of_neg (by simp [hn]), handleAll, if_neg hs, hx]
        exact ih (he.trans (he.symm hd) h) state
      | true =>
        have hj := joined_handle hR hp h (rfl : state = state) event
        rw [List.filter_cons_of_pos hn, handleAll, if_neg hs, handleAll, if_neg (hc ▸ hs), ← hj.2]
        exact ih hj.1 _

theorem joined_of_filter_eq (hR : Likeness R) (he : Equivalence R) (hp : Paired R Eq i i)
    (hk : i.Skips R kept) {events events' : List Input.Event}
    (hf : events.filter kept = events'.filter kept) (s : Session) (state : σ) :
    Joined R Eq (i.handleAll events s state) (i.handleAll events' s state) := by
  have h := joined_filter hR he hp hk events (he.refl s) state
  have h' := joined_filter hR he hp hk events' (he.refl s) state
  rw [hf] at h
  exact ⟨he.trans h.1 (he.symm h'.1), h.2.trans h'.2.symm⟩

theorem deliver_of_filter_eq (hR : Likeness R) (he : Equivalence R) (hp : Paired R Eq i i)
    (hk : i.Skips R kept) (ho : i.Outward) (hu : i.Uniform) (hi : s.input.isSome)
    (hq : s.queue.pending = []) (state : σ) {offers offers' : List (List Arrival)}
    {reads reads' : List Bytes} (hr : s.Reads offers reads) (hr' : s.Reads offers' reads')
    (hb : [] ∉ reads) (hb' : [] ∉ reads')
    (hf : (Input.events reads.flatten).filter kept = (Input.events reads'.flatten).filter kept) :
    (∃ p q, Alike (i.deliver offers s state).1 p ∧ R p q ∧ Alike q (i.deliver offers' s state).1) ∧
      (i.deliver offers s state).2 = (i.deliver offers' s state).2 := by
  have hd := deliver_agree_events ho hu state hi hq hr hb
  have hd' := deliver_agree_events ho hu state hi hq hr' hb'
  have hj := joined_of_filter_eq hR he hp hk hf s state
  exact ⟨⟨_, _, hd.1, hj.1, hd'.1.symm⟩, hd.2.trans (hj.2.trans hd'.2.symm)⟩

end Interpreter

end Vty
