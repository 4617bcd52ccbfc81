import Vty.Proofs.Session.Paired

namespace Vty

open Grammar (Mode Node Parameters)

def InputChannel.drained (c : InputChannel) : InputChannel :=
  { c with arrivals := [] }

namespace Session

/-- Two sessions that differ only in the input that waits and in what has been noticed. -/
def Alike (s t : Session) : Prop :=
  ∃ queue notices input, input.map InputChannel.drained = s.input.map InputChannel.drained ∧
    t = { s with queue, notices, input }

namespace Alike

variable {s t u : Session}

theorem refl (s : Session) : Alike s s :=
  ⟨s.queue, s.notices, s.input, rfl, rfl⟩

theorem symm (h : Alike s t) : Alike t s := by
  obtain ⟨_, _, _, hi, rfl⟩ := h
  exact ⟨s.queue, s.notices, s.input, hi.symm, rfl⟩

theorem trans (h : Alike s t) (h' : Alike t u) : Alike s u := by
  obtain ⟨_, _, _, hi, rfl⟩ := h
  obtain ⟨queue, notices, input, hi', rfl⟩ := h'
  exact ⟨queue, notices, input, hi'.trans hi, rfl⟩

theorem queued (s : Session) (queue : Input.Queue) : Alike s { s with queue } :=
  ⟨queue, s.notices, s.input, rfl, rfl⟩

theorem noted (s : Session) (notices : List Notice) : Alike s { s with notices } :=
  ⟨s.queue, notices, s.input, rfl, rfl⟩

theorem closed_eq (h : Alike s t) : s.closed = t.closed := by
  obtain ⟨_, _, _, _, rfl⟩ := h
  rfl

theorem written_eq (h : Alike s t) : s.written = t.written := by
  obtain ⟨_, _, _, _, rfl⟩ := h
  rfl

theorem view_eq (h : Alike s t) : s.view = t.view := by
  obtain ⟨_, _, _, _, rfl⟩ := h
  rfl

theorem effects_eq (h : Alike s t) : s.effects = t.effects := by
  obtain ⟨_, _, _, _, rfl⟩ := h
  rfl

theorem editor (h : Alike s t) (e : Editor) :
    Alike { s with editor := e } { t with editor := e } := by
  obtain ⟨_, _, _, hi, rfl⟩ := h
  exact ⟨_, _, _, hi, rfl⟩

theorem rename (h : Alike s t) (name : String) : Alike { s with name } { t with name } := by
  obtain ⟨_, _, _, hi, rfl⟩ := h
  exact ⟨_, _, _, hi, rfl⟩

theorem note (h : Alike s t) (notice notice' : Notice) :
    Alike (s.note notice) (t.note notice') := by
  obtain ⟨_, _, _, hi, rfl⟩ := h
  exact ⟨_, _, _, hi, rfl⟩

theorem present (h : Alike s t) (commands : List Display.Command) :
    Alike (s.present commands) (t.present commands) := by
  obtain ⟨_, _, _, hi, rfl⟩ := h
  exact ⟨_, _, _, hi, rfl⟩

theorem feature (h : Alike s t) (feature : Telnet.Feature) (on : Bool) :
    Alike { s with display := s.display.setFeature feature on }
      { t with display := t.display.setFeature feature on } := by
  obtain ⟨_, _, _, hi, rfl⟩ := h
  exact ⟨_, _, _, hi, rfl⟩

theorem handle_eq (h : Alike s t) :
    s.input.map InputChannel.handle = t.input.map InputChannel.handle := by
  obtain ⟨_, _, _, hi, rfl⟩ := h
  have hh := congrArg (Option.map InputChannel.handle) hi
  rw [Option.map_map, Option.map_map] at hh
  exact hh.symm

theorem close (h : Alike s t) : Alike s.close t.close := by
  by_cases hc : s.closed = true
  · rw [close_of_closed hc, close_of_closed (h.closed_eq ▸ hc)]
    exact h
  · have ho : s.closed = false := Bool.eq_false_iff.mpr hc
    obtain ⟨_, hs⟩ := close_of_open ho
    obtain ⟨_, ht⟩ := close_of_open (h.closed_eq.symm.trans ho)
    rw [hs, ht, ← h.handle_eq]
    obtain ⟨_, _, _, hi, rfl⟩ := h
    cases s.connection with
    | terminal => exact ⟨_, _, _, hi, rfl⟩
    | network => exact ⟨_, _, none, rfl, rfl⟩

end Alike

theorem likeness_alike : Likeness Alike where
  closed h := h.closed_eq
  editor h := congrArg View.editor h.view_eq
  name h := congrArg View.name h.view_eq
  present h commands := h.present commands
  note h _ := h.note _ _
  rename h name := h.rename name
  replace h editor := h.editor editor
  feature h feature on := h.feature feature on
  close h := h.close

end Session

namespace Interpreter

open Session (Alike likeness_alike)

variable {α σ H : Type} {s t : Session}

def Agree (p q : Session × σ) : Prop :=
  p.1.Alike q.1 ∧ p.2 = q.2

theorem Agree.symm {p q : Session × σ} (h : Agree p q) : Agree q p :=
  ⟨h.1.symm, h.2.symm⟩

theorem Agree.trans {p q r : Session × σ} (h : Agree p q) (h' : Agree q r) : Agree p r :=
  ⟨h.1.trans h'.1, h.2.trans h'.2⟩

def Uniform (i : Interpreter α σ) : Prop :=
  ∀ path action, i.grammar.Leads path action → ∀ parameters s t state, Alike s t →
    Alike (i.run action parameters s state).1 (i.run action parameters t state).1 ∧
      (i.run action parameters s state).2 = (i.run action parameters t state).2

theorem Uniform.paired {i : Interpreter α σ} (hi : i.Uniform) : Paired Alike Eq i i where
  grammar := rfl
  run hl parameters s t x y h hq := by
    subst hq
    have hr := hi _ _ hl parameters s t x h
    exact ⟨⟨hr.1, congrArg Prod.fst hr.2⟩, congrArg Prod.snd hr.2⟩

theorem handle_agree {i : Interpreter α σ} (hi : i.Uniform) (h : Alike s t) (event : Input.Event)
    (state : σ) : Agree (i.handle event s state) (i.handle event t state) :=
  joined_handle likeness_alike hi.paired h rfl event

end Interpreter

open Session (Alike likeness_alike)

theorem Program.run_alike {α H : Type} (grammar : Node α) {program : Program H}
    (hp : program.Within fun request => request.reenters = false) {s t : Session}
    (h : Alike s t) :
    Alike (program.run grammar s).1 (program.run grammar t).1 ∧
      (program.run grammar s).2 = (program.run grammar t).2 := by
  induction program generalizing s t with
  | finish => exact ⟨h, rfl⟩
  | ask request next ih =>
    have hr := Interpreter.joined_perform_outward likeness_alike
      (Interpreter.paired_busy Alike grammar) h trivial hp.1 (x := ()) (y := ())
    simp only [run]
    rw [← hr.1.view_eq]
    exact ih _ (hp.2 _) hr.1

namespace Interpreter

variable {α σ H : Type} {s t : Session}

theorem uniform_ofGrammar {grammar : Node (Action H)}
    (hg : grammar.Within fun request => request.reenters = false) :
    (ofGrammar grammar).Uniform := by
  intro path action hl parameters s t handler h
  dsimp only [ofGrammar]
  rw [← h.view_eq]
  exact Program.run_alike grammar (hg path action hl handler s.view parameters) h

end Interpreter

end Vty
