import Vty.Commands
import Vty.Proofs.Display.Output
import Vty.Proofs.Session.Machine

namespace Vty

open Grammar (Mode Node)

theorem InputChannel.handle_read (c : InputChannel) (limit : Nat) :
    (c.read limit).2.handle = c.handle := by
  unfold read
  split <;> rfl

namespace Session

variable {s t : Session}

inductive Change : Session → Session → Prop
  | step {s t : Session} (h : Step s t) : Change s t
  | decoded {s : Session} (h : s.closed = false) (queue : Input.Queue) (notices : List Notice) :
      Change s { s with queue, notices }
  | read {s : Session} (h : s.closed = false) {c : InputChannel} (hc : s.input = some c)
      (limit : Nat) : Change s { s with input := some (c.read limit).2 }
  | receive (s : Session) (arrival : Arrival) : Change s (s.receive arrival)

abbrev Changes : Session → Session → Prop :=
  Relation.ReflTransGen Change

theorem Steps.changes (h : Steps s t) : Changes s t :=
  Relation.ReflTransGen.mono (fun _ _ => .step) _ _ h

theorem changes_pull {event : Option Input.Event} (h : s.pull = some (event, t)) :
    Changes s t := by
  obtain ⟨ho, -, queue, notices, -, -, rfl⟩ := pull_eq_some h
  exact .single (.decoded ho queue notices)

theorem changes_absorb (h : s.closed = false) (result : Except String Bytes) :
    Changes s (s.absorb result).1 := by
  have he (notice : Notice) : Changes s (s.note notice).close :=
    Steps.changes (.head (.note s notice) (.single (.close _)))
  match result with
  | .ok [] => exact he _
  | .ok (byte :: bytes) => exact .single (.decoded h _ s.notices)
  | .error reason => exact he _

theorem changes_intake (s : Session) : Changes s s.intake.1 := by
  by_cases h : s.closed = true
  · rw [intake_of_closed h]
  · cases hc : s.input with
    | none => rw [intake_of_detached hc]
    | some c =>
      have ho : s.closed = false := Bool.eq_false_iff.mpr h
      rw [intake_of_open ho hc]
      refine .head (.read ho hc s.chunk) ?_
      exact changes_absorb (s := { s with input := some (c.read s.chunk).2 }) ho _

theorem steps_obey (s : Session) (event : Input.Event) : Steps s (s.obey event) := by
  cases event with
  | endOfLine => exact .refl
  | contextHelp => exact .refl
  | telnet verb option => exact Interpreter.steps_negotiate ..
  | _ => exact steps_edit ..

end Session

namespace Machine

open Session (Steps Changes)

variable {H : Type} {grammar : Node (Action H)}

theorem changes_execute (grammar : Node (Action H)) (command : String) (mode : Mode)
    (m : Machine H) : Changes m.session (m.execute grammar command mode).session := by
  unfold execute
  split
  · exact .refl
  · exact (Session.steps_printAll ..).changes
  · split
    · exact .refl
    · exact (Interpreter.steps_reportFailure ..).changes
  · rename_i fault _
    exact (Session.steps_printAll m.session (fault.message :: fault.details)).changes

theorem changes_answer (line : Bytes) (mode : Mode) (m : Machine H) :
    Changes m.session (answer line mode m).session := by
  unfold answer
  split
  · exact .refl
  · exact (Session.steps_print ..).changes

theorem changes_call (grammar : Node (Action H)) (request : Request) (m : Machine H) :
    Changes m.session (m.call grammar request).session := by
  cases request with
  | print message => exact (Session.steps_print ..).changes
  | printPrompt => exact (Session.steps_printPrompt _).changes
  | setName name => exact .single (.step (.rename _ name))
  | history op => exact .single (.step (.edit _ _))
  | execute line mode => exact changes_execute ..
  | processInput => exact .refl
  | readable => exact Session.changes_intake _
  | close => exact .single (.step (.close _))

theorem changes_handle (event : Input.Event) (m : Machine H) :
    Changes m.session (handle event m).session := by
  have ho := (Session.steps_obey m.session event).changes
  cases event with
  | endOfLine =>
    have ha := changes_answer m.session.editor.buffer .execute
      { m with
        session := m.session.entered
        frames := .promptAgain m.session.editor.buffer :: m.frames }
    exact (Session.steps_entered m.session).changes.trans ha
  | contextHelp =>
    have ha := changes_answer m.session.editor.buffer .help
      { m with session := m.session.print "", frames := .showAgain :: m.frames }
    exact (Session.steps_print m.session "").changes.trans ha
  | _ => exact ho

theorem changes_drain (m : Machine H) : Changes m.session m.drain.session := by
  unfold drain
  cases h : m.session.pull with
  | none => exact .refl
  | some found =>
    obtain ⟨event, t⟩ := found
    have hp := Session.changes_pull h
    cases event with
    | none => exact hp
    | some event =>
      exact hp.trans (changes_handle event { m with session := t, frames := .drain :: m.frames })

theorem changes_step {m n : Machine H} (h : m.step grammar = some n) :
    Changes m.session n.session := by
  obtain ⟨s, handler, frames⟩ := m
  cases frames with
  | nil => cases h
  | cons frame frames =>
    obtain rfl := Option.some.inj h
    cases frame with
    | call request => exact changes_call grammar request ⟨s, handler, frames⟩
    | drain => exact changes_drain ⟨s, handler, frames⟩
    | promptAgain line => exact (Session.steps_promptAgain ..).changes
    | showAgain => exact (Session.steps_shownAgain _).changes
    | action command program =>
      cases program with
      | finish handler result =>
        cases result with
        | ok => exact .refl
        | error failure => exact (Interpreter.steps_reportFailure ..).changes
      | ask request next => exact .refl
    | waiting command next => exact .refl

theorem Moments.changes {m n : Machine H} (h : Moments grammar m n) :
    Changes m.session n.session := by
  induction h with
  | refl => exact .refl
  | tail _ ht ih =>
    cases ht with
    | work hs => exact ih.trans (changes_step hs)
    | arrive arrival => exact ih.tail (.receive _ arrival)
    | call => exact ih
    | share => exact ih

end Machine

def Endpoint.farewell (e : Endpoint) (id : Nat) : List Session.Effect :=
  .unregistered id ::
    match e.connection with
    | .terminal => [.terminalClosed]
    | .network =>
      .inputReleased e.input.handle ::
        if e.output.handle = e.input.handle then [] else [.outputReleased e.output.handle]

namespace Session

variable {s t : Session} {id : Nat} {e : Endpoint}

structure Accountable (id : Nat) (e : Endpoint) (s : Session) : Prop where
  identity : s.id = id
  connection : s.connection = e.connection
  output : s.display.output.handle = e.output.handle
  input : s.closed = false → ∃ c, s.input = some c ∧ c.handle = e.input.handle
  effects : s.effects = .registered id e.input.handle :: if s.closed then e.farewell id else []
  parted : s.closed = true → e.connection = .network →
    s.input = none ∧ s.display.attached = false

theorem accountable_start (id : Nat) (e : Endpoint) (name : String) (options : Options) :
    (start id e name options).Accountable id e := by
  obtain ⟨output, notices, ho, hs⟩ := start_eq id e name options
  rw [hs]
  exact ⟨rfl, rfl, ho, fun _ => ⟨e.input, rfl, rfl⟩, rfl, nofun⟩

theorem Accountable.close (h : s.Accountable id e) : s.close.Accountable id e := by
  by_cases hc : s.closed = true
  · rw [close_of_closed hc]
    exact h
  · have ho : s.closed = false := Bool.eq_false_iff.mpr hc
    obtain ⟨c, hi, hh⟩ := h.input ho
    have he : s.effects = [.registered id e.input.handle] := by
      rw [h.effects, if_neg hc]
    obtain ⟨notices, hs⟩ := close_of_open ho
    rw [hs]
    cases hn : s.connection with
    | terminal =>
      have hk := hn.symm.trans h.connection
      refine ⟨h.identity, hk, h.output, nofun, ?_, fun _ hp => ?_⟩
      · simp [he, h.identity, Endpoint.farewell, ← hk]
      · rw [← hk] at hp
        cases hp
    | network =>
      have hk := hn.symm.trans h.connection
      refine ⟨h.identity, hk, h.output, nofun, ?_, fun _ _ => ⟨rfl, rfl⟩⟩
      simp [he, h.identity, Endpoint.farewell, ← hk, h.output, hi, hh, eq_comm]

theorem Accountable.present (h : s.Accountable id e) (commands : List Display.Command) :
    (s.present commands).Accountable id e := by
  obtain ⟨output, notices, ho, hp⟩ := present_eq s commands
  rw [hp]
  exact ⟨h.identity, h.connection, ho.trans h.output, h.input, h.effects, h.parted⟩

theorem Accountable.step (h : s.Accountable id e) (hs : Step s t) : t.Accountable id e := by
  cases hs with
  | present commands => exact h.present commands
  | close => exact h.close
  | _ => exact ⟨h.identity, h.connection, h.output, h.input, h.effects, h.parted⟩

theorem Accountable.changes (h : s.Accountable id e) (hs : Changes s t) : t.Accountable id e := by
  induction hs with
  | refl => exact h
  | tail _ hc ih =>
    cases hc with
    | step hs => exact ih.step hs
    | decoded ho queue notices =>
      exact ⟨ih.identity, ih.connection, ih.output, ih.input, ih.effects, ih.parted⟩
    | read ho hi limit =>
      obtain ⟨c, hc, hh⟩ := ih.input ho
      obtain rfl := Option.some.inj (hc.symm.trans hi)
      refine ⟨ih.identity, ih.connection, ih.output, fun _ => ⟨_, rfl, ?_⟩, ih.effects, fun hc => ?_⟩
      · exact (InputChannel.handle_read ..).trans hh
      · exact absurd (ho.symm.trans hc) nofun
    | receive arrival =>
      refine ⟨ih.identity, ih.connection, ih.output, fun ho => ?_, ih.effects, fun hc hk => ?_⟩
      · obtain ⟨c, hc, hh⟩ := ih.input ho
        exact ⟨c.receive arrival, congrArg (Option.map _) hc, hh⟩
      · exact ⟨congrArg (Option.map _) (ih.parted hc hk).1, (ih.parted hc hk).2⟩

structure Rests (s t : Session) : Prop where
  closed : t.closed = true
  queue : t.queue = s.queue
  input : ∃ arrivals, t.input = s.input.map fun c => { c with arrivals := c.arrivals ++ arrivals }
  silent : s.display.attached = false → t.display.attached = false ∧ t.written = s.written

theorem Rests.refl (h : s.closed = true) : Rests s s := by
  refine ⟨h, rfl, ⟨[], ?_⟩, fun hd => ⟨hd, rfl⟩⟩
  simp

theorem Rests.step (h : s.closed = true) (hs : Step s t) : Rests s t := by
  have hr := Rests.refl h
  cases hs with
  | present commands =>
    refine ⟨h, rfl, hr.input, fun hd => ?_⟩
    rw [present_of_detached hd]
    exact hr.silent hd
  | close =>
    rw [close_of_closed h]
    exact hr
  | _ => exact ⟨h, rfl, hr.input, hr.silent⟩

theorem Rests.trans {u : Session} (h : Rests s t) (h' : Rests t u) : Rests s u := by
  obtain ⟨arrivals, hi⟩ := h.input
  obtain ⟨more, hi'⟩ := h'.input
  refine ⟨h'.closed, h'.queue.trans h.queue, ⟨arrivals ++ more, ?_⟩, fun hd => ?_⟩
  · rw [hi', hi, Option.map_map]
    simp only [Function.comp_def, List.append_assoc]
  · have ht := h.silent hd
    exact ⟨(h'.silent ht.1).1, (h'.silent ht.1).2.trans ht.2⟩

theorem Rests.changes (h : s.closed = true) (hs : Changes s t) : Rests s t := by
  induction hs with
  | refl => exact .refl h
  | tail _ hc ih =>
    cases hc with
    | step hs => exact ih.trans (.step ih.closed hs)
    | decoded ho => exact absurd (ho.symm.trans ih.closed) nofun
    | read ho => exact absurd (ho.symm.trans ih.closed) nofun
    | receive arrival => exact ih.trans ⟨ih.closed, rfl, ⟨[arrival], rfl⟩, fun hd => ⟨hd, rfl⟩⟩

end Session

namespace Machine

variable {H : Type} {m n : Machine H}

/-- However a session is called, and whatever its actions call in turn, the host is told of it once
as it begins and once if it ends, and a session that has ended is left as it is. -/
theorem lifecycle (grammar : Node (Action H)) (id : Nat) (e : Endpoint) (name : String)
    (options : Session.Options) (handler : H)
    (hm : Moments grammar ⟨.start id e name options, some handler, []⟩ m)
    (hn : Moments grammar m n) :
    (m.frames = [] → ∀ handler, m.handler = some handler → ∀ request, Moments grammar m
      ⟨((Interpreter.ofGrammar grammar).perform request m.session handler).1,
        some ((Interpreter.ofGrammar grammar).perform request m.session handler).2, []⟩) ∧
      m.session.effects =
        .registered id e.input.handle :: (if m.session.closed then e.farewell id else []) ∧
      (m.session.closed = true →
        n.session.closed = true ∧ n.session.queue = m.session.queue ∧
          (∃ arrivals, n.session.input =
            m.session.input.map fun c => { c with arrivals := c.arrivals ++ arrivals }) ∧
          (e.connection = .network →
            n.session.input = none ∧ n.session.written = m.session.written)) := by
  have ha := (Session.accountable_start id e name options).changes hm.changes
  refine ⟨fun h handler hh request => moments_perform h hh request, ha.effects, fun hc => ?_⟩
  have hr := Session.Rests.changes hc hn.changes
  refine ⟨hr.closed, hr.queue, hr.input, fun hk => ?_⟩
  have hp := ha.parted hc hk
  obtain ⟨arrivals, hi⟩ := hr.input
  refine ⟨?_, (hr.silent hp.2).2⟩
  rw [hi, hp.1]
  rfl

end Machine

namespace Daemon

open Machine (Moments)

def leaver : Endpoint where
  connection := .network
  input :=
    { handle := 4, arrivals := [.data (Text.utf8 "exit\r\nshow")], release := .error "stuck" }
  output := { handle := 9, release := .error "stuck" }
  peer := "10.0.0.7:4000"

def departed : Session × Daemon :=
  (Interpreter.ofGrammar grammar).perform .readable (.start 1 leaver "rift") {}

theorem lifecycle_leaver :
    Moments grammar ⟨.start 1 leaver "rift", some {}, []⟩ ⟨departed.1, some departed.2, []⟩ ∧
      Moments grammar ⟨departed.1, some departed.2, []⟩
        ⟨departed.1.print "late", some departed.2, []⟩ ∧
      departed.1.effects =
        [.registered 1 4, .unregistered 1, .inputReleased 4, .outputReleased 9] ∧
      (departed.1.print "late").written = departed.1.written ∧
      departed.1.queue.pending = Text.utf8 "show" := by
  have hm : Moments grammar ⟨.start 1 leaver "rift", some {}, []⟩
      ⟨departed.1, some departed.2, []⟩ := Machine.moments_perform rfl rfl .readable
  have hn : Moments grammar ⟨departed.1, some departed.2, []⟩
      ⟨departed.1.print "late", some departed.2, []⟩ :=
    Machine.moments_perform rfl rfl (.print "late")
  have hc : departed.1.closed = true := by decide +kernel
  obtain ⟨-, he, hr⟩ := Machine.lifecycle grammar 1 leaver "rift" {} {} hm hn
  refine ⟨hm, hn, he.trans ?_, ((hr hc).2.2.2 rfl).2, ?_⟩
  · rw [if_pos hc]
    rfl
  · decide +kernel

end Daemon

end Vty
