import Vty.Proofs.Session.Exclusion
import Vty.Proofs.Session.Help

namespace Vty

open Grammar (Mode Node)

variable {α σ β H : Type} {f : Session → β} {allowed : Request → Prop}

def Request.lasting : Request → Bool
  | .readable | .close => false
  | _ => true

namespace Session

variable {s t : Session}

structure Apart (f : Session → β) : Prop where
  present (s : Session) (commands : List Display.Command) : f (s.present commands) = f s
  note (s : Session) (notice : Notice) : f (s.note notice) = f s

theorem Apart.course (hf : Apart f) : Course fun s t => f t = f s :=
  ⟨fun _ => rfl, fun h hr => hr.trans h, hf.present, hf.note⟩

def line (s : Session) : Bytes × Nat :=
  (s.editor.buffer, s.editor.cursor)

theorem apart_closed : Apart Session.closed :=
  ⟨fun _ _ => rfl, fun _ _ => rfl⟩

theorem apart_line : Apart line :=
  ⟨fun _ _ => rfl, fun _ _ => rfl⟩

theorem Apart.entered (hf : Apart f) (he : ∀ s editor, f { s with editor } = f s) (s : Session) :
    f s.entered = f s := by
  unfold Session.entered noteLine
  split
  · exact (hf.note _ _).trans ((he _ _).trans (hf.present _ _))
  · exact (he _ _).trans (hf.present _ _)

theorem Apart.promptAgain (hf : Apart f) (he : ∀ s editor, f { s with editor } = f s) (s : Session)
    (line : Bytes) : f (s.promptAgain line) = f s := by
  unfold Session.promptAgain
  split
  · rfl
  · exact (he _ _).trans (hf.present _ _)

theorem line_entered (s : Session) : s.entered.line = ([], 0) := by
  unfold entered noteLine
  split <;> rfl

theorem line_promptAgain (s : Session) (line : Bytes) : (s.promptAgain line).line = s.line := by
  unfold promptAgain Editor.commit
  split_ifs <;> rfl

theorem line_close (s : Session) : s.close.line = s.line :=
  congrArg (fun v : View => (v.editor.buffer, v.editor.cursor)) (view_close s)

theorem closed_pull {event : Option Input.Event} (h : s.pull = some (event, t)) :
    t.closed = s.closed := by
  obtain ⟨-, decoded, queue, notices, -, -, rfl⟩ := pull_eq_some h
  rfl

theorem stuck_of_pull_eq_none (ho : s.closed = false) (h : s.pull = none) :
    Input.Stuck s.queue.pending := by
  intro decoded count hs
  have hn : s.queue.next = some (decoded, s.queue.consume count) :=
    Input.Queue.next_eq_some_iff.mpr ⟨count, hs, rfl⟩
  unfold pull at h
  rw [if_neg (Bool.eq_false_iff.mp ho), hn] at h
  cases decoded with
  | incomplete => rfl
  | _ => cases h

def Consumes (s t : Session) : Prop :=
  t.queue.pending <:+ s.queue.pending

theorem Steps.consumes (h : Steps s t) : Consumes s t :=
  ⟨[], congrArg Input.Queue.pending h.keeps.1⟩

theorem course_consumes : Course Consumes :=
  .of_steps Steps.consumes fun h hr => hr.trans h

theorem consumes_pull {event : Option Input.Event} (h : s.pull = some (event, t)) :
    Consumes s t := by
  obtain ⟨-, decoded, queue, notices, hn, -, rfl⟩ := pull_eq_some h
  obtain ⟨count, -, rfl⟩ := Input.Queue.next_eq_some_iff.mp hn
  rw [Consumes, Input.Queue.pending_consume]
  exact List.drop_suffix _ _

theorem Changes.chunk_eq (h : Changes s t) : t.chunk = s.chunk := by
  induction h with
  | refl => rfl
  | tail _ hc ih =>
    cases hc with
    | step hs => exact hs.keeps.2.1.trans ih
    | _ => exact ih

end Session

namespace Interpreter

open Session (Apart)

variable {i : Interpreter α σ} {s t : Session}

def Keeps (i : Interpreter α σ) (f : Session → β) : Prop :=
  ∀ path action, i.grammar.Leads path action →
    ∀ parameters s state, f (i.run action parameters s state).1 = f s

theorem kept_execute (hf : Apart f) (hi : i.Keeps f) (command : String) (mode : Mode)
    (s : Session) (state : σ) : f (i.execute command mode s state).1 = f s :=
  course_execute hf.course hi command mode s state

theorem kept_answer (hf : Apart f) (hi : i.Keeps f) (line : Bytes) (mode : Mode) (s : Session)
    (state : σ) : f (i.answer line mode s state).1 = f s :=
  course_answer hf.course hi line mode s state

theorem kept_handle (hf : Apart f) (he : ∀ s editor, f { s with editor } = f s) (hi : i.Keeps f)
    {event : Input.Event} (ht : ∀ verb option, event ≠ .telnet verb option) (s : Session)
    (state : σ) : f (i.handle event s state).1 = f s := by
  have hc (change : Editor.Change) : f (s.edit change) = f s :=
    (hf.present _ _).trans (he s change.1)
  cases event with
  | endOfLine =>
    unfold handle
    rw [completeLine_eq]
    calc _ = _ := hf.promptAgain he _ _
      _ = _ := kept_answer hf hi ..
      _ = _ := hf.entered he s
  | contextHelp =>
    have hs : i.handle .contextHelp s state =
        (s.present (s.briefing i.grammar ++ s.reprompt), state) := contextHelp_eq_present ..
    rw [hs]
    exact hf.present s (s.briefing i.grammar ++ s.reprompt)
  | telnet verb option => exact absurd rfl (ht verb option)
  | _ => exact hc _

theorem keeps_busy (f : Session → β) (grammar : Node α) : (busy grammar).Keeps f :=
  fun _ _ _ _ _ _ => rfl

end Interpreter

theorem Machine.step_promptAgain (grammar : Node (Action H)) {s : Session} (ho : s.closed = false)
    (handler : Option H) (line : Bytes) (rest : List (Frame H)) :
    let t : Session := { s.printPrompt with editor := s.editor.commit line }
    t.line = s.line ∧
      Machine.step grammar ⟨s, handler, .promptAgain line :: rest⟩ = some ⟨t, handler, rest⟩ := by
  intro t
  have ht : s.promptAgain line = t := if_neg (Bool.eq_false_iff.mp ho)
  refine ⟨?_, congrArg (fun t => some (Machine.mk t handler rest)) ht⟩
  rw [← ht, Session.line_promptAgain]

namespace Interpreter

open Machine (Runs holding)
open Session (Apart Consumes apart_closed apart_line course_consumes)

theorem keeps_ofGrammar (hf : Apart f) {grammar : Node (Action H)}
    (hr : ∀ request, allowed request → ∀ s, f ((busy grammar).perform request s ()).1 = f s)
    (hg : grammar.Within allowed) : (ofGrammar grammar).Keeps f :=
  follows_ofGrammar hf.course hr hg

section

variable {i : Interpreter α σ} {s t : Session}

theorem closed_handle (hi : i.Keeps Session.closed) (event : Input.Event) (s : Session)
    (state : σ) : (i.handle event s state).1.closed = s.closed := by
  by_cases ht : ∃ verb option, event = .telnet verb option
  · obtain ⟨verb, option, rfl⟩ := ht
    unfold handle negotiate
    dsimp only
    split <;> rfl
  · exact kept_handle apart_closed (fun _ _ => rfl) hi (fun verb option h => ht ⟨verb, option, h⟩) s
      state

theorem closed_drain (hi : i.Keeps Session.closed) (fuel : Nat) (s : Session) (state : σ) :
    (i.drain fuel s state).1.closed = s.closed :=
  course_drain apart_closed.course Session.closed_pull (closed_handle hi) fuel s state

theorem pull_drain (ht : i.Thrifty) {fuel : Nat} {s : Session} (state : σ)
    (hf : s.backlog ≤ fuel) : (i.drain fuel s state).1.pull = none := by
  induction fuel generalizing s state with
  | zero => exact Session.pull_of_backlog_eq_zero (Nat.le_zero.mp hf)
  | succ fuel ih =>
    cases hp : s.pull with
    | none =>
      rw [drain_of_pull_eq_none hp]
      exact hp
    | some found =>
      obtain ⟨event, t⟩ := found
      have hl := Session.backlog_pull_lt hp
      cases event with
      | none =>
        rw [drain_of_pull_skip hp]
        exact ih state (by omega)
      | some event =>
        have hh := backlog_handle_le ht event t state
        rw [drain_of_pull_event hp]
        exact ih _ (by omega)

theorem closed_readable_iff (hi : i.Keeps Session.closed) (ho : s.closed = false)
    {c : InputChannel} (hin : s.input = some c) (state : σ) :
    (i.readable s state).1.closed = true ↔
      (c.read s.chunk).1 = .ok [] ∨ ∃ reason, (c.read s.chunk).1 = .error reason := by
  rw [readable_eq, Session.intake_of_open ho hin]
  match hr : (c.read s.chunk).1 with
  | .ok [] => simp [Session.absorb, Session.closed_close]
  | .error reason => simp [Session.absorb, Session.closed_close]
  | .ok (byte :: bytes) =>
    have hd : (i.processInput
        { s with input := some (c.read s.chunk).2, queue := s.queue.extend (byte :: bytes) }
          state).1.closed = false := (closed_drain hi ..).trans ho
    simp [Session.absorb, hd]

theorem stuck_readable (ht : i.Thrifty) (ho : s.closed = false) {c : InputChannel}
    (hin : s.input = some c) (state : σ) (h : (i.readable s state).1.closed = false) :
    Input.Stuck (i.readable s state).1.queue.pending := by
  apply Session.stuck_of_pull_eq_none h
  rw [readable_eq]
  split
  · exact pull_drain ht state (Nat.le_refl _)
  · rename_i hn
    rw [readable_eq, if_neg hn] at h
    rw [Session.intake_of_open ho hin] at h hn
    match hr : (c.read s.chunk).1 with
    | .ok [] => simp [hr, Session.absorb, Session.closed_close] at h
    | .error reason => simp [hr, Session.absorb, Session.closed_close] at h
    | .ok (byte :: bytes) => simp [hr, Session.absorb] at hn

end

theorem closed_perform (grammar : Node α) {request : Request} (hr : request.lasting = true)
    (s : Session) : ((busy grammar).perform request s ()).1.closed = s.closed := by
  cases request with
  | execute line mode => exact kept_execute apart_closed (keeps_busy _ grammar) line mode s ()
  | processInput => exact closed_drain (keeps_busy _ grammar) _ s ()
  | readable => cases hr
  | close => cases hr
  | _ => rfl

theorem line_perform (grammar : Node α) {request : Request} (hr : request.reenters = false)
    (s : Session) : ((busy grammar).perform request s ()).1.line = s.line := by
  cases request with
  | execute line mode => exact kept_execute apart_line (keeps_busy _ grammar) line mode s ()
  | processInput => cases hr
  | readable => cases hr
  | close => exact s.line_close
  | _ => rfl

theorem consumes_drain {i : Interpreter α σ} (hi : i.Follows Consumes) (fuel : Nat) (s : Session)
    (state : σ) : Consumes s (i.drain fuel s state).1 :=
  course_drain course_consumes Session.consumes_pull
    (course_handle course_consumes Session.Steps.consumes hi) fuel s state

theorem consumes_perform (grammar : Node α) {request : Request} (hr : request.lasting = true)
    (s : Session) : Consumes s ((busy grammar).perform request s ()).1 := by
  have hb := follows_busy course_consumes grammar
  cases request with
  | execute line mode => exact course_execute course_consumes hb line mode s ()
  | processInput => exact consumes_drain hb _ s ()
  | readable => cases hr
  | close => cases hr
  | _ => exact course_consumes.refl s

theorem keeps_closed {grammar : Node (Action H)}
    (hg : grammar.Within fun request => request.lasting = true) :
    (ofGrammar grammar).Keeps Session.closed :=
  keeps_ofGrammar apart_closed (fun _ hr => closed_perform grammar hr) hg

theorem keeps_line {grammar : Node (Action H)}
    (hg : grammar.Within fun request => request.reenters = false) :
    (ofGrammar grammar).Keeps Session.line :=
  keeps_ofGrammar apart_line (fun _ hr => line_perform grammar hr) hg

theorem follows_consumes {grammar : Node (Action H)}
    (hg : grammar.Within fun request => request.lasting = true) :
    (ofGrammar grammar).Follows Consumes :=
  follows_ofGrammar course_consumes (fun _ hr => consumes_perform grammar hr) hg

theorem runs_line {i : Interpreter (Action H) σ} {held : σ → Option H} (hc : i.CarriedOut held)
    (hi : i.Keeps Session.closed) (hq : i.Follows Consumes) {P : Prop}
    (hw : P → i.Keeps Session.line ∧ i.Outward) {s t : Session}
    (hp : s.pull = some (some .endOfLine, t)) (state : σ) (frames : List (Frame H)) :
    ∃ (u : Session) (left : Option H),
      let v : Session := { u.printPrompt with editor := u.editor.commit t.editor.buffer }
      Runs i.grammar (holding held (s, state) (.drain :: frames))
        ⟨u, left, .promptAgain t.editor.buffer :: .drain :: frames⟩ ∧
      Machine.step i.grammar ⟨u, left, .promptAgain t.editor.buffer :: .drain :: frames⟩ =
        some ⟨v, left, .drain :: frames⟩ ∧
      v.closed = false ∧ v.queue.pending <:+ t.queue.pending ∧
      (P → v.editor.buffer = [] ∧ v.editor.cursor = 0 ∧ v.queue = t.queue) := by
  let r := i.answer t.editor.buffer .execute t.entered state
  have he := Session.steps_entered t
  have ho : r.1.closed = false :=
    calc r.1.closed = t.entered.closed := kept_answer apart_closed hi ..
      _ = t.closed := apart_closed.entered (fun _ _ => rfl) t
      _ = s.closed := Session.closed_pull hp
      _ = false := (Session.pull_eq_some hp).1
  have hn : Consumes t r.1 :=
    course_consumes.trans he.consumes (course_answer course_consumes hq ..)
  obtain ⟨hv, hs⟩ := Machine.step_promptAgain i.grammar ho (held r.2) t.editor.buffer
    (.drain :: frames)
  refine ⟨r.1, held r.2, ?_, hs, ho, hn, fun h => ?_⟩
  · refine .head ?_ (runs_answer hc t.editor.buffer .execute t.entered state
      (.promptAgain t.editor.buffer :: .drain :: frames))
    simp only [Machine.step, holding, Machine.drain, hp, Machine.handle]
  · have hr : Session.Steps t r.1 := he.trans (course_answer Session.course_steps (hw h).2 ..)
    have hl : r.1.line = ([], 0) := (kept_answer apart_line (hw h).1 ..).trans t.line_entered
    obtain ⟨hb, hc⟩ := Prod.mk.inj (hv.trans hl)
    exact ⟨hb, hc, hr.keeps.1⟩

end Interpreter

namespace Machine

variable {grammar : Node (Action H)} {m : Machine H}

theorem exists_handler_of_idle {s : Session} {handler : H}
    (hm : Moments grammar ⟨s, some handler, []⟩ m) (hf : m.frames = []) :
    ∃ free, m.handler = some free := by
  have hn := holders_moments hm rfl
  apply Option.ne_none_iff_exists'.mp
  intro hh
  simp [holders, running, hf, hh] at hn

/-- Unless an action closes it or reads for it, a session is closed by the end of its input or a
failed read and by nothing else: every line leads back to a prompt and to what was typed next. -/
theorem endures (hg : grammar.Within fun request => request.lasting = true) (id : Nat)
    (e : Endpoint) (name : String) (options : Session.Options) (handler : H)
    (hm : Moments grammar ⟨.start id e name options, some handler, []⟩ m) (hf : m.frames = [])
    (ho : m.session.closed = false) :
    (∃ c free, m.session.input = some c ∧ m.handler = some free ∧
      let found := (c.read (max options.readChunkSize 1)).1
      let r := (Interpreter.ofGrammar grammar).readable m.session free
      Runs grammar { m with frames := [.call .readable] } ⟨r.1, some r.2, []⟩ ∧
        (r.1.closed = true ↔ found = .ok [] ∨ ∃ reason, found = .error reason) ∧
        (r.1.closed = false → Input.Stuck r.1.queue.pending)) ∧
    ∀ n rest t, n.frames = .drain :: rest → n.session.pull = some (some .endOfLine, t) →
      ∃ (u : Session) (left : Option H),
        let v : Session := { u.printPrompt with editor := u.editor.commit t.editor.buffer }
        Runs grammar n ⟨u, left, .promptAgain t.editor.buffer :: .drain :: rest⟩ ∧
        step grammar ⟨u, left, .promptAgain t.editor.buffer :: .drain :: rest⟩ =
          some ⟨v, left, .drain :: rest⟩ ∧
        v.closed = false ∧ v.queue.pending <:+ t.queue.pending ∧
        (grammar.Within (fun request => request.reenters = false) →
          v.editor.buffer = [] ∧ v.editor.cursor = 0 ∧ v.queue = t.queue) := by
  constructor
  · have hs := hm.changes
    obtain ⟨c, hin, -⟩ := ((Session.accountable_start id e name options).changes hs).input ho
    obtain ⟨free, hh⟩ := exists_handler_of_idle hm hf
    have hk : m.session.chunk = max options.readChunkSize 1 := by
      obtain ⟨_, _, -, hs'⟩ := Session.start_eq id e name options
      rw [hs.chunk_eq, hs']
    refine ⟨c, free, hin, hh, ?_, ?_, ?_⟩
    · rw [hh]
      exact Interpreter.runs_ofGrammar grammar .readable m.session free []
    · rw [← hk]
      exact Interpreter.closed_readable_iff (Interpreter.keeps_closed hg) ho hin free
    · exact Interpreter.stuck_readable (Interpreter.thrifty_ofGrammar grammar) ho hin free
  · rintro ⟨s, handler, frames⟩ rest t rfl hp
    -- inside an action the line is answered by a session that finds the handler busy
    cases handler with
    | none =>
      exact Interpreter.runs_line (Interpreter.carriedOut_busy grammar)
        (Interpreter.keeps_busy _ grammar)
        (Interpreter.follows_busy Session.course_consumes grammar)
        (fun _ => ⟨Interpreter.keeps_busy _ grammar, Interpreter.outward_busy grammar⟩) hp () rest
    | some handler =>
      exact Interpreter.runs_line (Interpreter.carriedOut_ofGrammar grammar)
        (Interpreter.keeps_closed hg) (Interpreter.follows_consumes hg)
        (fun hw => ⟨Interpreter.keeps_line hw, Interpreter.outward_ofGrammar hw⟩) hp handler rest

end Machine

namespace Script

open Machine (Moments Runs)

def brittle : Node (Action Ledger) :=
  .ofList [(.ofText "b", .action (action "b" [.fail (.because ["boom"])]))]

theorem within_brittle (hp : ∀ message, allowed (.print message)) : brittle.Within allowed := by
  apply Node.within_ofList
  rw [List.forall_mem_singleton]
  exact within_action hp (by simp) _

def stubborn : Endpoint where
  connection := .network
  input := { handle := 4, arrivals := [.data (Text.utf8 "b\rb")] }
  output := { handle := 9 }
  peer := "10.0.0.7:4000"

def unread : Session :=
  .start 1 stubborn "rift" { readChunkSize := 0 }

def read (p : Session × Ledger) : Session × Ledger :=
  (Interpreter.ofGrammar brittle).perform .readable p.1 p.2

/-- The session with a command and CR typed. What CR means is open until the next byte is read. -/
def typing : Session × Ledger :=
  read (read (unread, {}))

theorem endures_stubborn :
    (brittle.Within fun request => request.lasting = true) ∧
      Moments brittle ⟨unread, some {}, []⟩ ⟨typing.1, some typing.2, []⟩ ∧
      (∃ (u : Session) (left : Option Ledger),
        let v : Session := { u.printPrompt with editor := u.editor.commit [0x62] }
        Runs brittle ⟨typing.1.intake.1, some typing.2, [.drain]⟩
          ⟨u, left, [.promptAgain [0x62], .drain]⟩ ∧
        Machine.step brittle ⟨u, left, [.promptAgain [0x62], .drain]⟩ =
          some ⟨v, left, [.drain]⟩ ∧
        v.closed = false ∧ v.editor.buffer = [] ∧ v.queue.pending = [0x62]) ∧
      let r := read typing
      r.1.closed = false ∧ Input.Stuck r.1.queue.pending ∧ r.1.editor.buffer = [0x62] ∧
        r.1.written =
          Session.announcements ++ Text.utf8 "rift> Command failed: boom\nrift> " := by
  have hg : brittle.Within fun request => request.lasting = true :=
    within_brittle fun _ => rfl
  have hw : brittle.Within fun request => request.reenters = false :=
    within_brittle fun _ => rfl
  have hm : Moments brittle ⟨unread, some {}, []⟩ ⟨typing.1, some typing.2, []⟩ :=
    (Machine.moments_perform rfl rfl .readable).trans (Machine.moments_perform rfl rfl .readable)
  have ho : typing.1.closed = false := by decide +kernel
  obtain ⟨⟨c, free, hc, hh, -, hi, hs⟩, hl⟩ := Machine.endures hg 1 stubborn "rift" _ {} hm rfl ho
  obtain rfl := Option.some.inj hh
  have hr : typing.1.input.map (fun c => (c.read 1).1) = some (.ok [0x62]) := by decide +kernel
  have hr : (c.read 1).1 = .ok [0x62] := by
    rw [hc] at hr
    exact Option.some.inj hr
  have hopen := hi.not.mpr (by simp [hr])
  rw [Bool.not_eq_true] at hopen
  have hq : typing.1.intake.1.queue.next =
      some (.event .endOfLine, typing.1.intake.1.queue.consume 1) := by decide +kernel
  have hp : typing.1.intake.1.pull = some (some .endOfLine,
      { typing.1.intake.1 with queue := typing.1.intake.1.queue.consume 1 }) := by
    have hn : typing.1.intake.1.closed = false := by decide +kernel
    simp only [Session.pull, hn, hq]
    rfl
  have hb : typing.1.intake.1.editor.buffer = [0x62] := by decide +kernel
  have ha : (typing.1.intake.1.queue.consume 1).pending = [0x62] := by decide +kernel
  obtain ⟨u, left, hu, hv, hn, -, he⟩ := hl ⟨_, some typing.2, [.drain]⟩ [] _ rfl hp
  dsimp only at hu hv hn he
  rw [hb] at hu hv he
  obtain ⟨he, -, ht⟩ := he hw
  refine ⟨hg, hm, ⟨u, left, hu, hv, hn, he, ?_⟩, hopen, hs hopen, by decide +kernel,
    by decide +kernel⟩
  exact (congrArg Input.Queue.pending ht).trans ha

end Script

end Vty
