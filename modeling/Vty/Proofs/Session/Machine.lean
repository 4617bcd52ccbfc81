import Vty.Proofs.Session.Backlog

namespace Vty

open Grammar (Mode Node)

variable {H σ : Type}

def Session.obey (s : Session) : Input.Event → Session
  | .telnet verb option => Interpreter.negotiate s verb option
  | .cursorToStart => s.edit s.editor.moveToStart
  | .cursorToEnd => s.edit s.editor.moveToEnd
  | .cursorLeft => s.edit s.editor.moveLeft
  | .cursorRight => s.edit s.editor.moveRight
  | .historyPrevious => s.edit s.editor.historyPrevious
  | .historyNext => s.edit s.editor.historyNext
  | .deleteBeforeCursor => s.edit s.editor.deleteBefore
  | .insert byte => s.edit (s.editor.insert byte)
  | .endOfLine | .contextHelp => s

/-- What is left to do of a call under way. -/
inductive Frame (H : Type) where
  | call (request : Request)
  | drain
  | promptAgain (line : Bytes)
  | showAgain
  | action (command : String) (program : Program H)
  | waiting (command : String) (next : View → Program H)

/-- A session with the calls under way on it, the innermost first. -/
structure Machine (H : Type) where
  session : Session
  handler : Option H
  frames : List (Frame H)

namespace Machine

def execute (grammar : Node (Action H)) (command : String) (mode : Mode) (m : Machine H) :
    Machine H :=
  match grammar.parse command mode with
  | .ok .empty => m
  | .ok (.help lines) => { m with session := m.session.printAll lines }
  | .ok (.execute action parameters _) =>
    match m.handler with
    | some handler =>
      { m with
        handler := none
        frames := .action command (action handler m.session.view parameters) :: m.frames }
    | none => { m with session := Interpreter.reportFailure m.session command .busy }
  | .error fault => { m with session := m.session.printAll (fault.message :: fault.details) }

def answer (line : Bytes) (mode : Mode) (m : Machine H) : Machine H :=
  match Text.ofUtf8? line with
  | some command => { m with frames := .call (.execute command mode) :: m.frames }
  | none => { m with session := m.session.print Interpreter.undecodable }

def readable (m : Machine H) : Machine H :=
  let (session, arrived) := m.session.intake
  { m with session, frames := if arrived then .drain :: m.frames else m.frames }

def call (grammar : Node (Action H)) (request : Request) (m : Machine H) : Machine H :=
  match request with
  | .print message => { m with session := m.session.print message }
  | .printPrompt => { m with session := m.session.printPrompt }
  | .setName name => { m with session := { m.session with name } }
  | .history op =>
    let editor := m.session.editor
    let history := (editor.history.apply op).1
    { m with session := { m.session with editor := { editor with history } } }
  | .execute line mode => m.execute grammar line mode
  | .processInput => { m with frames := .drain :: m.frames }
  | .readable => m.readable
  | .close => { m with session := m.session.close }

def handle (event : Input.Event) (m : Machine H) : Machine H :=
  match event with
  | .endOfLine =>
    let line := m.session.editor.buffer
    answer line .execute
      { m with session := m.session.entered, frames := .promptAgain line :: m.frames }
  | .contextHelp =>
    answer m.session.editor.buffer .help
      { m with session := m.session.print "", frames := .showAgain :: m.frames }
  | event => { m with session := m.session.obey event }

def drain (m : Machine H) : Machine H :=
  match m.session.pull with
  | none => m
  | some (none, session) => { m with session, frames := .drain :: m.frames }
  | some (some event, session) => handle event { m with session, frames := .drain :: m.frames }

def step (grammar : Node (Action H)) (m : Machine H) : Option (Machine H) :=
  match m.frames with
  | [] => none
  | frame :: frames =>
    let m := { m with frames }
    some <|
      match frame with
      | .call request => m.call grammar request
      | .drain => m.drain
      | .promptAgain line => { m with session := m.session.promptAgain line }
      | .showAgain => { m with session := m.session.shownAgain }
      | .action _ (.finish handler (.ok ())) => { m with handler := some handler }
      | .action command (.finish handler (.error failure)) =>
        { m with
          session := Interpreter.reportFailure m.session command failure, handler := some handler }
      | .action command (.ask request next) =>
        { m with frames := .call request :: .waiting command next :: frames }
      | .waiting command next => { m with frames := .action command (next m.session.view) :: frames }

abbrev Runs (grammar : Node (Action H)) : Machine H → Machine H → Prop :=
  Relation.ReflTransGen fun m n => m.step grammar = some n

def holding (held : σ → Option H) (p : Session × σ) (frames : List (Frame H)) : Machine H :=
  ⟨p.1, held p.2, frames⟩

end Machine

namespace Interpreter

open Machine (Runs holding)

variable {i : Interpreter (Action H) σ} {held : σ → Option H}

def CarriedOut (i : Interpreter (Action H) σ) (held : σ → Option H) : Prop :=
  ∀ command mode s state frames,
    Runs i.grammar (holding held (s, state) (.call (.execute command mode) :: frames))
      (holding held (i.execute command mode s state) frames)

theorem runs_answer (hc : i.CarriedOut held) (line : Bytes) (mode : Mode) (s : Session) (state : σ)
    (frames : List (Frame H)) :
    Runs i.grammar (Machine.answer line mode (holding held (s, state) frames))
      (holding held (i.answer line mode s state) frames) := by
  unfold Machine.answer answer
  cases Text.ofUtf8? line with
  | none => exact .refl
  | some command => exact hc command mode s state frames

theorem runs_handle (hc : i.CarriedOut held) (event : Input.Event) (s : Session) (state : σ)
    (frames : List (Frame H)) :
    Runs i.grammar (Machine.handle event (holding held (s, state) frames))
      (holding held (i.handle event s state) frames) := by
  cases event with
  | endOfLine =>
    unfold handle
    rw [completeLine_eq]
    exact (runs_answer hc s.editor.buffer .execute s.entered state _).tail rfl
  | contextHelp =>
    unfold handle
    rw [contextHelp_eq]
    exact (runs_answer hc s.editor.buffer .help (s.print "") state _).tail rfl
  | _ => exact .refl

theorem runs_drain (ht : i.Thrifty) (hc : i.CarriedOut held) {fuel : Nat} {s : Session}
    (state : σ) (frames : List (Frame H)) (hf : s.backlog ≤ fuel) :
    Runs i.grammar (holding held (s, state) (.drain :: frames))
      (holding held (i.drain fuel s state) frames) := by
  induction fuel generalizing s state with
  | zero =>
    have hp := Session.pull_of_backlog_eq_zero (Nat.le_zero.mp hf)
    exact .single (by simp only [Machine.step, holding, Machine.drain, hp, drain])
  | succ fuel ih =>
    cases hp : s.pull with
    | none =>
      rw [drain_of_pull_eq_none hp]
      exact .single (by simp only [Machine.step, holding, Machine.drain, hp])
    | some found =>
      obtain ⟨event, t⟩ := found
      have hl := Session.backlog_pull_lt hp
      cases event with
      | none =>
        rw [drain_of_pull_skip hp]
        refine .head (b := holding held (t, state) (.drain :: frames)) ?_ (ih state (by omega))
        simp only [Machine.step, holding, Machine.drain, hp]
      | some event =>
        have hh : (i.handle event t state).1.backlog ≤ fuel := by
          have := backlog_handle_le ht event t state
          omega
        rw [drain_of_pull_event hp]
        refine .head (b := Machine.handle event (holding held (t, state) (.drain :: frames))) ?_
          ((runs_handle hc event t state _).trans (ih _ hh))
        simp only [Machine.step, holding, Machine.drain, hp]

theorem runs_readable (ht : i.Thrifty) (hc : i.CarriedOut held) (s : Session) (state : σ)
    (frames : List (Frame H)) :
    Runs i.grammar (holding held (s, state) (.call .readable :: frames))
      (holding held (i.readable s state) frames) := by
  rw [readable_eq]
  refine .head (b := Machine.readable (holding held (s, state) frames)) rfl ?_
  unfold Machine.readable holding
  dsimp only
  split
  · exact runs_drain ht hc state frames (Nat.le_refl _)
  · exact .refl

theorem runs_perform (ht : i.Thrifty) (hc : i.CarriedOut held) (request : Request) (s : Session)
    (state : σ) (frames : List (Frame H)) :
    Runs i.grammar (holding held (s, state) (.call request :: frames))
      (holding held (i.perform request s state) frames) := by
  cases request with
  | execute line mode => exact hc line mode s state frames
  | processInput => exact .head rfl (runs_drain ht hc state frames (Nat.le_refl _))
  | readable => exact runs_readable ht hc s state frames
  | _ => exact .single rfl

theorem carriedOut_busy (grammar : Node (Action H)) :
    (busy grammar).CarriedOut fun _ => (none : Option H) := by
  intro command mode s state frames
  refine .single (congrArg some ?_)
  simp only [holding, Machine.call, Machine.execute, execute, busy]
  cases grammar.parse command mode with
  | error fault => rfl
  | ok outcome => cases outcome <;> rfl

end Interpreter

open Machine (Runs holding)

theorem Program.runs (grammar : Node (Action H)) (command : String) (program : Program H)
    (s : Session) (frames : List (Frame H)) :
    Runs grammar ⟨s, none, .action command program :: frames⟩
      ⟨(program.run grammar s).1, none,
        .action command (.finish (program.run grammar s).2.1 (program.run grammar s).2.2) ::
          frames⟩ := by
  induction program generalizing s with
  | finish => exact .refl
  | ask request next ih =>
    have hr := Interpreter.runs_perform (Interpreter.thrifty_busy grammar)
      (Interpreter.carriedOut_busy grammar) request s () (.waiting command next :: frames)
    exact .head rfl (hr.trans (.head rfl (ih _ _)))

namespace Interpreter

theorem carriedOut_ofGrammar (grammar : Node (Action H)) :
    (ofGrammar grammar).CarriedOut some := by
  intro command mode s handler frames
  refine .head (b := Machine.execute grammar command mode (holding some (s, handler) frames)) rfl ?_
  unfold Machine.execute execute
  dsimp only [ofGrammar]
  cases grammar.parse command mode with
  | error fault => exact .refl
  | ok outcome =>
    cases outcome with
    | empty => exact .refl
    | help lines => exact .refl
    | execute action parameters normalized =>
      have hr := (action handler s.view parameters).runs grammar command s frames
      dsimp only [holding]
      generalize (action handler s.view parameters).run grammar s = left at hr
      obtain ⟨t, handler', result⟩ := left
      cases result with
      | ok => exact hr.tail rfl
      | error failure => exact hr.tail rfl

theorem runs_ofGrammar (grammar : Node (Action H)) (request : Request) (s : Session) (handler : H)
    (frames : List (Frame H)) :
    Runs grammar ⟨s, some handler, .call request :: frames⟩
      ⟨((ofGrammar grammar).perform request s handler).1,
        some ((ofGrammar grammar).perform request s handler).2, frames⟩ :=
  runs_perform (thrifty_ofGrammar grammar) (carriedOut_ofGrammar grammar) request s handler frames

end Interpreter

namespace Machine

variable {grammar : Node (Action H)} {m n : Machine H}

/-- What may happen next. Where no call is under way the session may be called, or the handler
changed by what others do with it. -/
inductive Turn (grammar : Node (Action H)) : Machine H → Machine H → Prop
  | work {m n : Machine H} (h : m.step grammar = some n) : Turn grammar m n
  | arrive (m : Machine H) (arrival : Arrival) :
      Turn grammar m { m with session := m.session.receive arrival }
  | call {m : Machine H} (h : m.frames = []) (request : Request) :
      Turn grammar m { m with frames := [.call request] }
  | share {m : Machine H} (h : m.frames = []) (free : m.handler.isSome) (handler : H) :
      Turn grammar m { m with handler := some handler }

abbrev Moments (grammar : Node (Action H)) : Machine H → Machine H → Prop :=
  Relation.ReflTransGen (Turn grammar)

theorem Runs.moments (h : Runs grammar m n) : Moments grammar m n :=
  Relation.ReflTransGen.mono (fun _ _ => .work) _ _ h

theorem moments_perform {handler : H} (h : m.frames = []) (hh : m.handler = some handler)
    (request : Request) :
    Moments grammar m
      ⟨((Interpreter.ofGrammar grammar).perform request m.session handler).1,
        some ((Interpreter.ofGrammar grammar).perform request m.session handler).2, []⟩ := by
  refine .head (.call h request) (Runs.moments ?_)
  rw [hh]
  exact Interpreter.runs_ofGrammar grammar request m.session handler []

end Machine

end Vty
