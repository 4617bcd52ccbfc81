import Vty.Session.Program

namespace Vty

open Grammar (Mode Node Parameters)

/-- Carries out what a session's bytes ask for: a grammar, and how its actions are run over a
state `σ`. -/
structure Interpreter (α σ : Type) where
  grammar : Node α
  run : α → Parameters → Session → σ → Session × σ × Except Failure Unit

namespace Interpreter

variable {α σ : Type}

def undecodable : String :=
  "UTF-8 decode of command failed"

def reportFailure (s : Session) (command : String) (failure : Failure) : Session :=
  (s.note (.failed s.origin command failure.message)).print ("Command failed: " ++ failure.message)

def execute (i : Interpreter α σ) (command : String) (mode : Mode) (s : Session) (state : σ) :
    Session × σ :=
  match i.grammar.parse command mode with
  | .ok .empty => (s, state)
  | .ok (.help lines) => (s.printAll lines, state)
  | .ok (.execute action parameters _) =>
    match i.run action parameters s state with
    | (s, state, .ok ()) => (s, state)
    | (s, state, .error failure) => (reportFailure s command failure, state)
  | .error fault => (s.printAll (fault.message :: fault.details), state)

def completeLine (i : Interpreter α σ) (s : Session) (state : σ) : Session × σ :=
  let s := s.present [.echo [Input.cr, Input.lf]]
  let (line, editor) := s.editor.takeLine
  let s := { s with editor }
  let (s, state) := match Text.ofUtf8? line with
    | some command => i.execute command .execute (s.note (.executing s.origin command)) state
    | none => (s.print undecodable, state)
  if s.closed then (s, state)
  else
    let s := s.printPrompt
    ({ s with editor := s.editor.commit line }, state)

def contextHelp (i : Interpreter α σ) (s : Session) (state : σ) : Session × σ :=
  let s := s.print ""
  let (s, state) := match Text.ofUtf8? s.editor.buffer with
    | some command => i.execute command .help s state
    | none => (s.print undecodable, state)
  let s := s.printPrompt
  (s.present s.editor.redraw, state)

def negotiate (s : Session) (verb : Telnet.Verb) (code : UInt8) : Session :=
  match Telnet.Feature.ofCode? code, verb with
  | some feature, .enable => set s feature true
  | some feature, .disable => set s feature false
  | _, _ => s
where
  set (s : Session) (feature : Telnet.Feature) (on : Bool) : Session :=
    let s := s.note (.negotiated s.origin verb feature)
    { s with display := s.display.setFeature feature on }

def handle (i : Interpreter α σ) (event : Input.Event) (s : Session) (state : σ) : Session × σ :=
  match event with
  | .endOfLine => i.completeLine s state
  | .contextHelp => i.contextHelp s state
  | .telnet verb option => (negotiate s verb option, state)
  | .cursorToStart => (s.edit s.editor.moveToStart, state)
  | .cursorToEnd => (s.edit s.editor.moveToEnd, state)
  | .cursorLeft => (s.edit s.editor.moveLeft, state)
  | .cursorRight => (s.edit s.editor.moveRight, state)
  | .historyPrevious => (s.edit s.editor.historyPrevious, state)
  | .historyNext => (s.edit s.editor.historyNext, state)
  | .deleteBeforeCursor => (s.edit s.editor.deleteBefore, state)
  | .insert byte => (s.edit (s.editor.insert byte), state)

def drain (i : Interpreter α σ) : (fuel : Nat) → Session → σ → Session × σ
  | 0, s, state => (s, state)
  | fuel + 1, s, state =>
    if s.closed then (s, state)
    else
      match s.queue.next with
      | none | some (.incomplete, _) => (s, state)
      | some (.event event, queue) =>
        let (s, state) := i.handle event { s with queue } state
        i.drain fuel s state
      | some (decoded, queue) =>
        i.drain fuel { s with queue, notices := s.notices ++ decoded.notice?.toList } state

/-- Handles all that can be decoded. Each step takes a byte at least off the backlog, so there are
no more steps than bytes. -/
def processInput (i : Interpreter α σ) (s : Session) (state : σ) : Session × σ :=
  i.drain s.backlog s state

def readable (i : Interpreter α σ) (s : Session) (state : σ) : Session × σ :=
  match s.closed, s.input with
  | false, some input =>
    match input.read s.chunk with
    | (.ok [], input) =>
      let s := { s with input := some input }
      ((s.note (.endOfInput s.origin)).close, state)
    | (.ok bytes, input) =>
      i.processInput { s with input := some input, queue := s.queue.extend bytes } state
    | (.error reason, input) =>
      let s := { s with input := some input }
      ((s.note (.readFailed s.origin reason)).close, state)
  | _, _ => (s, state)

def readAll (i : Interpreter α σ) : (fuel : Nat) → Session → σ → Session × σ
  | 0, s, state => (s, state)
  | fuel + 1, s, state =>
    if s.closed || !s.hasArrivals then (s, state)
    else
      let (s, state) := i.readable s state
      i.readAll fuel s state

def perform (i : Interpreter α σ) (request : Request) (s : Session) (state : σ) : Session × σ :=
  match request with
  | .print message => (s.print message, state)
  | .printPrompt => (s.printPrompt, state)
  | .setName name => ({ s with name }, state)
  | .history op => ({ s with editor := { s.editor with history := (s.editor.history.apply op).1 } }, state)
  | .execute line mode => i.execute line mode s state
  | .processInput => i.processInput s state
  | .readable => i.readable s state
  | .close => (s.close, state)

/-- While an action is at work no other one is started. -/
def busy (grammar : Node α) : Interpreter α Unit where
  grammar
  run _ _ s state := (s, state, .error .busy)

end Interpreter

/-- Runs a program to its end. The handler is its own meanwhile, so whatever it asks of its session
finds the handler busy. -/
def Program.run {α H : Type} (grammar : Node α) :
    Program H → Session → Session × H × Except Failure Unit
  | .finish handler result, s => (s, handler, result)
  | .ask request next, s =>
    let (s, ()) := (Interpreter.busy grammar).perform request s ()
    (next s.view).run grammar s

def Interpreter.ofGrammar {H : Type} (grammar : Node (Action H)) : Interpreter (Action H) H where
  grammar
  run action parameters s handler := (action handler s.view parameters).run grammar s

end Vty
