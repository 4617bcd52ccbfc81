import Vty.Proofs.Display.Output
import Vty.Proofs.Session.Steps

namespace Vty

open Display (Command)
open Grammar (Mode Node Parameters)

structure Display.Working (d : Display) : Prop where
  terminal : d.policy.connection = .terminal
  attached : d.attached = true
  reliable : d.output.Reliable

namespace Display

theorem Working.echoing {d : Display} (h : d.Working) : d.Echoing :=
  ⟨h.attached, h.reliable, by rw [mustEcho, Policy.mustEcho, h.terminal]⟩

theorem present_working {d : Display} (h : d.Working) (commands : List Command) :
    (d.present commands).1.Working ∧
      (d.present commands).1.written =
        d.written ++ commands.flatMap (Command.encode .terminal) := by
  obtain ⟨he, hw⟩ := h.echoing.present commands
  obtain ⟨output, -, hp⟩ := present_eq d commands
  refine ⟨⟨?_, he.attached, he.reliable⟩, hw⟩
  rw [hp]
  exact h.terminal

end Display

namespace Session

structure Local (s : Session) : Prop where
  connection : s.connection = .terminal
  working : s.display.Working

structure Says (s : Session) (texts : List String) (t : Session) : Prop where
  isLocal : t.Local
  written : t.written =
    s.written ++ (texts.map fun text => Command.text text true).flatMap (Command.encode .terminal)
  buffer : t.editor.buffer = s.editor.buffer
  cursor : t.editor.cursor = s.editor.cursor

variable {s t u : Session}

theorem Local.present (h : s.Local) (commands : List Command) :
    (s.present commands).Local ∧
      (s.present commands).written =
        s.written ++ commands.flatMap (Command.encode .terminal) :=
  have hp := Display.present_working h.working commands
  ⟨⟨h.connection, hp.1⟩, hp.2⟩

theorem Says.refl (h : s.Local) : Says s [] s :=
  ⟨h, (List.append_nil _).symm, rfl, rfl⟩

theorem Says.trans {a b : List String} (h : Says s a t) (h' : Says t b u) :
    Says s (a ++ b) u := by
  refine ⟨h'.isLocal, ?_, h'.buffer.trans h.buffer, h'.cursor.trans h.cursor⟩
  rw [h'.written, h.written, List.map_append, List.flatMap_append, List.append_assoc]

theorem says_printAll (h : s.Local) (texts : List String) : Says s texts (s.printAll texts) :=
  ⟨(h.present _).1, (h.present _).2, rfl, rfl⟩

theorem says_print (h : s.Local) (text : String) : Says s [text] (s.print text) :=
  says_printAll h [text]

theorem says_close (h : s.Local) : Says s [] s.close := by
  unfold close
  split
  · exact .refl h
  · rw [h.connection]
    exact ⟨⟨h.connection, h.working⟩, (List.append_nil _).symm, rfl, rfl⟩

end Session

def Failure.texts : Except Failure Unit → List String
  | .ok () => []
  | .error failure => ["Command failed: " ++ failure.message]

namespace Interpreter

open Session (Says Local)

variable {α σ H : Type}

abbrev Speech (α σ : Type) := α → Parameters → Session → σ → List String

/-- The speech is what the actions of the grammar print, and they print nothing but whole lines. -/
def Speaks (i : Interpreter α σ) (speech : Speech α σ) : Prop :=
  ∀ path action, i.grammar.Leads path action → ∀ parameters s state, Local s →
    Says s (speech action parameters s state) (i.run action parameters s state).1

def commandTexts (i : Interpreter α σ) (speech : Speech α σ) (command : String) (mode : Mode)
    (s : Session) (state : σ) : List String :=
  match i.grammar.parse command mode with
  | .ok .empty => []
  | .ok (.help lines) => lines
  | .ok (.execute action parameters _) =>
    speech action parameters s state ++ Failure.texts (i.run action parameters s state).2.2
  | .error fault => fault.message :: fault.details

def lineTexts (i : Interpreter α σ) (speech : Speech α σ) (line : Bytes) (mode : Mode)
    (s : Session) (state : σ) : List String :=
  match Text.ofUtf8? line with
  | some command => i.commandTexts speech command mode s state
  | none => [undecodable]

theorem says_execute {i : Interpreter α σ} {speech : Speech α σ} (hi : i.Speaks speech)
    (command : String) (mode : Mode) {s : Session} (h : s.Local) (state : σ) :
    Says s (i.commandTexts speech command mode s state) (i.execute command mode s state).1 := by
  unfold commandTexts execute
  cases hp : i.grammar.parse command mode with
  | error fault => exact Session.says_printAll h _
  | ok outcome =>
    cases outcome with
    | empty => exact .refl h
    | help lines => exact Session.says_printAll h _
    | execute action parameters normalized =>
      obtain ⟨path, hl⟩ := Grammar.Node.leads_of_parse hp
      have hr := hi path action hl parameters s state h
      dsimp only
      generalize i.run action parameters s state = outcome at hr
      obtain ⟨t, state', result⟩ := outcome
      cases result with
      | ok => exact hr.trans (.refl hr.isLocal)
      | error failure =>
        have hn : (t.note (.failed t.origin command failure.message)).Local :=
          ⟨hr.isLocal.connection, hr.isLocal.working⟩
        have hf := Session.says_print hn ("Command failed: " ++ failure.message)
        exact hr.trans ⟨hf.isLocal, hf.written, hf.buffer, hf.cursor⟩

theorem says_answer {i : Interpreter α σ} {speech : Speech α σ} (hi : i.Speaks speech)
    (line : Bytes) (mode : Mode) {s : Session} (h : s.Local) (state : σ) :
    Says s (i.lineTexts speech line mode s state) (i.answer line mode s state).1 := by
  unfold lineTexts answer
  cases Text.ofUtf8? line with
  | none => exact Session.says_print h _
  | some command => exact says_execute hi command mode h state

def silent : Speech α σ :=
  fun _ _ _ _ => []

theorem speaks_busy (grammar : Node α) : (busy grammar).Speaks silent :=
  fun _ _ _ _ _ _ h => .refl h

def requestTexts (grammar : Node α) (request : Request) (s : Session) : List String :=
  match request with
  | .print message => [message]
  | .execute line mode => (busy grammar).commandTexts silent line mode s ()
  | _ => []

theorem says_perform (grammar : Node α) {request : Request} (hr : request.lineWise = true)
    {s : Session} (h : s.Local) :
    Says s (requestTexts grammar request s) ((busy grammar).perform request s ()).1 := by
  cases request with
  | print message => exact Session.says_print h message
  | printPrompt => cases hr
  | setName name => exact ⟨⟨h.connection, h.working⟩, (List.append_nil _).symm, rfl, rfl⟩
  | history op => exact ⟨⟨h.connection, h.working⟩, (List.append_nil _).symm, rfl, rfl⟩
  | execute line mode => exact says_execute (speaks_busy grammar) line mode h ()
  | processInput => cases hr
  | readable => cases hr
  | close => exact Session.says_close h

end Interpreter

open Session (Says Local)

def Program.texts {α H : Type} (grammar : Node α) : Program H → Session → List String
  | .finish _ _, _ => []
  | .ask request next, s =>
    let t := ((Interpreter.busy grammar).perform request s ()).1
    Interpreter.requestTexts grammar request s ++ (next t.view).texts grammar t

theorem Program.says_run {α H : Type} (grammar : Node α) {program : Program H}
    (hp : program.Within fun request => request.lineWise = true) {s : Session} (h : s.Local) :
    Says s (program.texts grammar s) (program.run grammar s).1 := by
  induction program generalizing s with
  | finish => exact .refl h
  | ask request next ih =>
    have hr := Interpreter.says_perform grammar hp.1 h
    exact hr.trans (ih _ (hp.2 _) hr.isLocal)

namespace Interpreter

variable {H : Type}

def speech (grammar : Node (Action H)) : Speech (Action H) H :=
  fun action parameters s handler => (action handler s.view parameters).texts grammar s

theorem speaks_ofGrammar {grammar : Node (Action H)}
    (hg : grammar.Within fun request => request.lineWise = true) :
    (ofGrammar grammar).Speaks (speech grammar) :=
  fun path action hl parameters s handler h =>
    Program.says_run grammar (hg path action hl handler s.view parameters) h

end Interpreter

end Vty
