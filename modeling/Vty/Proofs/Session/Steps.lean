import Vty.Proofs.Grammar.Derivation
import Vty.Proofs.Session.Within
import Vty.Session.Interpreter
import Mathlib.Logic.Relation

namespace Vty

open Grammar (Mode Node Parameters)

namespace Session

def noteLine (s : Session) (line : Bytes) : Session :=
  match Text.ofUtf8? line with
  | some command => s.note (.executing s.origin command)
  | none => s

def entered (s : Session) : Session :=
  noteLine { s.present [.echo [Input.cr, Input.lf]] with editor := s.editor.takeLine.2 }
    s.editor.buffer

def promptAgain (s : Session) (line : Bytes) : Session :=
  if s.closed then s else { s.printPrompt with editor := s.editor.commit line }

def shownAgain (s : Session) : Session :=
  s.printPrompt.present s.printPrompt.editor.redraw

/-- A change of a session that takes nothing from its input. -/
inductive Step : Session → Session → Prop
  | present (s : Session) (commands : List Display.Command) : Step s (s.present commands)
  | note (s : Session) (notice : Notice) : Step s (s.note notice)
  | rename (s : Session) (name : String) : Step s { s with name }
  | edit (s : Session) (editor : Editor) : Step s { s with editor }
  | feature (s : Session) (feature : Telnet.Feature) (on : Bool) :
      Step s { s with display := s.display.setFeature feature on }
  | close (s : Session) : Step s s.close

abbrev Steps : Session → Session → Prop :=
  Relation.ReflTransGen Step

theorem noteRelease_eq (s : Session) (handle : Int) (result : Except String Unit) :
    ∃ notices, s.noteRelease handle result = { s with notices } := by
  cases result with
  | ok => exact ⟨s.notices, rfl⟩
  | error reason => exact ⟨_, rfl⟩

theorem release_eq (s : Session) :
    ∃ notices, s.release =
      { s with
        input := none
        display := { s.display with attached := false }
        notices
        effects := s.effects ++ ((s.input.map InputChannel.handle).map .inputReleased).toList ++
          if s.input.map InputChannel.handle = some s.display.output.handle then []
          else [.outputReleased s.display.output.handle] } := by
  let detached : Session := { s with input := none, display := { s.display with attached := false } }
  -- the output goes on its own unless it went with the input
  have hr (t : Session) : ∃ notices,
      (if s.input.map InputChannel.handle = some s.display.output.handle then t
        else (t.emit (.outputReleased s.display.output.handle)).noteRelease
          s.display.output.handle s.display.output.release) =
      { t with
        notices
        effects := t.effects ++
          if s.input.map InputChannel.handle = some s.display.output.handle then []
          else [.outputReleased s.display.output.handle] } := by
    split
    · exact ⟨t.notices, by simp⟩
    · exact noteRelease_eq ..
  cases hi : s.input with
  | none =>
    obtain ⟨notices, ht⟩ := hr detached
    refine ⟨notices, ?_⟩
    rw [hi] at ht
    unfold release
    simp only [hi]
    exact ht.trans (by simp [detached])
  | some c =>
    obtain ⟨first, hc⟩ :=
      noteRelease_eq (detached.emit (.inputReleased c.handle)) c.handle c.release
    obtain ⟨notices, ht⟩ := hr ((detached.emit (.inputReleased c.handle)).noteRelease c.handle
      c.release)
    refine ⟨notices, ?_⟩
    rw [hi] at ht
    unfold release
    simp only [hi]
    refine ht.trans ?_
    rw [hc]
    simp [detached, emit]

theorem close_of_closed {s : Session} (h : s.closed = true) : s.close = s :=
  if_pos h

theorem close_of_open {s : Session} (h : s.closed = false) :
    ∃ notices, s.close =
      match s.connection with
      | .terminal =>
        { s with
          closed := true
          notices
          effects := s.effects ++ [.unregistered s.id, .terminalClosed] }
      | .network =>
        { s with
          input := none
          display := { s.display with attached := false }
          closed := true
          notices
          effects := s.effects ++ .unregistered s.id ::
            (((s.input.map InputChannel.handle).map .inputReleased).toList ++
              if s.input.map InputChannel.handle = some s.display.output.handle then []
              else [.outputReleased s.display.output.handle]) } := by
  unfold close
  rw [if_neg (Bool.eq_false_iff.mp h)]
  cases hc : s.connection with
  | terminal => exact ⟨_, by simp only [emit, note, hc, List.append_assoc]; rfl⟩
  | network =>
    obtain ⟨notices, hr⟩ := release_eq
      ({ s.note (.closed s.origin) with closed := true }.emit (.unregistered s.id))
    refine ⟨notices, hr.trans ?_⟩
    simp only [emit, note, hc, List.append_assoc, List.cons_append, List.nil_append]

theorem close_keeps (s : Session) : s.close.queue = s.queue ∧ s.close.chunk = s.chunk := by
  by_cases h : s.closed = true
  · rw [close_of_closed h]
    exact ⟨rfl, rfl⟩
  · obtain ⟨notices, hc⟩ := close_of_open (Bool.eq_false_iff.mpr h)
    rw [hc]
    cases s.connection <;> exact ⟨rfl, rfl⟩

theorem closed_close (s : Session) : s.close.closed = true := by
  by_cases h : s.closed = true
  · rw [close_of_closed h, h]
  · obtain ⟨notices, hc⟩ := close_of_open (Bool.eq_false_iff.mpr h)
    rw [hc]
    cases s.connection <;> rfl

theorem view_close (s : Session) : s.close.view = { s.view with closed := true } := by
  by_cases h : s.closed = true
  · rw [close_of_closed h, ← h]
    rfl
  · obtain ⟨notices, hc⟩ := close_of_open (Bool.eq_false_iff.mpr h)
    rw [hc]
    unfold view
    cases s.connection <;> rfl

theorem written_close (s : Session) : s.close.written = s.written := by
  by_cases hc : s.closed = true
  · rw [close_of_closed hc]
  · obtain ⟨notices, hs⟩ := close_of_open (Bool.eq_false_iff.mpr hc)
    rw [hs]
    cases s.connection <;> rfl

theorem Step.keeps {s t : Session} (h : Step s t) :
    t.queue = s.queue ∧ t.chunk = s.chunk ∧
      (t.closed = false → s.closed = false ∧ t.input = s.input) := by
  cases h with
  | close =>
    refine ⟨(close_keeps s).1, (close_keeps s).2, ?_⟩
    rw [closed_close]
    exact nofun
  | _ => exact ⟨rfl, rfl, fun h => ⟨h, rfl⟩⟩

theorem Steps.keeps {s t : Session} (h : Steps s t) :
    t.queue = s.queue ∧ t.chunk = s.chunk ∧
      (t.closed = false → s.closed = false ∧ t.input = s.input) := by
  induction h with
  | refl => exact ⟨rfl, rfl, fun h => ⟨h, rfl⟩⟩
  | tail _ hs ih =>
    have hk := hs.keeps
    refine ⟨hk.1.trans ih.1, hk.2.1.trans ih.2.1, fun ho => ?_⟩
    have ht := hk.2.2 ho
    exact ⟨(ih.2.2 ht.1).1, ht.2.trans (ih.2.2 ht.1).2⟩

theorem steps_present (s : Session) (commands : List Display.Command) :
    Steps s (s.present commands) :=
  .single (.present s commands)

theorem steps_print (s : Session) (message : String) : Steps s (s.print message) :=
  steps_present s _

theorem steps_printAll (s : Session) (messages : List String) : Steps s (s.printAll messages) :=
  steps_present s _

theorem steps_printPrompt (s : Session) : Steps s s.printPrompt :=
  steps_present s _

theorem steps_entered (s : Session) : Steps s s.entered := by
  have he : Steps s
      { s.present [.echo [Input.cr, Input.lf]] with editor := s.editor.takeLine.2 } :=
    .tail (steps_present ..) (.edit _ _)
  unfold entered noteLine
  split
  · exact he.tail (.note _ _)
  · exact he

theorem steps_promptAgain (s : Session) (line : Bytes) : Steps s (s.promptAgain line) := by
  unfold promptAgain
  split
  · exact .refl
  · exact .tail (steps_printPrompt s) (.edit _ _)

theorem steps_shownAgain (s : Session) : Steps s s.shownAgain :=
  .tail (steps_printPrompt s) (.present _ _)

theorem steps_edit (s : Session) (change : Editor.Change) : Steps s (s.edit change) :=
  .head (.edit s change.1) (steps_present ..)

/-- A relation that takes in all that is shown and noticed, one thing after another. -/
structure Course (R : Session → Session → Prop) : Prop where
  refl (s : Session) : R s s
  trans {s t u : Session} (h : R s t) (hr : R t u) : R s u
  present (s : Session) (commands : List Display.Command) : R s (s.present commands)
  note (s : Session) (notice : Notice) : R s (s.note notice)

theorem Course.of_steps {R : Session → Session → Prop}
    (hs : ∀ {s t : Session}, Steps s t → R s t)
    (ht : ∀ {s t u : Session}, R s t → R t u → R s u) : Course R :=
  ⟨fun _ => hs .refl, ht, fun s commands => hs (steps_present s commands),
    fun s notice => hs (.single (.note s notice))⟩

theorem Course.print {R : Session → Session → Prop} (hR : Course R) (s : Session)
    (message : String) : R s (s.print message) :=
  hR.present s _

theorem Course.printAll {R : Session → Session → Prop} (hR : Course R) (s : Session)
    (messages : List String) : R s (s.printAll messages) :=
  hR.present s _

theorem course_steps : Course Steps :=
  .of_steps (fun h => h) .trans

end Session

namespace Interpreter

variable {α σ : Type}

open Session (Course Step Steps)

def answer (i : Interpreter α σ) (line : Bytes) (mode : Mode) (s : Session) (state : σ) :
    Session × σ :=
  match Text.ofUtf8? line with
  | some command => i.execute command mode s state
  | none => (s.print undecodable, state)

theorem answer_noteLine (i : Interpreter α σ) (line : Bytes) (s : Session) (state : σ) :
    i.answer line .execute (s.noteLine line) state =
      match Text.ofUtf8? line with
      | some command => i.execute command .execute (s.note (.executing s.origin command)) state
      | none => (s.print undecodable, state) := by
  unfold answer Session.noteLine
  cases Text.ofUtf8? line <;> rfl

theorem completeLine_eq (i : Interpreter α σ) (s : Session) (state : σ) :
    i.completeLine s state =
      ((i.answer s.editor.buffer .execute s.entered state).1.promptAgain s.editor.buffer,
        (i.answer s.editor.buffer .execute s.entered state).2) := by
  have hr (r : Session × σ) : (if r.1.closed then (r.1, r.2) else
      ({ r.1.printPrompt with editor := r.1.printPrompt.editor.commit s.editor.buffer }, r.2)) =
      (r.1.promptAgain s.editor.buffer, r.2) := by
    unfold Session.promptAgain
    split <;> rfl
  rw [← hr, Session.entered, answer_noteLine]
  rfl

theorem contextHelp_eq (i : Interpreter α σ) (s : Session) (state : σ) :
    i.contextHelp s state =
      ((i.answer s.editor.buffer .help (s.print "") state).1.shownAgain,
        (i.answer s.editor.buffer .help (s.print "") state).2) :=
  rfl

theorem steps_reportFailure (s : Session) (command : String) (failure : Failure) :
    Steps s (reportFailure s command failure) :=
  .head (.note s _) (Session.steps_print ..)

section

variable {i : Interpreter α σ} {R : Session → Session → Prop}

def Follows (i : Interpreter α σ) (R : Session → Session → Prop) : Prop :=
  ∀ path action, i.grammar.Leads path action →
    ∀ parameters s state, R s (i.run action parameters s state).1

theorem course_execute (hR : Course R) (hi : i.Follows R) (command : String) (mode : Mode)
    (s : Session) (state : σ) : R s (i.execute command mode s state).1 := by
  unfold execute
  split
  · exact hR.refl s
  · exact hR.printAll s _
  · rename_i action parameters normalized hp
    obtain ⟨path, hl⟩ := Grammar.Node.leads_of_parse hp
    have hr := hi path action hl parameters s state
    split
    · rename_i hrun
      rw [hrun] at hr
      exact hr
    · rename_i hrun
      rw [hrun] at hr
      exact hR.trans hr (hR.trans (hR.note _ _) (hR.print _ _))
  · rename_i fault _
    exact hR.printAll s (fault.message :: fault.details)

theorem course_answer (hR : Course R) (hi : i.Follows R) (line : Bytes) (mode : Mode) (s : Session)
    (state : σ) : R s (i.answer line mode s state).1 := by
  unfold answer
  split
  · exact course_execute hR hi ..
  · exact hR.print s _

end

def Outward (i : Interpreter α σ) : Prop :=
  ∀ path action, i.grammar.Leads path action →
    ∀ parameters s state, Steps s (i.run action parameters s state).1

theorem steps_perform {i : Interpreter α σ} (hi : i.Outward) {request : Request}
    (hr : request.reenters = false) (s : Session) (state : σ) :
    Steps s (i.perform request s state).1 := by
  cases request with
  | print message => exact Session.steps_print ..
  | printPrompt => exact Session.steps_printPrompt ..
  | setName name => exact .single (.rename s name)
  | history op => exact .single (.edit s _)
  | execute line mode => exact course_execute Session.course_steps hi ..
  | processInput => cases hr
  | readable => cases hr
  | close => exact .single (.close s)

theorem outward_busy (grammar : Node α) : (busy grammar).Outward :=
  fun _ _ _ _ _ _ => .refl

end Interpreter

open Session (Course Step Steps)

theorem Program.course_run {α H : Type} {grammar : Node α} {R : Session → Session → Prop}
    {allowed : Request → Prop} (hR : Course R)
    (hr : ∀ request, allowed request → ∀ s,
      R s ((Interpreter.busy grammar).perform request s ()).1)
    {program : Program H} (hp : program.Within allowed) (s : Session) :
    R s (program.run grammar s).1 := by
  induction program generalizing s with
  | finish => exact hR.refl s
  | ask request next ih => exact hR.trans (hr request hp.1 s) (ih _ (hp.2 _) _)

namespace Interpreter

variable {α σ H : Type} {R : Session → Session → Prop} {allowed : Request → Prop}

theorem follows_busy (hR : Course R) (grammar : Node α) : (busy grammar).Follows R :=
  fun _ _ _ _ s _ => hR.refl s

theorem follows_ofGrammar (hR : Course R) {grammar : Node (Action H)}
    (hr : ∀ request, allowed request → ∀ s, R s ((busy grammar).perform request s ()).1)
    (hg : grammar.Within allowed) : (ofGrammar grammar).Follows R :=
  fun path action hl parameters s handler =>
    Program.course_run hR hr (hg path action hl handler s.view parameters) s

theorem outward_ofGrammar {grammar : Node (Action H)}
    (hg : grammar.Within fun request => request.reenters = false) : (ofGrammar grammar).Outward :=
  follows_ofGrammar Session.course_steps (fun _ hr s => steps_perform (outward_busy grammar) hr s ())
    hg

theorem steps_negotiate (s : Session) (verb : Telnet.Verb) (code : UInt8) :
    Steps s (negotiate s verb code) := by
  have hs (feature : Telnet.Feature) (on : Bool) : Steps s (negotiate.set verb s feature on) :=
    .tail (.single (.note s _)) (.feature _ feature on)
  unfold negotiate
  split
  · exact hs _ _
  · exact hs _ _
  · exact .refl

theorem course_handle {i : Interpreter α σ} (hR : Course R)
    (hs : ∀ {s t : Session}, Steps s t → R s t) (hi : i.Follows R) (event : Input.Event)
    (s : Session) (state : σ) : R s (i.handle event s state).1 := by
  cases event with
  | endOfLine =>
    unfold handle
    rw [completeLine_eq]
    exact hR.trans (hs (Session.steps_entered s))
      (hR.trans (course_answer hR hi ..) (hs (Session.steps_promptAgain ..)))
  | contextHelp =>
    unfold handle
    rw [contextHelp_eq]
    exact hR.trans (hs (Session.steps_print ..))
      (hR.trans (course_answer hR hi ..) (hs (Session.steps_shownAgain _)))
  | telnet verb option => exact hs (steps_negotiate ..)
  | _ => exact hs (Session.steps_edit ..)

theorem steps_handle {i : Interpreter α σ} (hi : i.Outward) (event : Input.Event) (s : Session)
    (state : σ) : Steps s (i.handle event s state).1 :=
  course_handle Session.course_steps (fun h => h) hi event s state

end Interpreter

end Vty
