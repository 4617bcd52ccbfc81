import Vty.Proofs.Editor.Alphabet
import Vty.Proofs.Session.Machine

namespace Vty

open Grammar (Mode Node)

variable {H : Type} {P : UInt8 → Prop} {I : Display → Prop}

/-- Kept by all that is shown of lines over the alphabet `P`. -/
structure Display.Upheld (P : UInt8 → Prop) (I : Display → Prop) : Prop where
  literal {b : UInt8} (h : Input.Literal b) : P b
  present {d : Display} (h : I d) {commands : List Display.Command}
    (hc : ∀ command ∈ commands, command.Over P) : I (d.present commands).1
  feature {d : Display} (h : I d) (feature : Telnet.Feature) (on : Bool) :
    I (d.setFeature feature on)
  detach {d : Display} (h : I d) : I { d with attached := false }

def Request.Over (P : UInt8 → Prop) : Request → Prop
  | .history op => op.Over P
  | _ => True

def Frame.Over (P : UInt8 → Prop) : Frame H → Prop
  | .call request => request.Over P
  | .promptAgain line => Bytes.Over P line
  | .action _ program => program.Within (Request.Over P)
  | .waiting _ next => ∀ view, (next view).Within (Request.Over P)
  | .drain | .showAgain => True

namespace Session

structure Upholds (P : UInt8 → Prop) (I : Display → Prop) (s : Session) : Prop where
  editor : s.editor.Over P
  display : I s.display

variable {s t : Session}

theorem Upholds.present (hI : Display.Upheld P I) (h : s.Upholds P I)
    {commands : List Display.Command} (hc : ∀ command ∈ commands, command.Over P) :
    (s.present commands).Upholds P I :=
  ⟨h.editor, hI.present h.display hc⟩

theorem Upholds.printAll (hI : Display.Upheld P I) (h : s.Upholds P I) (messages : List String) :
    (s.printAll messages).Upholds P I := by
  apply h.present hI
  rw [List.forall_mem_map]
  exact fun _ _ => trivial

theorem Upholds.print (hI : Display.Upheld P I) (h : s.Upholds P I) (message : String) :
    (s.print message).Upholds P I :=
  h.printAll hI [message]

theorem Upholds.printPrompt (hI : Display.Upheld P I) (h : s.Upholds P I) :
    s.printPrompt.Upholds P I :=
  h.present hI (by simp [Display.Command.Over])

theorem Upholds.edit (hI : Display.Upheld P I) (h : s.Upholds P I) {change : Editor.Change}
    (hc : change.Over P) : (s.edit change).Upholds P I :=
  ⟨hc.editor, hI.present h.display hc.commands⟩

theorem Upholds.close (hI : Display.Upheld P I) (h : s.Upholds P I) : s.close.Upholds P I := by
  by_cases hc : s.closed = true
  · rw [close_of_closed hc]
    exact h
  · obtain ⟨notices, hs⟩ := close_of_open (Bool.eq_false_iff.mpr hc)
    rw [hs]
    cases s.connection with
    | terminal => exact ⟨h.editor, h.display⟩
    | network => exact ⟨h.editor, hI.detach h.display⟩

theorem Upholds.reportFailure (hI : Display.Upheld P I) (h : s.Upholds P I) (command : String)
    (failure : Failure) : (Interpreter.reportFailure s command failure).Upholds P I :=
  have hn : (s.note (.failed s.origin command failure.message)).Upholds P I :=
    ⟨h.editor, h.display⟩
  hn.print hI _

theorem Upholds.entered (hI : Display.Upheld P I) (h : s.Upholds P I) :
    s.entered.Upholds P I := by
  have hp : (s.present [.echo [Input.cr, Input.lf]]).Upholds P I :=
    h.present hI (by simp [Display.Command.Over, Input.cr, Input.lf])
  unfold Session.entered noteLine
  split <;> exact ⟨h.editor.takeLine, hp.display⟩

theorem Upholds.promptAgain (hI : Display.Upheld P I) (h : s.Upholds P I) {line : Bytes}
    (hl : Bytes.Over P line) : (s.promptAgain line).Upholds P I := by
  unfold Session.promptAgain
  split
  · exact h
  · exact ⟨h.editor.commit hl, (h.printPrompt hI).display⟩

theorem Upholds.shownAgain (hI : Display.Upheld P I) (h : s.Upholds P I) :
    s.shownAgain.Upholds P I :=
  have hp := h.printPrompt hI
  hp.present hI hp.editor.redraw

theorem Upholds.negotiate (hI : Display.Upheld P I) (h : s.Upholds P I) (verb : Telnet.Verb)
    (code : UInt8) : (Interpreter.negotiate s verb code).Upholds P I := by
  have hs (feature : Telnet.Feature) (on : Bool) :
      (Interpreter.negotiate.set verb s feature on).Upholds P I :=
    ⟨h.editor, hI.feature h.display feature on⟩
  unfold Interpreter.negotiate
  split
  · exact hs _ _
  · exact hs _ _
  · exact h

theorem Upholds.obey (hI : Display.Upheld P I) (h : s.Upholds P I) {event : Input.Event}
    (he : ∀ b, event = .insert b → P b) : (s.obey event).Upholds P I := by
  have hs (cursor : Nat) (command : Display.Command) (hc : command.Over P) :
      (s.edit ({ s.editor with cursor }, [command])).Upholds P I :=
    h.edit hI (h.editor.quiet cursor hc)
  cases event with
  | endOfLine => exact h
  | contextHelp => exact h
  | telnet verb option => exact h.negotiate hI verb option
  | cursorToStart => exact hs _ _ trivial
  | cursorToEnd => exact hs _ _ trivial
  | cursorLeft => exact h.edit hI h.editor.moveLeft
  | cursorRight => exact h.edit hI h.editor.moveRight
  | historyPrevious => exact h.edit hI h.editor.historyPrevious
  | historyNext => exact h.edit hI h.editor.historyNext
  | deleteBeforeCursor => exact h.edit hI h.editor.deleteBefore
  | insert byte => exact h.edit hI (h.editor.insert (he byte rfl))

theorem Upholds.pull (hI : Display.Upheld P I) (h : s.Upholds P I) {event : Option Input.Event}
    (hp : s.pull = some (event, t)) :
    t.Upholds P I ∧ ∀ b, event = some (.insert b) → P b := by
  obtain ⟨-, decoded, queue, notices, -, -, rfl⟩ := pull_eq_some hp
  refine ⟨⟨h.editor, h.display⟩, ?_⟩
  rintro b rfl
  obtain ⟨queue', hn, -⟩ := pull_eq_event hp
  obtain ⟨count, hs, -⟩ := Input.Queue.next_eq_some_iff.mp hn
  exact hI.literal (Input.literal_of_scan hs)

theorem Upholds.intake (hI : Display.Upheld P I) (h : s.Upholds P I) :
    s.intake.1.Upholds P I := by
  have ha {t : Session} (ht : t.Upholds P I) (result : Except String Bytes) :
      (t.absorb result).1.Upholds P I := by
    have hn (notice : Notice) : (t.note notice).Upholds P I := ⟨ht.editor, ht.display⟩
    match result with
    | .ok [] => exact (hn _).close hI
    | .ok (byte :: bytes) => exact ⟨ht.editor, ht.display⟩
    | .error reason => exact (hn _).close hI
  by_cases hc : s.closed = true
  · rw [intake_of_closed hc]
    exact h
  · cases hin : s.input with
    | none =>
      rw [intake_of_detached hin]
      exact h
    | some c =>
      rw [intake_of_open (Bool.eq_false_iff.mpr hc) hin]
      exact ha (t := { s with input := some (c.read s.chunk).2 }) ⟨h.editor, h.display⟩ _

end Session

namespace Machine

structure Upholds (P : UInt8 → Prop) (I : Display → Prop) (m : Machine H) : Prop where
  session : m.session.Upholds P I
  frames : ∀ frame ∈ m.frames, frame.Over P

variable {grammar : Node (Action H)} {m n : Machine H}

theorem Upholds.push (h : m.Upholds P I) {s : Session} (hs : s.Upholds P I)
    (handler : Option H) {frame : Frame H} (hf : frame.Over P) :
    Upholds P I ⟨s, handler, frame :: m.frames⟩ :=
  ⟨hs, List.forall_mem_cons.mpr ⟨hf, h.frames⟩⟩

theorem Upholds.execute (hI : Display.Upheld P I) (hg : grammar.Within (Request.Over P))
    (h : m.Upholds P I) (command : String) (mode : Mode) :
    (m.execute grammar command mode).Upholds P I := by
  unfold Machine.execute
  split
  · exact h
  · exact ⟨h.session.printAll hI _, h.frames⟩
  · rename_i action parameters normalized hp
    obtain ⟨path, hl⟩ := Grammar.Node.leads_of_parse hp
    split
    · exact h.push h.session _ (hg path action hl _ _ _)
    · exact ⟨h.session.reportFailure hI _ _, h.frames⟩
  · rename_i fault _
    exact ⟨h.session.printAll hI (fault.message :: fault.details), h.frames⟩

theorem Upholds.answer (hI : Display.Upheld P I) (h : m.Upholds P I) (line : Bytes)
    (mode : Mode) : (answer line mode m).Upholds P I := by
  unfold Machine.answer
  split
  · exact h.push h.session _ trivial
  · exact ⟨h.session.print hI _, h.frames⟩

theorem Upholds.call (hI : Display.Upheld P I) (hg : grammar.Within (Request.Over P))
    (h : m.Upholds P I) {request : Request} (hr : request.Over P) :
    (m.call grammar request).Upholds P I := by
  have hs := h.session
  cases request with
  | print message => exact ⟨hs.print hI message, h.frames⟩
  | printPrompt => exact ⟨hs.printPrompt hI, h.frames⟩
  | setName name => exact ⟨⟨hs.editor, hs.display⟩, h.frames⟩
  | history op => exact ⟨⟨⟨hs.editor.line, hs.editor.history.apply hr⟩, hs.display⟩, h.frames⟩
  | execute line mode => exact h.execute hI hg line mode
  | processInput => exact h.push hs _ trivial
  | readable =>
    refine ⟨hs.intake hI, ?_⟩
    unfold Machine.call readable
    dsimp only
    split
    · exact List.forall_mem_cons.mpr ⟨trivial, h.frames⟩
    · exact h.frames
  | close => exact ⟨hs.close hI, h.frames⟩

theorem Upholds.handle (hI : Display.Upheld P I) (h : m.Upholds P I) {event : Input.Event}
    (he : ∀ b, event = .insert b → P b) : (handle event m).Upholds P I := by
  have ho := h.session.obey hI he
  cases event with
  | endOfLine =>
    have hf : (Frame.promptAgain m.session.editor.buffer : Frame H).Over P := h.session.editor.line
    exact (h.push (h.session.entered hI) m.handler hf).answer hI m.session.editor.buffer .execute
  | contextHelp =>
    have hf : (Frame.showAgain : Frame H).Over P := trivial
    exact (h.push (h.session.print hI "") m.handler hf).answer hI m.session.editor.buffer .help
  | _ => exact ⟨ho, h.frames⟩

theorem Upholds.drain (hI : Display.Upheld P I) (h : m.Upholds P I) : m.drain.Upholds P I := by
  unfold Machine.drain
  cases hp : m.session.pull with
  | none => exact h
  | some found =>
    obtain ⟨event, t⟩ := found
    obtain ⟨ht, hb⟩ := h.session.pull hI hp
    have hf : (Frame.drain : Frame H).Over P := trivial
    have hd := h.push ht m.handler hf
    cases event with
    | none => exact hd
    | some event => exact hd.handle hI fun b he => hb b (congrArg some he)

theorem Upholds.step (hI : Display.Upheld P I) (hg : grammar.Within (Request.Over P))
    (h : m.Upholds P I) (hs : m.step grammar = some n) : n.Upholds P I := by
  obtain ⟨s, handler, frames⟩ := m
  cases frames with
  | nil => cases hs
  | cons frame frames =>
    obtain rfl := Option.some.inj hs
    obtain ⟨hf, hr⟩ := List.forall_mem_cons.mp h.frames
    have hm : Upholds P I (⟨s, handler, frames⟩ : Machine H) := ⟨h.session, hr⟩
    cases frame with
    | call request => exact hm.call hI hg hf
    | drain => exact hm.drain hI
    | promptAgain line => exact ⟨h.session.promptAgain hI hf, hr⟩
    | showAgain => exact ⟨h.session.shownAgain hI, hr⟩
    | action command program =>
      cases program with
      | finish handler result =>
        cases result with
        | ok => exact ⟨h.session, hr⟩
        | error failure => exact ⟨h.session.reportFailure hI command failure, hr⟩
      | ask request next =>
        have hw : (Frame.waiting command next).Over P := hf.2
        exact ⟨h.session, List.forall_mem_cons.mpr ⟨hf.1, List.forall_mem_cons.mpr ⟨hw, hr⟩⟩⟩
    | waiting command next => exact hm.push h.session handler (hf s.view)

structure TurnWithin (allowed : Request → Prop) (grammar : Node (Action H)) (m n : Machine H) :
    Prop where
  turn : Turn grammar m n
  asks (h : m.frames = []) (request : Request) (hn : n.frames = [.call request]) : allowed request

abbrev MomentsWithin (allowed : Request → Prop) (grammar : Node (Action H)) :
    Machine H → Machine H → Prop :=
  Relation.ReflTransGen (TurnWithin allowed grammar)

theorem Runs.momentsWithin (allowed : Request → Prop) (h : Runs grammar m n) :
    MomentsWithin allowed grammar m n := by
  refine Relation.ReflTransGen.mono (fun a b hs => ⟨.work hs, fun hf => ?_⟩) _ _ h
  rw [step, hf] at hs
  cases hs

theorem momentsWithin_perform {allowed : Request → Prop} {handler : H} (h : m.frames = [])
    (hh : m.handler = some handler) {request : Request} (hr : allowed request) :
    MomentsWithin allowed grammar m
      ⟨((Interpreter.ofGrammar grammar).perform request m.session handler).1,
        some ((Interpreter.ofGrammar grammar).perform request m.session handler).2, []⟩ := by
  have ht : TurnWithin allowed grammar m { m with frames := [.call request] } := by
    refine ⟨.call h request, fun _ other hn => ?_⟩
    obtain rfl : request = other := by simpa using hn
    exact hr
  refine .head ht (Runs.momentsWithin allowed ?_)
  rw [hh]
  exact Interpreter.runs_ofGrammar grammar request m.session handler []

theorem Upholds.moments (hI : Display.Upheld P I) (hg : grammar.Within (Request.Over P))
    (h : m.Upholds P I) (hm : MomentsWithin (Request.Over P) grammar m n) : n.Upholds P I := by
  induction hm with
  | refl => exact h
  | tail _ ht ih =>
    obtain ⟨ht, ha⟩ := ht
    cases ht with
    | work hs => exact ih.step hI hg hs
    | arrive arrival => exact ⟨⟨ih.session.editor, ih.session.display⟩, ih.frames⟩
    | call hf request =>
      exact ⟨ih.session, List.forall_mem_singleton.mpr (ha hf request rfl)⟩
    | share => exact ⟨ih.session, ih.frames⟩

end Machine

end Vty
