import Vty.Proofs.Session.Reading
import Vty.Proofs.Session.Speech

namespace Vty

open Display (Command)
open Grammar (Node)
open Terminal (Printable Plain)

namespace Session

def prompt (s : Session) : Bytes :=
  Text.utf8 (s.name ++ "> ")

structure Clean (s : Session) : Prop where
  name : Printable (Text.utf8 s.name)
  history : ∀ line ∈ s.editor.history.entries, Printable line

def Screen (base : Bytes) (s : Session) (terminal : Terminal) : Prop :=
  ∃ sent, s.written = base ++ sent ∧ Terminal.run {} sent = terminal

structure InStep (base : Bytes) (s : Session) : Prop where
  isLocal : s.Local
  tidy : s.editor.Tidy
  screen : Screen base s (.onLine s.prompt s.editor.buffer s.editor.cursor)

variable {base : Bytes} {s t : Session} {terminal : Terminal}

theorem Clean.printable_prompt (h : s.Clean) : Printable s.prompt := by
  rw [prompt, Text.utf8_append]
  exact h.name.append (by decide)

theorem Screen.present (h : Screen base s terminal) (hl : s.Local) (commands : List Command) :
    Screen base (s.present commands) (terminal.perform commands) := by
  obtain ⟨sent, hw, hr⟩ := h
  refine ⟨sent ++ commands.flatMap (Command.encode .terminal), ?_, ?_⟩
  · rw [(hl.present commands).2, hw, List.append_assoc]
  · rw [Terminal.run_append, hr, Terminal.run_encode]

theorem Screen.says {texts : List String} (h : Screen base s (.between [] []))
    (ht : Says s texts t) (hp : ∀ text ∈ texts, Plain (Text.utf8 text)) :
    Screen base t (.between [] []) := by
  obtain ⟨sent, hw, hr⟩ := h
  refine ⟨sent ++ (texts.map (.text · true)).flatMap (Command.encode .terminal), ?_, ?_⟩
  · rw [ht.written, hw, List.append_assoc]
  · rw [Terminal.run_append, hr, Terminal.run_encode, Terminal.perform_texts hp]

theorem Screen.printPrompt (h : Screen base s (.between [] [])) (hl : s.Local)
    (hc : Printable s.prompt) : Screen base s.printPrompt (.onLine s.prompt [] 0) := by
  have hp := h.present hl [.text (s.name ++ "> ") false]
  rw [Terminal.perform_cons, Terminal.obey_prompt hc] at hp
  exact hp

theorem InStep.edit (h : InStep base s) {change : Editor.Change} (hs : s.editor.Shown change) :
    InStep base (s.edit change) := by
  have hl : ({ s with editor := change.1 } : Session).Local :=
    ⟨h.isLocal.connection, h.isLocal.working⟩
  have hp : Screen base ({ s with editor := change.1 } : Session) _ := h.screen
  refine ⟨(hl.present change.2).1, hs.tidy, ?_⟩
  have hr := hp.present hl change.2
  rw [hs.perform] at hr
  exact hr

theorem entered_keeps (s : Session) :
    s.entered.connection = s.connection ∧
      s.entered.display = (s.present [.echo [Input.cr, Input.lf]]).display ∧
      s.entered.editor = s.editor.takeLine.2 := by
  unfold entered noteLine
  split <;> exact ⟨rfl, rfl, rfl⟩

theorem Screen.entered {left right : Bytes} (h : Screen base s (.between left right))
    (hl : s.Local) : s.entered.Local ∧ Screen base s.entered (.between [] []) := by
  obtain ⟨hc, hd, -⟩ := entered_keeps s
  have hp := h.present hl [.echo [Input.cr, Input.lf]]
  refine ⟨⟨hc.trans hl.connection, hd ▸ (hl.present _).1.working⟩, ?_⟩
  rw [Screen, written, hd]
  exact hp

theorem promptAgain_keeps (s : Session) (line : Bytes) :
    (s.promptAgain line).closed = s.closed ∧ (s.promptAgain line).prompt = s.prompt := by
  unfold promptAgain
  split <;> exact ⟨rfl, rfl⟩

theorem InStep.promptAgain (hl : s.Local) (h : Screen base s (.between [] []))
    (hb : s.editor.buffer = []) (hn : s.editor.cursor = 0) (line : Bytes)
    (hc : Printable s.prompt) (ho : s.closed = false) : InStep base (s.promptAgain line) := by
  have he : (s.editor.commit line).buffer = [] ∧ (s.editor.commit line).cursor = 0 := by
    unfold Editor.commit
    split <;> exact ⟨hb, hn⟩
  have hp : Screen base s.printPrompt
      (.onLine s.prompt (s.editor.commit line).buffer (s.editor.commit line).cursor) := by
    rw [he.1, he.2]
    exact h.printPrompt hl hc
  have ht : s.promptAgain line = { s.printPrompt with editor := s.editor.commit line } :=
    if_neg (Bool.eq_false_iff.mp ho)
  have hw : s.printPrompt.Local := (hl.present _).1
  rw [ht]
  refine ⟨⟨hw.connection, hw.working⟩, ⟨?_, ?_⟩, hp⟩
  · exact he.2.trans_le (Nat.zero_le _)
  · exact he.1.symm ▸ Terminal.printable_nil

theorem InStep.shownAgain (hl : s.Local) (h : Screen base s (.between [] []))
    (ht : s.editor.Tidy) (hc : Printable s.prompt) : InStep base s.shownAgain := by
  have hp := (h.printPrompt hl hc).present (hl.present _).1 s.editor.redraw
  rw [ht.perform_redraw] at hp
  exact ⟨((hl.present _).1.present _).1, ht, hp⟩

theorem InStep.negotiate (h : InStep base s) (verb : Telnet.Verb) (code : UInt8) :
    InStep base (Interpreter.negotiate s verb code) := by
  have hs (feature : Telnet.Feature) (on : Bool) :
      InStep base (Interpreter.negotiate.set verb s feature on) := by
    have hw := h.isLocal.working
    exact ⟨⟨h.isLocal.connection, ⟨hw.terminal, hw.attached, hw.reliable⟩⟩, h.tidy, h.screen⟩
  unfold Interpreter.negotiate
  split
  · exact hs _ _
  · exact hs _ _
  · exact h

end Session

def Input.Event.Clean : Input.Event → Prop
  | .insert byte => Terminal.isControl byte = false
  | _ => True

namespace Interpreter

open Session (InStep Screen)

variable {α σ H : Type} {i : Interpreter α σ} {speech : Speech α σ} {base : Bytes}

def eventTexts (i : Interpreter α σ) (speech : Speech α σ) (event : Input.Event) (s : Session)
    (state : σ) : List String :=
  match event with
  | .endOfLine => i.lineTexts speech s.editor.buffer .execute s.entered state
  | .contextHelp => i.lineTexts speech s.editor.buffer .help (s.print "") state
  | _ => []

/-- Nothing that the session shows while it handles the events has a control byte in it, but for
the ends of lines in printed texts. -/
def CleanRun (i : Interpreter α σ) (speech : Speech α σ) : List Input.Event → Session → σ → Prop
  | [], s, _ => s.closed = false → s.Clean
  | event :: rest, s, state => s.closed = false →
      s.Clean ∧ event.Clean ∧
        (∀ text ∈ i.eventTexts speech event s state, Plain (Text.utf8 text)) ∧
        i.CleanRun speech rest (i.handle event s state).1 (i.handle event s state).2

instance (s : Session) : Decidable s.Clean :=
  decidable_of_iff (Printable (Text.utf8 s.name) ∧
    ∀ line ∈ s.editor.history.entries, Printable line)
    ⟨fun h => ⟨h.1, h.2⟩, fun h => ⟨h.name, h.history⟩⟩

instance : (event : Input.Event) → Decidable event.Clean
  | .insert byte => inferInstanceAs (Decidable (Terminal.isControl byte = false))
  | .endOfLine | .cursorToStart | .cursorToEnd | .cursorLeft | .cursorRight | .historyPrevious
  | .historyNext | .deleteBeforeCursor | .contextHelp | .telnet _ _ => .isTrue trivial

instance decidableCleanRun :
    (events : List Input.Event) → (s : Session) → (state : σ) →
      Decidable (i.CleanRun speech events s state)
  | [], s, _ => inferInstanceAs (Decidable (s.closed = false → s.Clean))
  | event :: rest, s, state =>
    have := decidableCleanRun rest (i.handle event s state).1 (i.handle event s state).2
    inferInstanceAs (Decidable (s.closed = false → s.Clean ∧ event.Clean ∧
      (∀ text ∈ i.eventTexts speech event s state, Plain (Text.utf8 text)) ∧
      i.CleanRun speech rest (i.handle event s state).1 (i.handle event s state).2))

theorem CleanRun.clean {events : List Input.Event} {s : Session} {state : σ}
    (h : i.CleanRun speech events s state) (ho : s.closed = false) : s.Clean := by
  cases events with
  | nil => exact h ho
  | cons event rest => exact (h ho).1

theorem completeLine_inStep (hi : i.Speaks speech) {s : Session} (h : InStep base s) (state : σ)
    (hp : ∀ text ∈ i.eventTexts speech .endOfLine s state, Plain (Text.utf8 text))
    (ho : (i.completeLine s state).1.closed = false) (hc : (i.completeLine s state).1.Clean) :
    InStep base (i.completeLine s state).1 := by
  obtain ⟨hl, he⟩ := h.screen.entered h.isLocal
  have hs := says_answer hi s.editor.buffer .execute hl state
  have hr := he.says hs hp
  have hk := (Session.entered_keeps s).2.2
  have hb : s.entered.editor.buffer = [] := by rw [hk]; rfl
  have hn : s.entered.editor.cursor = 0 := by rw [hk]; rfl
  rw [completeLine_eq] at ho hc ⊢
  obtain ⟨hclosed, hprompt⟩ := Session.promptAgain_keeps
    (i.answer s.editor.buffer .execute s.entered state).1 s.editor.buffer
  exact .promptAgain hs.isLocal hr (hs.buffer.trans hb) (hs.cursor.trans hn) _
    (hprompt ▸ hc.printable_prompt) (hclosed.symm.trans ho)

theorem contextHelp_inStep (hi : i.Speaks speech) {s : Session} (h : InStep base s) (state : σ)
    (hp : ∀ text ∈ i.eventTexts speech .contextHelp s state, Plain (Text.utf8 text))
    (hc : (i.contextHelp s state).1.Clean) : InStep base (i.contextHelp s state).1 := by
  have hl : (s.print "").Local := (h.isLocal.present _).1
  have he : Screen base (s.print "") (.between [] []) := by
    have hb : Plain (Text.utf8 "") := by decide
    have hx := h.screen.present h.isLocal [.text "" true]
    rw [Terminal.onLine, Terminal.perform_cons, Terminal.obey_text hb] at hx
    exact hx
  have hs := says_answer hi s.editor.buffer .help hl state
  have hr := he.says hs hp
  have ht : (i.answer s.editor.buffer .help (s.print "") state).1.editor.Tidy :=
    ⟨hs.cursor.symm ▸ hs.buffer.symm ▸ h.tidy.cursor_le, hs.buffer.symm ▸ h.tidy.printable⟩
  rw [contextHelp_eq] at hc ⊢
  exact .shownAgain hs.isLocal hr ht hc.printable_prompt

theorem handle_inStep (hi : i.Speaks speech) {s : Session} (h : InStep base s) (state : σ)
    (event : Input.Event) (hs : s.Clean) (he : event.Clean)
    (hp : ∀ text ∈ i.eventTexts speech event s state, Plain (Text.utf8 text))
    (ho : (i.handle event s state).1.closed = false) (hc : (i.handle event s state).1.Clean) :
    InStep base (i.handle event s state).1 := by
  cases event with
  | endOfLine => exact completeLine_inStep hi h state hp ho hc
  | contextHelp => exact contextHelp_inStep hi h state hp hc
  | telnet verb option => exact h.negotiate verb option
  | cursorToStart => exact h.edit (Editor.shown_moveToStart h.tidy)
  | cursorToEnd => exact h.edit (Editor.shown_moveToEnd h.tidy)
  | cursorLeft => exact h.edit (Editor.shown_moveLeft h.tidy)
  | cursorRight => exact h.edit (Editor.shown_moveRight h.tidy)
  | historyPrevious => exact h.edit (Editor.shown_historyPrevious h.tidy hs.history)
  | historyNext => exact h.edit (Editor.shown_historyNext h.tidy hs.history)
  | deleteBeforeCursor => exact h.edit (Editor.shown_deleteBefore h.tidy)
  | insert byte => exact h.edit (Editor.shown_insert h.tidy he)

theorem handleAll_inStep (hi : i.Speaks speech) (events : List Input.Event) {s : Session}
    (state : σ) (h : InStep base s) (hc : i.CleanRun speech events s state)
    (ho : (i.handleAll events s state).1.closed = false) :
    InStep base (i.handleAll events s state).1 := by
  induction events generalizing s state with
  | nil => exact h
  | cons event events ih =>
    have hs := open_of_handleAll ho
    rw [handleAll, if_neg (Bool.eq_false_iff.mp hs)] at ho ⊢
    obtain ⟨hclean, he, hp, hrest⟩ := hc hs
    have ht := open_of_handleAll ho
    exact ih _ (handle_inStep hi h state event hclean he hp ht (hrest.clean ht)) hrest ho

end Interpreter

open Session (InStep Screen)

theorem Session.start_inStep (id : Nat) (input : InputChannel) {output : OutputChannel}
    (ho : output.Reliable) (name : String) (options : Session.Options)
    (hc : (Session.start id (.terminal input output) name options).Clean) :
    InStep output.written (Session.start id (.terminal input output) name options) := by
  obtain ⟨blank, hs, hl, hb, he⟩ : ∃ blank : Session,
      Session.start id (.terminal input output) name options = blank.printPrompt ∧ blank.Local ∧
        Screen output.written blank (.between [] []) ∧
        blank.editor = .ofLimit options.historyLimit :=
    ⟨_, rfl, ⟨rfl, rfl, rfl, ho⟩, ⟨[], (List.append_nil _).symm, rfl⟩, rfl⟩
  have hp := hb.printPrompt hl (hs ▸ hc).printable_prompt
  rw [hs]
  have hline : blank.printPrompt.editor.buffer = [] ∧ blank.printPrompt.editor.cursor = 0 := by
    rw [show blank.printPrompt.editor = blank.editor from rfl, he]
    exact ⟨rfl, rfl⟩
  refine ⟨(hl.present _).1, ⟨?_, ?_⟩, ?_⟩
  · exact hline.2.trans_le (Nat.zero_le _)
  · exact hline.1.symm ▸ Terminal.printable_nil
  · rw [hline.1, hline.2]
    exact hp

namespace Interpreter

variable {H : Type}

theorem deliver_inStep {grammar : Node (Action H)}
    (hg : grammar.Within fun request => request.lineWise = true) {base : Bytes} {s : Session}
    (h : InStep base s) (hin : s.input.isSome) (hq : s.queue.pending = []) (handler : H)
    {offers : List (List Arrival)} {reads : List Bytes} (hr : s.Reads offers reads)
    (hc : (ofGrammar grammar).CleanRun (speech grammar) (Input.events reads.flatten) s handler)
    (hopen : ((ofGrammar grammar).deliver offers s handler).1.closed = false) :
    InStep base ((ofGrammar grammar).deliver offers s handler).1 := by
  have hn := hg.mono fun _ => Request.reenters_of_lineWise
  have hout := outward_ofGrammar hn
  have huni := uniform_ofGrammar hn
  have hb := nil_notMem_of_open hout huni handler hr hin hopen
  have hs : Input.Stuck s.queue.pending := hq ▸ Input.stuck_nil
  obtain ⟨⟨ha, -⟩, -⟩ := deliver_agree hout huni handler (.refl s) hr (fun _ => hin) hb fun _ => hs
  rw [hq, List.nil_append] at ha
  have hrun := handleAll_inStep (speaks_ofGrammar hg) _ handler h hc (ha.closed_eq.symm.trans hopen)
  obtain ⟨_, _, _, -, he⟩ := ha.symm
  rw [he]
  exact ⟨⟨hrun.isLocal.connection, hrun.isLocal.working⟩, hrun.tidy, hrun.screen⟩

/-- Whatever is typed at a terminal, its row shows the prompt and the line, with the cursor where
the next byte will go. -/
theorem deliver_screen {grammar : Node (Action H)}
    (hg : grammar.Within fun request => request.lineWise = true) (id : Nat) (input : InputChannel)
    {output : OutputChannel} (ho : output.Reliable) (name : String) (options : Session.Options)
    (handler : H) {offers : List (List Arrival)} {reads : List Bytes}
    (hr : (Session.start id (.terminal input output) name options).Reads offers reads)
    (hc : (ofGrammar grammar).CleanRun (speech grammar) (Input.events reads.flatten)
      (.start id (.terminal input output) name options) handler) :
    let r := (ofGrammar grammar).deliver offers
      (.start id (.terminal input output) name options) handler
    r.1.closed = false →
      ∃ sent, r.1.written = output.written ++ sent ∧
        Terminal.run {} sent =
          { row := r.1.prompt ++ r.1.editor.buffer
            column := r.1.prompt.length + r.1.editor.cursor
            mode := .ground } := by
  intro r hopen
  have hs := Session.start_inStep id input ho name options (hc.clean rfl)
  have hd := deliver_inStep hg hs rfl rfl handler hr hc hopen
  obtain ⟨sent, hw, ht⟩ := hd.screen
  exact ⟨sent, hw, ht.trans (Terminal.onLine_eq _ hd.tidy.cursor_le)⟩

end Interpreter

namespace Daemon

def keys : List Bytes :=
  [[0x73, 0x65, 0x74, 0x20, 0x6E, 0x61, 0x6D, 0x65, 0x20, 0x62, 0x0D],
    [0x0A, 0x65, 0x63, 0x3F, 0x1B], [0x5B, 0x41, 0x1B, 0x5B, 0x44, 0x7A]]

theorem deliver_screen_keys :
    (grammar.Within fun request => request.lineWise = true) ∧
      OutputChannel.Reliable { handle := 1 } ∧
      typed.Reads (keys.map fun bytes => [.data bytes]) keys ∧
      (Interpreter.ofGrammar grammar).CleanRun (Interpreter.speech grammar)
        (Input.events keys.flatten) typed {} ∧
      let r := (Interpreter.ofGrammar grammar).deliver (keys.map fun bytes => [.data bytes]) typed {}
      r.1.closed = false ∧
        ∃ sent, r.1.written = sent ∧
          Terminal.run {} sent =
            { row := Text.utf8 "b> set name zb", column := 13, mode := .ground } := by
  have hg : grammar.Within fun request => request.lineWise = true :=
    within_grammar (fun _ => rfl) (fun _ => rfl) rfl rfl
  have ho : OutputChannel.Reliable { handle := 1 } := fun _ _ offered h => ⟨offered, h, rfl⟩
  have hr : typed.Reads (keys.map fun bytes => [.data bytes]) keys := by
    rintro c ⟨⟩
    rfl
  have hc : (Interpreter.ofGrammar grammar).CleanRun (Interpreter.speech grammar)
      (Input.events keys.flatten) typed {} := by decide +kernel
  have hopen : ((Interpreter.ofGrammar grammar).deliver (keys.map fun bytes => [.data bytes])
      typed {}).1.closed = false := by decide +kernel
  refine ⟨hg, ho, hr, hc, hopen, ?_⟩
  obtain ⟨sent, hw, ht⟩ :=
    Interpreter.deliver_screen hg 1 { handle := 0 } ho "rift" {} {} hr hc hopen
  refine ⟨sent, hw, ht.trans ?_⟩
  decide +kernel

end Daemon

end Vty
