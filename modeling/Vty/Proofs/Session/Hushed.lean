import Vty.Proofs.Session.Delivery
import Vty.Proofs.Session.Twins
import Vty.Proofs.Session.Voice

namespace Vty

open Display (Command)
open Grammar (Mode Node)

namespace Interpreter

variable {α σ H : Type} {base : Bytes} {i : Interpreter α σ}
  {performance : Voice.Performance α σ} {s : Session} {v : Voice}

def Heard (base : Bytes) (p : Session × σ) (q : Voice × σ) : Prop :=
  Hushed base p.1 q.1 ∧ p.2 = q.2

def Voiced (base : Bytes) (i : Interpreter α σ) (performance : Voice.Performance α σ) : Prop :=
  ∀ path action, i.grammar.Leads path action → ∀ parameters s v state, Hushed base s v →
    Heard base (i.run action parameters s state) (performance action parameters v state)

theorem hushed_execute (hi : i.Voiced base performance) (h : Hushed base s v) (command : String)
    (mode : Mode) (state : σ) :
    Heard base (i.execute command mode s state)
      (Voice.execute i.grammar performance command mode v state) := by
  unfold execute Voice.execute
  cases hp : i.grammar.parse command mode with
  | error fault => exact ⟨h.printAll (fault.message :: fault.details), rfl⟩
  | ok outcome =>
    cases outcome with
    | empty => exact ⟨h, rfl⟩
    | help lines => exact ⟨h.printAll lines, rfl⟩
    | execute action parameters normalized =>
      obtain ⟨path, hl⟩ := Grammar.Node.leads_of_parse hp
      have hr := hi path action hl parameters s v state h
      dsimp only
      generalize i.run action parameters s state = outcome at hr
      generalize performance action parameters v state = heard at hr
      obtain ⟨t, state', result⟩ := outcome
      obtain ⟨w, _, _⟩ := heard
      obtain ⟨ht, rfl, rfl⟩ : Hushed base t w ∧ state' = _ ∧ result = _ :=
        ⟨hr.1, Prod.mk.inj hr.2⟩
      cases result with
      | ok =>
        refine ⟨?_, rfl⟩
        rw [Voice.printAll, Failure.texts, List.flatMap_nil, Voice.say_nil]
        exact ht
      | error failure =>
        have hn := ht.note (.failed t.origin command failure.message)
        exact ⟨hn.printAll ["Command failed: " ++ failure.message], rfl⟩

theorem hushed_completeLine (hi : i.Voiced base performance) (h : Hushed base s v) (state : σ) :
    Heard base (i.completeLine s state)
      (Voice.complete i.grammar performance s.editor.buffer v state) := by
  rw [completeLine_eq]
  unfold answer Voice.complete
  cases Text.ofUtf8? s.editor.buffer with
  | none => exact ⟨(h.entered.printAll [undecodable]).promptAgain s.editor.buffer, rfl⟩
  | some command =>
    have he := hushed_execute hi h.entered command .execute state
    exact ⟨he.1.promptAgain s.editor.buffer, he.2⟩

theorem hushed_handle (hi : i.Voiced base performance) (h : Hushed base s v)
    {event : Input.Event} (hq : event.Quiet) (state : σ) :
    Heard base (i.handle event s state)
      (if event = .endOfLine then Voice.complete i.grammar performance s.editor.buffer v state
        else (v, state)) := by
  have ht {change : Editor.Change} (hc : ∀ command ∈ change.2, command.Typing) :
      Heard base (s.edit change, state) (v, state) := ⟨h.edit hc, rfl⟩
  cases event with
  | endOfLine => exact hushed_completeLine hi h state
  | contextHelp => exact absurd rfl hq.1
  | telnet verb code => exact ⟨h.negotiate hq, rfl⟩
  | cursorToStart => exact ht (by simp [Editor.moveToStart, Command.Typing])
  | cursorToEnd => exact ht (by simp [Editor.moveToEnd, Command.Typing])
  | cursorLeft => exact ht s.editor.typing_moveLeft
  | cursorRight => exact ht s.editor.typing_moveRight
  | historyPrevious => exact ht (Editor.typing_follow _ _)
  | historyNext => exact ht (Editor.typing_follow _ _)
  | deleteBeforeCursor => exact ht s.editor.typing_deleteBefore
  | insert byte => exact ht (s.editor.typing_insert byte)

def trace (i : Interpreter α σ) : List Input.Event → Session → σ → List (Input.Event × Bytes)
  | [], _, _ => []
  | event :: rest, s, state =>
    if s.closed then []
    else
      (event, s.editor.buffer) ::
        i.trace rest (i.handle event s state).1 (i.handle event s state).2

def completed (i : Interpreter α σ) (events : List Input.Event) (s : Session) (state : σ) :
    List Bytes :=
  ((i.trace events s state).filter fun handled => handled.1 = .endOfLine).map Prod.snd

theorem completed_of_closed (hc : s.closed = true) (events : List Input.Event) (state : σ) :
    i.completed events s state = [] := by
  cases events <;> simp [completed, trace, hc]

theorem completed_append (before after : List Input.Event) (s : Session) (state : σ) :
    i.completed (before ++ after) s state =
      i.completed before s state ++
        i.completed after (i.handleAll before s state).1 (i.handleAll before s state).2 := by
  induction before generalizing s state with
  | nil => rfl
  | cons event before ih =>
    by_cases hc : s.closed = true
    · rw [completed_of_closed hc, completed_of_closed hc, handleAll_of_closed hc,
        completed_of_closed hc]
      rfl
    · unfold completed at ih ⊢
      rw [List.cons_append, trace, if_neg hc, trace, if_neg hc, handleAll, if_neg hc]
      by_cases he : event = .endOfLine <;> simp [he, ih]

theorem hushed_handleAll (hi : i.Voiced base performance) (h : Hushed base s v)
    {events : List Input.Event} {state : σ}
    (hq : ∀ handled ∈ i.trace events s state, handled.1.Quiet) :
    Heard base (i.handleAll events s state)
      (Voice.completeAll i.grammar performance (i.completed events s state) v state) := by
  induction events generalizing s v state with
  | nil => exact ⟨h, rfl⟩
  | cons event events ih =>
    unfold handleAll completed
    unfold trace at hq ⊢
    split
    · exact ⟨h, rfl⟩
    · rename_i hc
      rw [if_neg hc, List.forall_mem_cons] at hq
      have hh := hushed_handle hi h hq.1 state
      -- a line is answered just where one is completed
      by_cases he : event = .endOfLine
      · subst he
        have hr := ih hh.1 hq.2
        rw [List.filter_cons_of_pos (by simp)]
        rw [hh.2] at hr ⊢
        exact hr
      · rw [if_neg he] at hh
        have hr := ih hh.1 hq.2
        rw [List.filter_cons_of_neg (by simpa using he)]
        rw [hh.2] at hr ⊢
        exact hr

theorem voiced_busy (base : Bytes) (grammar : Node α) : (busy grammar).Voiced base Voice.busy :=
  fun _ _ _ _ _ _ _ h => ⟨h, rfl⟩

theorem hushed_perform (grammar : Node α) (h : Hushed base s v) {request : Request}
    (hr : request.reenters = false) :
    Hushed base ((busy grammar).perform request s ()).1 (v.perform grammar request) := by
  cases request with
  | print message => exact h.printAll [message]
  | printPrompt => exact h.prompt
  | setName name =>
    exact ⟨h.connection, h.mute, h.reliable, h.attached, h.closed, rfl, h.written⟩
  | history op => exact h.replace _
  | execute line mode => exact (hushed_execute (voiced_busy base grammar) h line mode ()).1
  | processInput => cases hr
  | readable => cases hr
  | close => exact h.close

end Interpreter

theorem Program.Same.hushed_run {α H : Type} {base : Bytes} (grammar : Node α) (view : View)
    {p q : Program H} (hp : Same (fun _ _ => True) p q)
    (hw : p.Within fun request => request.reenters = false) {s : Session} {v : Voice}
    (h : Hushed base s v) :
    Interpreter.Heard base (p.run grammar s) (Voice.run grammar view q v) := by
  induction hp generalizing s v with
  | finish handler result => exact ⟨h, rfl⟩
  | ask request _ ih =>
    exact ih _ _ trivial (hw.2 _) (Interpreter.hushed_perform grammar h hw.1)

theorem Interpreter.voiced_ofGrammar {H : Type} (base : Bytes) {grammar : Node (Action H)}
    (hg : grammar.Within fun request => request.reenters = false)
    (hb : grammar.Blind fun _ _ => True) (view : View) :
    (ofGrammar grammar).Voiced base (Voice.ofGrammar grammar view) := by
  intro path action hl parameters s v handler h
  have hp := hb path action hl handler s.view view parameters trivial
  exact hp.hushed_run grammar view (hg path action hl handler s.view parameters) h

theorem Session.hushed_start (id : Nat) {e : Endpoint} (hc : e.connection = .network)
    (hr : e.output.Reliable) (name : String) {options : Options}
    (ho : options.gateControlSequences = true) :
    Hushed (e.output.written ++ (announcements ++ Text.utf8 (name ++ "> ")))
      (start id e name options) { name } := by
  obtain ⟨hr, hw⟩ := start_network id hc hr name options
  obtain ⟨output, notices, -, hs⟩ := start_eq id e name options
  rw [hs] at hr hw ⊢
  exact ⟨hc, ⟨hc, ho, rfl⟩, hr, rfl, rfl, rfl, hw.trans (List.append_nil _).symm⟩

namespace Interpreter

variable {α σ H : Type}

def Quiet (i : Interpreter α σ) (offers : List (List Arrival)) (s : Session) (state : σ) : Prop :=
  ∀ handled ∈ i.trace (Input.events (s.heard offers)) s state, handled.1.Quiet

instance (i : Interpreter α σ) (offers : List (List Arrival)) (s : Session) (state : σ) :
    Decidable (i.Quiet offers s state) :=
  inferInstanceAs (Decidable (∀ handled ∈ _, _))

def lines (i : Interpreter α σ) (offers : List (List Arrival)) (s : Session) (state : σ) :
    List Bytes :=
  i.completed (Input.events (s.heard offers)) s state

theorem deliver_said {base : Bytes} {i : Interpreter α σ} {performance : Voice.Performance α σ}
    (ho : i.Outward) (hu : i.Uniform) (hv : i.Voiced base performance) {s : Session} {v : Voice}
    (h : Hushed base s v) (hi : s.input.isSome) (hp : s.queue.pending = [])
    {offers : List (List Arrival)} {state : σ} (hq : i.Quiet offers s state) :
    let w := Voice.completeAll i.grammar performance (i.lines offers s state) v state
    (i.deliver offers s state).1.written = base ++ w.1.said ∧
      (i.deliver offers s state).2 = w.2 := by
  have hs : Input.Stuck s.queue.pending := hp ▸ Input.stuck_nil
  have hd := deliver_heard ho hu hi hs offers state
  rw [hp, List.nil_append] at hd
  obtain ⟨hh, hw⟩ := hushed_handleAll hv h hq
  exact ⟨hd.1.trans hh.written, hd.2.trans hw⟩

/-- A gated session without echo says what its lines come to, and nothing of how they were typed. -/
theorem deliver_hushed {grammar : Node (Action H)}
    (hg : grammar.Within fun request => request.reenters = false)
    (hb : grammar.Blind fun _ _ => True) (id : Nat) {e : Endpoint} (hc : e.connection = .network)
    (hr : e.output.Reliable) (name : String) {options : Session.Options}
    (ho : options.gateControlSequences = true) (handler : H) (view : View)
    {offers : List (List Arrival)} :
    let i := ofGrammar grammar
    let s := Session.start id e name options
    i.Quiet offers s handler →
      let r := i.deliver offers s handler
      let w := Voice.completeAll grammar (Voice.ofGrammar grammar view) (i.lines offers s handler)
        { name } handler
      r.1.written =
          e.output.written ++ (Session.announcements ++ Text.utf8 (name ++ "> ") ++ w.1.said) ∧
        r.2 = w.2 ∧
        ∀ offers', i.Quiet offers' s handler → i.lines offers' s handler = i.lines offers s handler →
          (i.deliver offers' s handler).1.written = r.1.written := by
  intro i s
  have hi : s.input.isSome ∧ s.queue.pending = [] := by
    obtain ⟨_, _, -, hs⟩ := Session.start_eq id e name options
    dsimp only [s]
    rw [hs]
    exact ⟨rfl, rfl⟩
  have hs := Session.hushed_start id hc hr name ho
  have hd {offers : List (List Arrival)} (hq : i.Quiet offers s handler) :=
    deliver_said (outward_ofGrammar hg) (uniform_ofGrammar hg) (voiced_ofGrammar _ hg hb view) hs
      hi.1 hi.2 hq
  intro hq r w
  refine ⟨(hd hq).1.trans (List.append_assoc ..), (hd hq).2, fun offers' hq' hl => ?_⟩
  rw [(hd hq').1, hl]
  exact (hd hq).1.symm

end Interpreter

namespace Script

def parting : Node (Action Ledger) :=
  .ofList
    [(.ofText "say", .ofList [(.parameter "word", .action (action "say" [.printParameter "word"]))]),
      (.ofText "leave", .action (action "leave" [.ask (.print "bye"), .ask .close]))]

def visitor : Endpoint where
  connection := .network
  input := { handle := 4 }
  output := { handle := 9 }
  peer := "10.0.0.7:4000"

def gated : Session :=
  .start 1 visitor "rift" { gateControlSequences := true }

def fluent : List (List Arrival) :=
  [[.data (Text.utf8 "say hi\r\nsay hi\r\nleave\r\n")]]

def halting : List (List Arrival) :=
  [[.data (Text.utf8 "saz" ++ [0x7F] ++ Text.utf8 "y i" ++ [0x1B, 0x5B])],
    [.data ([0x44] ++ Text.utf8 "h\r")], [.data [0x0A, 0x10, 0x0D, 0x0A, 255, 253, 3]],
    [.data (Text.utf8 "leave\n" ++ [255, 253, 1])], []]

theorem deliver_hushed_halting :
    (parting.Within fun request => request.reenters = false) ∧ (parting.Blind fun _ _ => True) ∧
      visitor.output.Reliable ∧
      let i := Interpreter.ofGrammar parting
      i.Quiet fluent gated {} ∧ i.Quiet halting gated {} ∧
        i.lines halting gated {} = i.lines fluent gated {} ∧
        (i.deliver fluent gated {}).1.written =
          Session.announcements ++ Text.utf8 "rift> hi\nrift> hi\nrift> bye\n" ∧
        (i.deliver halting gated {}).1.written = (i.deliver fluent gated {}).1.written := by
  have hg : parting.Within fun request => request.reenters = false := by
    apply Node.within_ofList
    simp only [List.forall_mem_cons, List.not_mem_nil, false_imp_iff, implies_true, and_true]
    refine ⟨Node.within_ofList ?_, within_action (fun _ => rfl) (by simp [Request.reenters]) _⟩
    rw [List.forall_mem_singleton]
    exact within_action (fun _ => rfl) (by simp) _
  have hb : parting.Blind fun _ _ => True := by
    apply Node.blind_ofList
    simp only [List.forall_mem_cons, List.not_mem_nil, false_imp_iff, implies_true, and_true]
    refine ⟨Node.blind_ofList ?_, blind_action _ _ _⟩
    rw [List.forall_mem_singleton]
    exact blind_action _ _ _
  have hr : visitor.output.Reliable := fun _ _ offered h => ⟨offered, h, rfl⟩
  have hq : (Interpreter.ofGrammar parting).Quiet fluent gated {} := by decide +kernel
  have hq' : (Interpreter.ofGrammar parting).Quiet halting gated {} := by decide +kernel
  have hl : (Interpreter.ofGrammar parting).lines halting gated {} =
      (Interpreter.ofGrammar parting).lines fluent gated {} := by decide +kernel
  have ho : ({ gateControlSequences := true } : Session.Options).gateControlSequences = true := rfl
  obtain ⟨hw, -, he⟩ :=
    Interpreter.deliver_hushed hg hb 1 rfl hr "rift" ho ({} : Ledger) gated.view hq
  refine ⟨hg, hb, hr, hq, hq', hl, hw.trans ?_, he halting hq' hl⟩
  decide +kernel

end Script

end Vty
