import Vty.Proofs.Session.Backlog

namespace Vty

open Grammar (Mode Node Parameters)

namespace Session

/-- What is done to both of two sessions in such a relation leaves them in it. -/
structure Likeness (R : Session → Session → Prop) : Prop where
  closed {s t} (h : R s t) : s.closed = t.closed
  editor {s t} (h : R s t) : s.editor = t.editor
  name {s t} (h : R s t) : s.name = t.name
  present {s t} (h : R s t) (commands : List Display.Command) :
    R (s.present commands) (t.present commands)
  note {s t} (h : R s t) (notice : Origin → Notice) :
    R (s.note (notice s.origin)) (t.note (notice t.origin))
  rename {s t} (h : R s t) (name : String) : R { s with name } { t with name }
  replace {s t} (h : R s t) (editor : Editor) : R { s with editor } { t with editor }
  feature {s t} (h : R s t) (feature : Telnet.Feature) (on : Bool) :
    R { s with display := s.display.setFeature feature on }
      { t with display := t.display.setFeature feature on }
  close {s t} (h : R s t) : R s.close t.close

structure Likeness.Fed (R : Session → Session → Prop) : Prop extends Likeness R where
  pull {s t} (h : R s t) : Option.Rel (fun p q => p.1 = q.1 ∧ R p.2 q.2) s.pull t.pull
  intake {s t} (h : R s t) : R s.intake.1 t.intake.1 ∧ s.intake.2 = t.intake.2

namespace Likeness

variable {R : Session → Session → Prop} {s t : Session}

theorem print (hR : Likeness R) (h : R s t) (message : String) :
    R (s.print message) (t.print message) :=
  hR.present h _

theorem printAll (hR : Likeness R) (h : R s t) (messages : List String) :
    R (s.printAll messages) (t.printAll messages) :=
  hR.present h _

theorem printPrompt (hR : Likeness R) (h : R s t) : R s.printPrompt t.printPrompt := by
  unfold Session.printPrompt
  rw [← hR.name h]
  exact hR.present h _

theorem edit (hR : Likeness R) (h : R s t) (change : Editor.Change) :
    R (s.edit change) (t.edit change) :=
  hR.present (hR.replace h change.1) change.2

theorem entered (hR : Likeness R) (h : R s t) : R s.entered t.entered := by
  have hp := hR.replace (hR.present h [.echo [Input.cr, Input.lf]]) s.editor.takeLine.2
  unfold Session.entered noteLine
  rw [← hR.editor h]
  cases Text.ofUtf8? s.editor.buffer with
  | none => exact hp
  | some command => exact hR.note hp (.executing · command)

theorem promptAgain (hR : Likeness R) (h : R s t) (line : Bytes) :
    R (s.promptAgain line) (t.promptAgain line) := by
  unfold Session.promptAgain
  rw [← hR.closed h, ← hR.editor h]
  split
  · exact h
  · exact hR.replace (hR.printPrompt h) _

theorem shownAgain (hR : Likeness R) (h : R s t) : R s.shownAgain t.shownAgain := by
  have hp := hR.printPrompt h
  unfold Session.shownAgain
  rw [← hR.editor hp]
  exact hR.present hp _

end Likeness

end Session

namespace Interpreter

open Session (Likeness)

variable {α σ τ : Type} {R : Session → Session → Prop} {Q : σ → τ → Prop}
  {i : Interpreter α σ} {j : Interpreter α τ} {s t : Session} {x : σ} {y : τ}

def Joined (R : Session → Session → Prop) (Q : σ → τ → Prop) (p : Session × σ)
    (q : Session × τ) : Prop :=
  R p.1 q.1 ∧ Q p.2 q.2

structure Paired (R : Session → Session → Prop) (Q : σ → τ → Prop) (i : Interpreter α σ)
    (j : Interpreter α τ) : Prop where
  grammar : i.grammar = j.grammar
  run {path action} (hl : i.grammar.Leads path action) (parameters : Parameters) {s t x y}
    (h : R s t) (hq : Q x y) :
    Joined R Q ((i.run action parameters s x).1, (i.run action parameters s x).2.1)
        ((j.run action parameters t y).1, (j.run action parameters t y).2.1) ∧
      (i.run action parameters s x).2.2 = (j.run action parameters t y).2.2

theorem joined_execute (hR : Likeness R) (hp : Paired R Q i j) (h : R s t) (hq : Q x y)
    (command : String) (mode : Mode) :
    Joined R Q (i.execute command mode s x) (j.execute command mode t y) := by
  unfold execute
  rw [← hp.grammar]
  cases hc : i.grammar.parse command mode with
  | error fault => exact ⟨hR.printAll h (fault.message :: fault.details), hq⟩
  | ok outcome =>
    cases outcome with
    | empty => exact ⟨h, hq⟩
    | help lines => exact ⟨hR.printAll h _, hq⟩
    | execute action parameters normalized =>
      obtain ⟨path, hl⟩ := Grammar.Node.leads_of_parse hc
      have hr := hp.run hl parameters h hq
      dsimp only
      generalize i.run action parameters s x = p at hr
      generalize j.run action parameters t y = q at hr
      obtain ⟨s', x', result⟩ := p
      obtain ⟨t', y', _⟩ := q
      obtain ⟨hj, rfl⟩ := hr
      cases result with
      | ok => exact hj
      | error failure => exact ⟨hR.print (hR.note hj.1 (.failed · command failure.message)) _, hj.2⟩

theorem joined_answer (hR : Likeness R) (hp : Paired R Q i j) (h : R s t) (hq : Q x y)
    (line : Bytes) (mode : Mode) :
    Joined R Q (i.answer line mode s x) (j.answer line mode t y) := by
  unfold answer
  cases Text.ofUtf8? line with
  | none => exact ⟨hR.print h _, hq⟩
  | some command => exact joined_execute hR hp h hq command mode

theorem joined_completeLine (hR : Likeness R) (hp : Paired R Q i j) (h : R s t) (hq : Q x y) :
    Joined R Q (i.completeLine s x) (j.completeLine t y) := by
  rw [completeLine_eq, completeLine_eq, ← hR.editor h]
  have ha := joined_answer hR hp (hR.entered h) hq s.editor.buffer .execute
  exact ⟨hR.promptAgain ha.1 _, ha.2⟩

theorem joined_contextHelp (hR : Likeness R) (hp : Paired R Q i j) (h : R s t) (hq : Q x y) :
    Joined R Q (i.contextHelp s x) (j.contextHelp t y) := by
  rw [contextHelp_eq, contextHelp_eq, ← hR.editor h]
  have ha := joined_answer hR hp (hR.print h "") hq s.editor.buffer .help
  exact ⟨hR.shownAgain ha.1, ha.2⟩

theorem like_negotiate (hR : Likeness R) (h : R s t) (verb : Telnet.Verb) (code : UInt8) :
    R (negotiate s verb code) (negotiate t verb code) := by
  have hs (feature : Telnet.Feature) (on : Bool) :
      R (negotiate.set verb s feature on) (negotiate.set verb t feature on) :=
    hR.feature (hR.note h (.negotiated · verb feature)) feature on
  unfold negotiate
  cases Telnet.Feature.ofCode? code with
  | none => exact h
  | some feature =>
    cases verb with
    | enable => exact hs feature true
    | disable => exact hs feature false
    | _ => exact h

theorem joined_handle (hR : Likeness R) (hp : Paired R Q i j) (h : R s t) (hq : Q x y)
    (event : Input.Event) : Joined R Q (i.handle event s x) (j.handle event t y) := by
  have hc (change : Editor.Change) : Joined R Q (s.edit change, x) (t.edit change, y) :=
    ⟨hR.edit h change, hq⟩
  cases event with
  | endOfLine => exact joined_completeLine hR hp h hq
  | contextHelp => exact joined_contextHelp hR hp h hq
  | telnet verb option => exact ⟨like_negotiate hR h verb option, hq⟩
  | _ =>
    unfold handle
    rw [← hR.editor h]
    exact hc _

theorem joined_perform_outward (hR : Likeness R) (hp : Paired R Q i j) (h : R s t) (hq : Q x y)
    {request : Request} (hr : request.reenters = false) :
    Joined R Q (i.perform request s x) (j.perform request t y) := by
  cases request with
  | print message => exact ⟨hR.print h message, hq⟩
  | printPrompt => exact ⟨hR.printPrompt h, hq⟩
  | setName name => exact ⟨hR.rename h name, hq⟩
  | history op =>
    unfold perform
    rw [← hR.editor h]
    exact ⟨hR.replace h _, hq⟩
  | execute line mode => exact joined_execute hR hp h hq line mode
  | processInput => cases hr
  | readable => cases hr
  | close => exact ⟨hR.close h, hq⟩

theorem joined_drain (hR : Likeness.Fed R) (hp : Paired R Q i j) (fuel : Nat) (h : R s t)
    (hq : Q x y) : Joined R Q (i.drain fuel s x) (j.drain fuel t y) := by
  induction fuel generalizing s t x y with
  | zero => exact ⟨h, hq⟩
  | succ fuel ih =>
    have hd := hR.pull h
    generalize hs : s.pull = found at hd
    generalize ht : t.pull = found' at hd
    cases hd with
    | none =>
      rw [drain_of_pull_eq_none hs, drain_of_pull_eq_none ht]
      exact ⟨h, hq⟩
    | @some a b hab =>
      obtain ⟨event, s'⟩ := a
      obtain ⟨_, t'⟩ := b
      obtain ⟨rfl, h'⟩ := hab
      cases event with
      | none =>
        rw [drain_of_pull_skip hs, drain_of_pull_skip ht]
        exact ih h' hq
      | some event =>
        rw [drain_of_pull_event hs, drain_of_pull_event ht]
        have hh := joined_handle hR.toLikeness hp h' hq event
        exact ih hh.1 hh.2

theorem joined_processInput (hR : Likeness.Fed R) (hp : Paired R Q i j) (hi : i.Thrifty)
    (hj : j.Thrifty) (h : R s t) (hq : Q x y) :
    Joined R Q (i.processInput s x) (j.processInput t y) := by
  unfold processInput
  rw [drain_eq_of_backlog_le hi x (Nat.le_refl _) (Nat.le_max_left s.backlog t.backlog),
    drain_eq_of_backlog_le hj y (Nat.le_refl _) (Nat.le_max_right s.backlog t.backlog)]
  exact joined_drain hR hp _ h hq

theorem joined_readable (hR : Likeness.Fed R) (hp : Paired R Q i j) (hi : i.Thrifty)
    (hj : j.Thrifty) (h : R s t) (hq : Q x y) :
    Joined R Q (i.readable s x) (j.readable t y) := by
  obtain ⟨hr, hb⟩ := hR.intake h
  rw [readable_eq, readable_eq, ← hb]
  split
  · exact joined_processInput hR hp hi hj hr hq
  · exact ⟨hr, hq⟩

theorem joined_perform (hR : Likeness.Fed R) (hp : Paired R Q i j) (hi : i.Thrifty)
    (hj : j.Thrifty) (h : R s t) (hq : Q x y) (request : Request) :
    Joined R Q (i.perform request s x) (j.perform request t y) := by
  cases request with
  | processInput => exact joined_processInput hR hp hi hj h hq
  | readable => exact joined_readable hR hp hi hj h hq
  | _ => exact joined_perform_outward hR.toLikeness hp h hq rfl

theorem paired_busy (R : Session → Session → Prop) (grammar : Node α) :
    Paired R (fun _ _ => True) (busy grammar) (busy grammar) where
  grammar := rfl
  run _ _ _ _ _ _ h _ := ⟨⟨h, trivial⟩, rfl⟩

def performAll (i : Interpreter α σ) : List Request → Session → σ → Session × σ
  | [], s, state => (s, state)
  | request :: requests, s, state =>
    let (s, state) := i.perform request s state
    i.performAll requests s state

theorem joined_performAll (hR : Likeness.Fed R) (hp : Paired R Q i j) (hi : i.Thrifty)
    (hj : j.Thrifty) (requests : List Request) (h : R s t) (hq : Q x y) :
    Joined R Q (i.performAll requests s x) (j.performAll requests t y) := by
  induction requests generalizing s t x y with
  | nil => exact ⟨h, hq⟩
  | cons request requests ih =>
    have hs := joined_perform hR hp hi hj h hq request
    exact ih hs.1 hs.2

end Interpreter

open Session (Likeness)

variable {α σ τ H : Type} {akin : View → View → Prop} {R : Session → Session → Prop}

/-- Programs that ask for the same and end the same, as long as what they are shown is akin. -/
inductive Program.Same (akin : View → View → Prop) : Program H → Program H → Prop
  | finish (handler : H) (result : Except Failure Unit) :
      Same akin (.finish handler result) (.finish handler result)
  | ask (request : Request) {next next' : View → Program H}
      (h : ∀ v w, akin v w → Same akin (next v) (next' w)) :
      Same akin (.ask request next) (.ask request next')

def Grammar.Node.Blind (akin : View → View → Prop) (grammar : Node (Action H)) : Prop :=
  ∀ path action, grammar.Leads path action → ∀ handler v w parameters, akin v w →
    Program.Same akin (action handler v parameters) (action handler w parameters)

namespace Grammar.Node

theorem blind_action {action : Action H}
    (h : ∀ handler v w parameters, akin v w →
      Program.Same akin (action handler v parameters) (action handler w parameters)) :
    (Node.action action).Blind akin :=
  offers_action h

theorem blind_ofList {entries : List (Grammar.Key × Node (Action H))}
    (h : ∀ entry ∈ entries, entry.2.Blind akin) : (Node.ofList entries).Blind akin :=
  offers_ofList h

end Grammar.Node

theorem Program.Same.run {p q : Program H} (hp : Same akin p q) (hR : Likeness.Fed R)
    (hv : ∀ {s t}, R s t → akin s.view t.view) (grammar : Node α) {s t : Session} (h : R s t) :
    R (p.run grammar s).1 (q.run grammar t).1 ∧ (p.run grammar s).2 = (q.run grammar t).2 := by
  induction hp generalizing s t with
  | finish handler result => exact ⟨h, rfl⟩
  | ask request _ ih =>
    have hb := Interpreter.thrifty_busy grammar
    have hj := Interpreter.joined_perform hR (Interpreter.paired_busy R grammar) hb hb h
      trivial request (x := ()) (y := ())
    exact ih _ _ (hv hj.1) hj.1

namespace Interpreter

theorem paired_ofGrammar (hR : Likeness.Fed R) (hv : ∀ {s t}, R s t → akin s.view t.view)
    {grammar : Node (Action H)} (hg : grammar.Blind akin) :
    Paired R Eq (ofGrammar grammar) (ofGrammar grammar) where
  grammar := rfl
  run {path action} hl parameters s t x y h hq := by
    subst hq
    have hr := (hg path action hl x s.view t.view parameters (hv h)).run hR hv grammar h
    exact ⟨⟨hr.1, congrArg Prod.fst hr.2⟩, congrArg Prod.snd hr.2⟩

def logged (i : Interpreter α σ) : Interpreter α (σ × List (α × Parameters)) where
  grammar := i.grammar
  run action parameters s state :=
    let r := i.run action parameters s state.1
    (r.1, (r.2.1, state.2 ++ [(action, parameters)]), r.2.2)

theorem thrifty_logged {i : Interpreter α σ} (hi : i.Thrifty) : i.logged.Thrifty :=
  fun action parameters s state => hi action parameters s state.1

theorem paired_logged {i j : Interpreter α σ} (h : Paired R Eq i j) :
    Paired R Eq i.logged j.logged where
  grammar := h.grammar
  run hl parameters s t x y hs hq := by
    subst hq
    have hr := h.run hl parameters hs (rfl : x.1 = x.1)
    exact ⟨⟨hr.1.1, congrArg (·, _) hr.1.2⟩, hr.2⟩

theorem paired_unlogged (i : Interpreter α σ) : Paired Eq (fun x y => x.1 = y) i.logged i where
  grammar := rfl
  run hl parameters s t x y h hq := by
    subst h hq
    exact ⟨⟨rfl, rfl⟩, rfl⟩

end Interpreter

theorem Session.likeness_eq : Likeness.Fed (@Eq Session) where
  closed h := congrArg _ h
  editor h := congrArg _ h
  name h := congrArg _ h
  present h commands := congrArg (·.present commands) h
  note h notice := congrArg (fun s => s.note (notice s.origin)) h
  rename h name := congrArg (fun s => { s with name }) h
  replace h editor := congrArg (fun s => { s with editor }) h
  feature h feature on :=
    congrArg (fun s => { s with display := s.display.setFeature feature on }) h
  close h := congrArg _ h
  pull {s _} h := by
    subst h
    cases s.pull with
    | none => exact .none
    | some found => exact .some ⟨rfl, rfl⟩
  intake h := by
    subst h
    exact ⟨rfl, rfl⟩

end Vty
