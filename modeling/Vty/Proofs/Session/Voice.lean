import Vty.Proofs.Session.Speech

namespace Vty

open Display (Command)
open Grammar (Mode Node Parameters)

/-- All that is heard of a session whose line is not shown. -/
structure Voice where
  name : String
  closed : Bool := false
  said : Bytes := []

namespace Voice

variable {α σ H : Type}

def say (v : Voice) (bytes : Bytes) : Voice :=
  if v.closed then v else { v with said := v.said ++ bytes }

def printAll (v : Voice) (messages : List String) : Voice :=
  v.say (messages.flatMap fun message => Text.utf8 message ++ [0x0A])

def prompt (v : Voice) : Voice :=
  v.say (Text.utf8 (v.name ++ "> "))

abbrev Performance (α σ : Type) :=
  α → Parameters → Voice → σ → Voice × σ × Except Failure Unit

def execute (grammar : Node α) (performance : Performance α σ) (command : String) (mode : Mode)
    (v : Voice) (state : σ) : Voice × σ :=
  match grammar.parse command mode with
  | .ok .empty => (v, state)
  | .ok (.help lines) => (v.printAll lines, state)
  | .ok (.execute action parameters _) =>
    let (v, state, result) := performance action parameters v state
    (v.printAll (Failure.texts result), state)
  | .error fault => (v.printAll (fault.message :: fault.details), state)

def busy : Performance α Unit :=
  fun _ _ v () => (v, (), .error .busy)

def perform (grammar : Node α) (v : Voice) : Request → Voice
  | .print message => v.printAll [message]
  | .printPrompt => v.prompt
  | .setName name => { v with name }
  | .execute line mode => (execute grammar busy line mode v ()).1
  | .close => { v with closed := true }
  | .history _ | .processInput | .readable => v

def run (grammar : Node α) (view : View) : Program H → Voice → Voice × H × Except Failure Unit
  | .finish handler result, v => (v, handler, result)
  | .ask request next, v => run grammar view (next view) (v.perform grammar request)

def ofGrammar (grammar : Node (Action H)) (view : View) : Performance (Action H) H :=
  fun action parameters v handler => run grammar view (action handler view parameters) v

def complete (grammar : Node α) (performance : Performance α σ) (line : Bytes) (v : Voice)
    (state : σ) : Voice × σ :=
  let (v, state) := match Text.ofUtf8? line with
    | some command => execute grammar performance command .execute v state
    | none => (v.printAll [Interpreter.undecodable], state)
  (v.prompt, state)

def completeAll (grammar : Node α) (performance : Performance α σ) :
    List Bytes → Voice → σ → Voice × σ
  | [], v, state => (v, state)
  | line :: rest, v, state =>
    let (v, state) := complete grammar performance line v state
    completeAll grammar performance rest v state

theorem say_nil (v : Voice) : v.say [] = v := by
  unfold say
  rw [List.append_nil, ite_self]

theorem name_say (v : Voice) (bytes : Bytes) : (v.say bytes).name = v.name := by
  unfold say
  split <;> rfl

theorem closed_say (v : Voice) (bytes : Bytes) : (v.say bytes).closed = v.closed := by
  unfold say
  split <;> rfl

theorem said_say (v : Voice) (bytes : Bytes) :
    (v.say bytes).said = v.said ++ if v.closed then [] else bytes := by
  unfold say
  split
  · exact (List.append_nil _).symm
  · rfl

end Voice

namespace Display

structure Policy.Mute (p : Policy) : Prop where
  network : p.connection = .network
  gated : p.gated = true
  echo : p.negotiated.echo = false

def Command.Typing : Command → Prop
  | .send _ | .will _ | .text _ _ => False
  | _ => True

variable {p : Policy}

theorem Policy.Mute.mustEcho (h : p.Mute) : p.mustEcho = false := by
  unfold Policy.mustEcho
  rw [h.network]
  exact h.echo

theorem Policy.Mute.encode_typing (h : p.Mute) {command : Command} (hc : command.Typing) :
    command.encode p = [] := by
  have hm := h.mustEcho
  have hs : p.sendsControl = false := by simp [Policy.sendsControl, h.gated, hm]
  cases command with
  | send bytes => cases hc
  | will option => cases hc
  | text message newline => cases hc
  | echo bytes => simp [Command.encode, hm]
  | _ => simp [Command.encode, hs]

theorem Policy.Mute.encode_text (h : p.Mute) (message : String) (newline : Bool) :
    (Command.text message newline).encode p =
      Text.utf8 message ++ if newline then [0x0A] else [] := by
  simp [Command.encode, h.mustEcho]

end Display

namespace Editor

variable (e : Editor)

theorem typing_refresh : ∀ command ∈ e.refresh, command.Typing := by
  simp [refresh, Command.Typing]

theorem typing_insert (byte : UInt8) : ∀ command ∈ (e.insert byte).2, command.Typing := by
  unfold insert
  split
  · simp [Command.Typing]
  · rw [List.forall_mem_append]
    exact ⟨typing_refresh _, by simp [Command.Typing]⟩

theorem typing_deleteBefore : ∀ command ∈ e.deleteBefore.2, command.Typing := by
  unfold deleteBefore
  split
  · simp [Command.Typing]
  · rw [List.forall_mem_cons]
    exact ⟨trivial, typing_refresh _⟩

theorem typing_moveLeft : ∀ command ∈ e.moveLeft.2, command.Typing := by
  unfold moveLeft
  split <;> simp [Command.Typing]

theorem typing_moveRight : ∀ command ∈ e.moveRight.2, command.Typing := by
  unfold moveRight
  split <;> simp [Command.Typing]

theorem typing_follow (step : History.Step) : ∀ command ∈ (e.follow step).2, command.Typing := by
  cases step <;> simp [follow, replaceLine, Command.Typing]

end Editor

structure Hushed (base : Bytes) (s : Session) (v : Voice) : Prop where
  connection : s.connection = .network
  mute : s.display.policy.Mute
  reliable : s.display.output.Reliable
  attached : s.display.attached = !v.closed
  closed : s.closed = v.closed
  name : s.name = v.name
  written : s.written = base ++ v.said

namespace Hushed

variable {base : Bytes} {s t : Session} {v : Voice}

theorem present (h : Hushed base s v) (commands : List Command) :
    Hushed base (s.present commands)
      (v.say (commands.flatMap (Command.encode s.display.policy))) := by
  obtain ⟨hr, hw⟩ := Session.present_reliable h.reliable commands
  obtain ⟨output, notices, -, hp⟩ := Session.present_eq s commands
  rw [hp] at hr hw ⊢
  refine ⟨h.connection, h.mute, hr, ?_, ?_, ?_, hw.trans ?_⟩
  · rw [Voice.closed_say]
    exact h.attached
  · rw [Voice.closed_say]
    exact h.closed
  · rw [Voice.name_say]
    exact h.name
  · rw [h.written, Voice.said_say, Display.sent, h.attached, List.append_assoc]
    cases v.closed <;> rfl

theorem typing (h : Hushed base s v) {commands : List Command}
    (hc : ∀ command ∈ commands, command.Typing) : Hushed base (s.present commands) v := by
  have hp := h.present commands
  have hn : commands.flatMap (Command.encode s.display.policy) = [] :=
    List.flatMap_eq_nil_iff.mpr fun command hm => h.mute.encode_typing (hc command hm)
  rwa [hn, Voice.say_nil] at hp

theorem printAll (h : Hushed base s v) (messages : List String) :
    Hushed base (s.printAll messages) (v.printAll messages) := by
  have hp := h.present (messages.map (.text · true))
  simp only [List.flatMap_map, h.mute.encode_text, if_true] at hp
  exact hp

theorem prompt (h : Hushed base s v) : Hushed base s.printPrompt v.prompt := by
  have hp := h.present [.text (s.name ++ "> ") false]
  rw [List.flatMap_singleton, h.mute.encode_text, if_neg Bool.false_ne_true, List.append_nil] at hp
  rw [Voice.prompt, ← h.name]
  exact hp

theorem note (h : Hushed base s v) (notice : Notice) : Hushed base (s.note notice) v :=
  ⟨h.connection, h.mute, h.reliable, h.attached, h.closed, h.name, h.written⟩

theorem replace (h : Hushed base s v) (editor : Editor) : Hushed base { s with editor } v :=
  ⟨h.connection, h.mute, h.reliable, h.attached, h.closed, h.name, h.written⟩

theorem edit (h : Hushed base s v) {change : Editor.Change}
    (hc : ∀ command ∈ change.2, command.Typing) : Hushed base (s.edit change) v :=
  (h.replace change.1).typing hc

theorem close (h : Hushed base s v) : Hushed base s.close { v with closed := true } := by
  cases hc : v.closed with
  | true =>
    rw [Session.close_of_closed (h.closed.trans hc), ← hc]
    exact h
  | false =>
    obtain ⟨notices, hs⟩ := Session.close_of_open (h.closed.trans hc)
    rw [hs, h.connection]
    exact ⟨rfl, h.mute, h.reliable, rfl, rfl, h.name, h.written⟩

theorem entered (h : Hushed base s v) : Hushed base s.entered v := by
  have hp : Hushed base (s.present [.echo [Input.cr, Input.lf]]) v :=
    h.typing (by simp [Command.Typing])
  unfold Session.entered Session.noteLine
  split
  · exact (hp.replace _).note _
  · exact hp.replace _

theorem promptAgain (h : Hushed base s v) (line : Bytes) :
    Hushed base (s.promptAgain line) v.prompt := by
  unfold Session.promptAgain
  split
  · rename_i hc
    rw [Voice.prompt, Voice.say, if_pos (h.closed.symm.trans hc)]
    exact h
  · exact h.prompt.replace _

theorem feature (h : Hushed base s v) {feature : Telnet.Feature} {on : Bool}
    (hq : ¬ (feature = .echo ∧ on = true)) :
    Hushed base { s with display := s.display.setFeature feature on } v := by
  have hm : (s.display.setFeature feature on).policy.Mute := by
    refine ⟨h.mute.network, h.mute.gated, ?_⟩
    cases feature with
    | echo => exact Bool.eq_false_iff.mpr fun ho => hq ⟨rfl, ho⟩
    | suppressGoAhead => exact h.mute.echo
  exact ⟨h.connection, hm, h.reliable, h.attached, h.closed, h.name, h.written⟩

end Hushed

def Input.Event.Quiet (event : Event) : Prop :=
  event ≠ .contextHelp ∧ event ≠ .telnet .enable Telnet.Feature.echo.code

instance (event : Input.Event) : Decidable event.Quiet :=
  inferInstanceAs (Decidable (_ ∧ _))

theorem Hushed.negotiate {base : Bytes} {s : Session} {v : Voice} (h : Hushed base s v)
    {verb : Telnet.Verb} {code : UInt8} (hq : (Input.Event.telnet verb code).Quiet) :
    Hushed base (Interpreter.negotiate s verb code) v := by
  unfold Interpreter.negotiate
  split
  · rename_i feature hf
    obtain rfl := Telnet.Feature.ofCode?_eq_some_iff.mp hf
    refine (h.note _).feature ?_
    rintro ⟨rfl, -⟩
    exact hq.2 rfl
  · exact (h.note _).feature (by simp)
  · exact h

end Vty
