import Vty.Proofs.Display.Output
import Vty.Proofs.Session.Paired
import Vty.Session.Script

namespace Vty

open Grammar (Mode Node Parameters)

def InputChannel.nth (limit : Nat) : Nat → InputChannel → Except String Bytes
  | 0, c => (c.read limit).1
  | n + 1, c => nth limit n (c.read limit).2

structure View.Akin (id : Nat) (e : Endpoint) (id' : Nat) (e' : Endpoint) (v w : View) : Prop where
  left : v.id = id ∧ v.connection = e.connection ∧ v.peer = e.peer
  right : w.id = id' ∧ w.connection = e'.connection ∧ w.peer = e'.peer
  closed : v.closed = w.closed
  negotiated : v.negotiated = w.negotiated
  editor : v.editor = w.editor
  name : v.name = w.name

namespace Session

variable {id id' : Nat} {e e' : Endpoint} {s t : Session}

/-- Two sessions that have been given the same to read and will be. -/
structure Twins (id : Nat) (e : Endpoint) (id' : Nat) (e' : Endpoint) (s t : Session) : Prop where
  view : View.Akin id e id' e' s.view t.view
  queue : s.queue = t.queue
  reads : s.closed = false → ∃ c d, s.input = some c ∧ t.input = some d ∧
    ∀ n, c.nth s.chunk n = d.nth t.chunk n

theorem Twins.closed_eq (h : Twins id e id' e' s t) : s.closed = t.closed :=
  h.view.closed

theorem Twins.present (h : Twins id e id' e' s t) (commands commands' : List Display.Command) :
    Twins id e id' e' (s.present commands) (t.present commands') := by
  obtain ⟨_, _, -, hs⟩ := present_eq s commands
  obtain ⟨_, _, -, ht⟩ := present_eq t commands'
  rw [hs, ht]
  exact ⟨h.view, h.queue, h.reads⟩

theorem Twins.note (h : Twins id e id' e' s t) (notice notice' : Notice) :
    Twins id e id' e' (s.note notice) (t.note notice') :=
  ⟨h.view, h.queue, h.reads⟩

theorem Twins.close (h : Twins id e id' e' s t) : Twins id e id' e' s.close t.close := by
  refine ⟨?_, ?_, fun ho => ?_⟩
  · rw [view_close, view_close]
    exact ⟨h.view.left, h.view.right, rfl, h.view.negotiated, h.view.editor, h.view.name⟩
  · rw [(close_keeps s).1, (close_keeps t).1, h.queue]
  · rw [closed_close] at ho
    cases ho

theorem Twins.feature (h : Twins id e id' e' s t) (feature : Telnet.Feature) (on : Bool) :
    Twins id e id' e' { s with display := s.display.setFeature feature on }
      { t with display := t.display.setFeature feature on } := by
  refine ⟨⟨h.view.left, h.view.right, h.view.closed, ?_, h.view.editor, h.view.name⟩, h.queue,
    h.reads⟩
  exact congrArg (·.set feature on) h.view.negotiated

theorem Twins.pull (h : Twins id e id' e' s t) :
    Option.Rel (fun p q => p.1 = q.1 ∧ Twins id e id' e' p.2 q.2) s.pull t.pull := by
  by_cases hc : s.closed = true
  · rw [pull_of_closed hc, pull_of_closed (h.closed_eq.symm.trans hc)]
    exact .none
  · unfold Session.pull
    rw [if_neg hc, if_neg (h.closed_eq ▸ hc), ← h.queue]
    cases s.queue.next with
    | none => exact .none
    | some found =>
      obtain ⟨decoded, queue⟩ := found
      cases decoded with
      | incomplete => exact .none
      | _ => exact .some ⟨rfl, h.view, rfl, h.reads⟩

theorem Twins.absorb (h : Twins id e id' e' s t) (result : Except String Bytes) :
    Twins id e id' e' (s.absorb result).1 (t.absorb result).1 ∧
      (s.absorb result).2 = (t.absorb result).2 := by
  match result with
  | .ok [] => exact ⟨(h.note _ _).close, rfl⟩
  | .ok (byte :: bytes) => exact ⟨⟨h.view, congrArg (·.extend (byte :: bytes)) h.queue, h.reads⟩, rfl⟩
  | .error reason => exact ⟨(h.note _ _).close, rfl⟩

theorem Twins.intake (h : Twins id e id' e' s t) :
    Twins id e id' e' s.intake.1 t.intake.1 ∧ s.intake.2 = t.intake.2 := by
  by_cases hc : s.closed = true
  · rw [intake_of_closed hc, intake_of_closed (h.closed_eq.symm.trans hc)]
    exact ⟨h, rfl⟩
  · have ho : s.closed = false := Bool.eq_false_iff.mpr hc
    obtain ⟨c, d, hs, ht, hn⟩ := h.reads ho
    rw [intake_of_open ho hs, intake_of_open (h.closed_eq.symm.trans ho) ht]
    have hr : (c.read s.chunk).1 = (d.read t.chunk).1 := hn 0
    rw [← hr]
    apply Twins.absorb
    exact ⟨h.view, h.queue, fun _ => ⟨_, _, rfl, rfl, fun n => hn (n + 1)⟩⟩

theorem likeness_twins (id : Nat) (e : Endpoint) (id' : Nat) (e' : Endpoint) :
    Likeness.Fed (Twins id e id' e') where
  closed h := h.closed_eq
  editor h := h.view.editor
  name h := h.view.name
  present h commands := h.present commands commands
  note h _ := h.note _ _
  rename h _ :=
    ⟨⟨h.view.left, h.view.right, h.view.closed, h.view.negotiated, h.view.editor, rfl⟩, h.queue,
      h.reads⟩
  replace h _ :=
    ⟨⟨h.view.left, h.view.right, h.view.closed, h.view.negotiated, rfl, h.view.name⟩, h.queue,
      h.reads⟩
  feature h feature on := h.feature feature on
  close h := h.close
  pull h := h.pull
  intake h := h.intake

theorem twins_start (id id' : Nat) {e e' : Endpoint} (name : String) {options options' : Options}
    (hl : options.historyLimit = options'.historyLimit)
    (hr : ∀ n, e.input.nth (max options.readChunkSize 1) n =
      e'.input.nth (max options'.readChunkSize 1) n) :
    Twins id e id' e' (start id e name options) (start id' e' name options') := by
  obtain ⟨_, _, -, hs⟩ := start_eq id e name options
  obtain ⟨_, _, -, ht⟩ := start_eq id' e' name options'
  rw [hs, ht]
  refine ⟨⟨⟨rfl, rfl, rfl⟩, ⟨rfl, rfl, rfl⟩, rfl, rfl, ?_, rfl⟩, rfl, fun _ => ?_⟩
  · exact congrArg Editor.ofLimit hl
  · exact ⟨e.input, e'.input, rfl, rfl, hr⟩

end Session

namespace Interpreter

variable {H : Type}

theorem performAll_logged {σ α : Type} {i : Interpreter α σ} (hi : i.Thrifty)
    (requests : List Request) (s : Session) (state : σ) :
    i.performAll requests s state =
      ((i.logged.performAll requests s (state, [])).1,
        (i.logged.performAll requests s (state, [])).2.1) := by
  have hj := joined_performAll Session.likeness_eq (paired_unlogged i) (thrifty_logged hi) hi
    requests (rfl : s = s) (rfl : (state, ([] : List (α × Parameters))).1 = state)
  exact Prod.ext hj.1.symm hj.2.symm

/-- Where a session's output goes, and what becomes of it there, has no part in what its input
does. -/
theorem performAll_of_output {grammar : Node (Action H)} {id id' : Nat} {e e' : Endpoint}
    (hg : grammar.Blind (View.Akin id e id' e')) (name : String)
    {options options' : Session.Options} (hl : options.historyLimit = options'.historyLimit)
    (hr : ∀ n, e.input.nth (max options.readChunkSize 1) n =
      e'.input.nth (max options'.readChunkSize 1) n)
    (handler : H) (requests : List Request) :
    let i := ofGrammar grammar
    let p := i.logged.performAll requests (.start id e name options) (handler, [])
    let q := i.logged.performAll requests (.start id' e' name options') (handler, [])
    p.1.closed = q.1.closed ∧ p.1.editor = q.1.editor ∧
      p.1.queue.pending = q.1.queue.pending ∧ p.1.negotiated = q.1.negotiated ∧
      p.1.name = q.1.name ∧ p.2 = q.2 ∧
      i.performAll requests (.start id e name options) handler = (p.1, p.2.1) ∧
      i.performAll requests (.start id' e' name options') handler = (q.1, q.2.1) := by
  intro i p q
  have hR := Session.likeness_twins id e id' e'
  have hi : i.Thrifty := thrifty_ofGrammar grammar
  have hp := paired_logged (paired_ofGrammar hR (fun h => h.view) hg)
  obtain ⟨ht, hq⟩ := joined_performAll hR hp (thrifty_logged hi) (thrifty_logged hi) requests
    (Session.twins_start id id' name hl hr) (rfl : (handler, []) = (handler, []))
  refine ⟨ht.closed_eq, ht.view.editor, ?_, ht.view.negotiated, ht.view.name, hq, ?_, ?_⟩
  · exact congrArg Input.Queue.pending ht.queue
  · exact performAll_logged hi requests _ handler
  · exact performAll_logged hi requests _ handler

end Interpreter

namespace Script

theorem same_program (akin : View → View → Prop) (parameters : Parameters) (steps : List Step)
    (ledger : Ledger) :
    Program.Same akin (program parameters steps ledger) (program parameters steps ledger) := by
  induction steps generalizing ledger with
  | nil => exact .finish ..
  | cons step steps ih =>
    cases step with
    | ask request => exact .ask _ fun _ _ _ => ih _
    | printParameter name => exact .ask _ fun _ _ _ => ih _
    | count => exact .ask _ fun _ _ _ => ih _
    | fail failure => exact .finish ..

theorem blind_action (akin : View → View → Prop) (label : String) (steps : List Step) :
    (Node.action (action label steps)).Blind akin :=
  Node.blind_action fun _ _ _ parameters _ => same_program akin parameters steps _

def repeating : Node (Action Ledger) :=
  .ofList [(.parameter "word", .action (action "repeat" [.printParameter "word", .ask .readable]))]

def dictation : InputChannel where
  handle := 4
  arrivals := [.data (Text.utf8 "one\r\ntw"), .data (Text.utf8 "o\nlast")]

def desk : Endpoint :=
  .terminal dictation { handle := 1 }

def line : Endpoint where
  connection := .network
  input := dictation
  output :=
    { handle := 9
      accept := OutputChannel.acceptWithin (some 3) (some 1)
      flush := fun _ => .error "gone" }
  peer := "10.0.0.7:4000"

theorem performAll_of_output_repeating :
    repeating.Blind (View.Akin 1 desk 2 line) ∧
      let i := (Interpreter.ofGrammar repeating).logged
      let p := i.performAll [.readable] (.start 1 desk "rift") ({}, [])
      let q := i.performAll [.readable] (.start 2 line "rift" { gateControlSequences := true }) ({}, [])
      p.1.editor = q.1.editor ∧ p.2 = q.2 ∧ q.1.editor.buffer = Text.utf8 "last" ∧
        q.2.1.calls = [("repeat", [("word", "one")])] := by
  have hg : repeating.Blind (View.Akin 1 desk 2 line) := by
    apply Node.blind_ofList
    simp only [List.forall_mem_singleton]
    exact blind_action _ _ _
  obtain ⟨-, he, -, -, -, hs, -, -⟩ := Interpreter.performAll_of_output hg "rift"
    (rfl : ({} : Session.Options).historyLimit =
      ({ gateControlSequences := true } : Session.Options).historyLimit)
    (fun _ => rfl) {} [.readable]
  exact ⟨hg, he, hs, by decide +kernel, by decide +kernel⟩

end Script

end Vty
