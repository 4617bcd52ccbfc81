import Vty.Proofs.Session.Screen

namespace Vty

open Display (Command Policy)
open Grammar (Node Parameters Progress)
open Terminal (Printable)

namespace Grammar.Node

variable {α : Type}

theorem read_help_ne_execute (tokens : List String) (node : Node α) (done : Progress) (a : α)
    (parameters : Parameters) (normalized : String) :
    node.read .help tokens done ≠ .ok (.execute a parameters normalized) := by
  intro h
  fun_induction read Mode.help tokens node done with
  | case1 node done =>
    cases node with
    | action b => cases h
    | branch children =>
      simp only [conclude] at h
      split at h <;> cases h
  | case2 => cases h
  | case3 token rest children done word child hc ih => exact ih h
  | case4 => cases h
  | case5 token children done name child hc value rest ih => exact ih h
  | case6 token rest children done name child hc ih => exact ih h
  | case7 => cases h
  | case8 => cases h

theorem parse_help_ne_execute (root : Node α) (line : String) (a : α) (parameters : Parameters)
    (normalized : String) :
    root.parse line .help ≠ .ok (.execute a parameters normalized) := by
  have hp : root.parse line .help = root.read .help (Text.tokens line) {} := by
    unfold parse
    split
    · contradiction
    · rfl
  rw [hp]
  apply read_help_ne_execute

def hints (root : Node α) (line : Bytes) : List String :=
  match Text.ofUtf8? line with
  | none => [Interpreter.undecodable]
  | some command =>
    match root.parse command .help with
    | .ok (.help lines) => lines
    | .ok _ => []
    | .error fault => fault.message :: fault.details

end Grammar.Node

theorem Display.present_append (d : Display) (a b : List Command) :
    d.present (a ++ b) =
      (((d.present a).1.present b).1, (d.present a).2 ++ ((d.present a).1.present b).2) := by
  induction a generalizing d with
  | nil => rfl
  | cons command a ih =>
    simp only [List.cons_append, present, ih, List.append_assoc]

namespace Session

variable {α : Type} {s : Session}

theorem present_append (s : Session) (a b : List Command) :
    s.present (a ++ b) = (s.present a).present b := by
  simp only [present, Display.present_append, List.append_assoc]

def reprompt (s : Session) : List Command :=
  .text (s.name ++ "> ") false :: s.editor.redraw

def briefing (root : Node α) (s : Session) : List Command :=
  ("" :: root.hints s.editor.buffer).map (.text · true)

end Session

namespace Interpreter

variable {α σ : Type} {i : Interpreter α σ}

theorem answer_help (i : Interpreter α σ) (line : Bytes) (s : Session) (state : σ) :
    i.answer line .help s state = (s.printAll (i.grammar.hints line), state) := by
  have hn : s.printAll [] = s := by
    simp [Session.printAll, Session.present, Display.present]
  unfold answer Node.hints
  cases Text.ofUtf8? line with
  | none => rfl
  | some command =>
    simp only [execute]
    cases hp : i.grammar.parse command .help with
    | error fault => rfl
    | ok outcome =>
      cases outcome with
      | empty => exact congrArg (·, state) hn.symm
      | help lines => rfl
      | execute action parameters normalized =>
        exact absurd hp (i.grammar.parse_help_ne_execute command action parameters normalized)

theorem contextHelp_eq_present (i : Interpreter α σ) (s : Session) (state : σ) :
    i.contextHelp s state = (s.present (s.briefing i.grammar ++ s.reprompt), state) := by
  rw [contextHelp_eq, answer_help, Session.present_append]
  have hb : (s.print "").printAll (i.grammar.hints s.editor.buffer) =
      s.present (s.briefing i.grammar) := (Session.present_append s [.text "" true] _).symm
  rw [hb]
  exact congrArg (·, state) (Session.present_append (s.present _) [_] _).symm

end Interpreter

theorem Display.Command.encode_prompt (p : Policy) {message : String}
    (h : Printable (Text.utf8 message)) :
    (Command.text message false).encode p = Text.utf8 message := by
  simp only [encode, if_neg Bool.false_ne_true, List.append_nil,
    Terminal.expandNewlines_printable h, ite_self]

namespace Session

variable {α : Type} {s t : Session}

theorem run_reprompt (p : Policy) (hc : Printable s.prompt) (ht : s.editor.Tidy) :
    Terminal.run {} (s.reprompt.flatMap (Command.encode p)) =
      { row := s.prompt ++ s.editor.buffer
        column := s.prompt.length +
          if p.sendsControl then s.editor.cursor else s.editor.buffer.length
        mode := .ground } := by
  have hp : (Command.text (s.name ++ "> ") false).encode p = s.prompt :=
    Command.encode_prompt p hc
  have hl : Terminal.run {} (s.prompt ++ s.editor.buffer) =
      Terminal.onLine s.prompt s.editor.buffer s.editor.buffer.length := by
    have hr := Terminal.run_printable (hc.append ht.printable) [] []
    rw [List.drop_nil] at hr
    rw [Terminal.onLine_length]
    exact hr
  have hs : s.reprompt.flatMap (Command.encode p) = s.prompt ++ s.editor.buffer ++
      if p.sendsControl then Display.columns (s.editor.buffer.length - s.editor.cursor) 0x44
      else [] := by
    rw [reprompt, List.flatMap_cons, hp, List.append_assoc]
    simp only [Editor.redraw, List.flatMap_cons, List.flatMap_nil, Command.encode, List.append_nil]
  rw [hs, Terminal.run_append, hl]
  split
  · have hb : (Terminal.onLine s.prompt s.editor.buffer s.editor.buffer.length).obey
        (.left (s.editor.buffer.length - s.editor.cursor)) = _ :=
      Terminal.obey_left ht.cursor_le (Nat.le_refl _)
    exact hb.trans (Terminal.onLine_eq _ ht.cursor_le)
  · exact Terminal.onLine_eq _ (Nat.le_refl _)

/-- What follows the briefing shows on a blank row the prompt and the line, with the cursor where
the line has it. -/
def Restores (root : Node α) (s t : Session) : Prop :=
  ∃ shown, t.written = s.written ++ s.display.sent (s.briefing root) ++ shown ∧
    Terminal.run {} shown =
      { row := s.prompt ++ s.editor.buffer
        column := s.prompt.length + s.editor.cursor
        mode := .ground }

end Session

namespace Interpreter

variable {α σ : Type}

/-- Context help restores the line where control output is sent, and elsewhere only with the cursor
at the end of it. -/
theorem contextHelp_restores_iff (i : Interpreter α σ) {s : Session}
    (ha : s.display.attached = true) (hr : s.display.output.Reliable) (hc : Printable s.prompt)
    (ht : s.editor.Tidy) (state : σ) :
    s.Restores i.grammar (i.handle .contextHelp s state).1 ↔
      s.display.policy.sendsControl = true ∨ s.editor.cursor = s.editor.buffer.length := by
  have hw : (i.handle .contextHelp s state).1.written =
      s.written ++ s.display.sent (s.briefing i.grammar) ++
        s.reprompt.flatMap (Command.encode s.display.policy) := by
    have hp := (Session.present_reliable hr (s.briefing i.grammar ++ s.reprompt)).2
    unfold handle
    rw [contextHelp_eq_present, hp]
    simp only [Display.sent, ha, if_true, List.flatMap_append, List.append_assoc]
  have hrun := Session.run_reprompt s.display.policy hc ht
  constructor
  · rintro ⟨shown, hs, h⟩
    obtain rfl := List.append_cancel_left (hs.symm.trans hw)
    have hn := congrArg Terminal.column (h.symm.trans hrun)
    by_cases hp : s.display.policy.sendsControl = true
    · exact .inl hp
    · rw [if_neg hp] at hn
      exact .inr (Nat.add_left_cancel hn)
  · intro h
    refine ⟨_, hw, hrun.trans ?_⟩
    rcases h with h | h
    · rw [if_pos h]
    · rw [h, ite_self]

end Interpreter

namespace Daemon

def hesitant : Endpoint where
  connection := .network
  input := { handle := 4, arrivals := [.data (Text.utf8 "ec" ++ [0x1B, 0x5B, 0x44])] }
  output := { handle := 9 }
  peer := "10.0.0.7:4000"

def halfway (gated : Bool) : Session :=
  ((Interpreter.ofGrammar grammar).perform .readable
    (.start 1 hesitant "rift" { gateControlSequences := gated }) {}).1

theorem contextHelp_restores_halfway :
    let s := halfway false
    s.display.attached = true ∧ s.display.output.Reliable ∧ Printable s.prompt ∧ s.editor.Tidy ∧
      s.editor.cursor = 1 ∧
      s.Restores grammar ((Interpreter.ofGrammar grammar).handle .contextHelp s {}).1 := by
  have hr : (halfway false).display.output.Reliable := fun _ _ offered h => ⟨offered, h, rfl⟩
  have hc : Printable (halfway false).prompt := by decide +kernel
  have ht : (halfway false).editor.Tidy := ⟨by decide +kernel, by decide +kernel⟩
  have hi := Interpreter.contextHelp_restores_iff (Interpreter.ofGrammar grammar) rfl hr hc ht {}
  exact ⟨rfl, hr, hc, ht, rfl, hi.mpr (.inl rfl)⟩

theorem contextHelp_not_restores_halfway :
    let s := halfway true
    s.closed = false ∧ s.display.output.Reliable ∧ Printable s.prompt ∧ s.editor.Tidy ∧
      ¬ s.Restores grammar ((Interpreter.ofGrammar grammar).handle .contextHelp s {}).1 := by
  have hr : (halfway true).display.output.Reliable := fun _ _ offered h => ⟨offered, h, rfl⟩
  have hc : Printable (halfway true).prompt := by decide +kernel
  have ht : (halfway true).editor.Tidy := ⟨by decide +kernel, by decide +kernel⟩
  refine ⟨rfl, hr, hc, ht, ?_⟩
  rintro ⟨shown, hw, hrun⟩
  have hs : ((Interpreter.ofGrammar grammar).handle .contextHelp (halfway true) {}).1.written =
      (halfway true).written ++ (halfway true).display.sent ((halfway true).briefing grammar) ++
        Text.utf8 "rift> ec" := by decide +kernel
  obtain rfl := List.append_cancel_left (hw.symm.trans hs)
  exact absurd hrun (by decide +kernel)

end Daemon

end Vty
