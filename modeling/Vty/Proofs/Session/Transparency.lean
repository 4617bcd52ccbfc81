import Vty.Proofs.Session.Exclusion
import Vty.Proofs.Session.Help
import Vty.Proofs.Session.Hushed
import Vty.Proofs.Session.Redisplay

namespace Vty

open Display (Command)
open Grammar (Node)

namespace Session

/-- Nothing differs but what has been shown and what has been noticed. -/
def Redrawn (s t : Session) : Prop :=
  ∃ output notices, output.handle = s.display.output.handle ∧
    t = { s with display := { s.display with output }, notices }

theorem redrawn_eq : Redrawn = Redisplayed Eq := by
  funext s t
  apply propext
  constructor
  · rintro ⟨output, notices, ho, rfl⟩
    exact ⟨output, s.display.policy, notices, ho, rfl, rfl⟩
  · rintro ⟨output, _, notices, ho, rfl, rfl⟩
    exact ⟨output, notices, ho, rfl⟩

theorem lenience_eq : Display.Policy.Lenience Eq where
  toEquivalence := eq_equivalence
  feature h feature on := congrArg (fun p => { p with negotiated := p.negotiated.set feature on }) h

theorem Redrawn.view_eq {s t : Session} (h : Redrawn s t) : s.view = t.view := by
  obtain ⟨_, _, _, rfl⟩ := h
  rfl

theorem equivalence_redrawn : Equivalence Redrawn := by
  rw [redrawn_eq]
  exact Redisplayed.equivalence lenience_eq

theorem likeness_redrawn : Likeness.Fed Redrawn := by
  rw [redrawn_eq]
  exact likeness_redisplayed lenience_eq

end Session

theorem Program.same_self {H : Type} (program : Program H) : Same Eq program program := by
  induction program with
  | finish handler result => exact .finish handler result
  | ask request next ih =>
    apply Same.ask
    rintro view _ rfl
    exact ih view

theorem Grammar.Node.blind_eq {H : Type} (grammar : Node (Action H)) : grammar.Blind Eq := by
  rintro path action - handler view _ parameters rfl
  exact Program.same_self _

def Input.unasked (events : List Event) : List Event :=
  events.filter (· ≠ .contextHelp)

namespace Interpreter

open Session (Alike Redrawn equivalence_redrawn likeness_redrawn)

variable {α σ H : Type} {i : Interpreter α σ} {s : Session}

theorem redrawn_contextHelp (i : Interpreter α σ) (s : Session) (state : σ) :
    Redrawn s (i.handle .contextHelp s state).1 ∧ (i.handle .contextHelp s state).2 = state := by
  have hp : i.handle .contextHelp s state =
      (s.present (s.briefing i.grammar ++ s.reprompt), state) := contextHelp_eq_present ..
  rw [hp]
  exact ⟨Session.present_eq s (s.briefing i.grammar ++ s.reprompt), rfl⟩

theorem skips_contextHelp (i : Interpreter α σ) : i.Skips Redrawn (· ≠ .contextHelp) := by
  intro event hk s state
  obtain rfl : event = .contextHelp := by simpa using hk
  exact redrawn_contextHelp i s state

theorem joined_of_unasked_eq (hp : Paired Redrawn Eq i i) {events events' : List Input.Event}
    (he : Input.unasked events = Input.unasked events') (s : Session) (state : σ) :
    Joined Redrawn Eq (i.handleAll events s state) (i.handleAll events' s state) :=
  joined_of_filter_eq likeness_redrawn.toLikeness equivalence_redrawn hp (skips_contextHelp i) he s
    state

theorem paired_redrawn (grammar : Node (Action H)) :
    Paired Redrawn Eq (ofGrammar grammar).logged (ofGrammar grammar).logged :=
  paired_logged (paired_ofGrammar likeness_redrawn Redrawn.view_eq grammar.blind_eq)

theorem deliver_of_unasked_eq (ho : i.Outward) (hu : i.Uniform) (hp : Paired Redrawn Eq i i)
    (hi : s.input.isSome) (hq : s.queue.pending = []) (state : σ)
    {offers offers' : List (List Arrival)} {reads reads' : List Bytes} (hr : s.Reads offers reads)
    (hr' : s.Reads offers' reads') (hb : [] ∉ reads) (hb' : [] ∉ reads')
    (he : Input.unasked (Input.events reads.flatten) =
      Input.unasked (Input.events reads'.flatten)) :
    (i.deliver offers s state).1.view = (i.deliver offers' s state).1.view ∧
      (i.deliver offers s state).1.effects = (i.deliver offers' s state).1.effects ∧
      (i.deliver offers s state).2 = (i.deliver offers' s state).2 := by
  obtain ⟨⟨p, q, ha, hd, ha'⟩, hs⟩ := deliver_of_filter_eq likeness_redrawn.toLikeness
    equivalence_redrawn hp (skips_contextHelp i) ho hu hi hq state hr hr' hb hb' he
  refine ⟨ha.view_eq.trans (hd.view_eq.trans ha'.view_eq), ?_, hs⟩
  rw [Session.redrawn_eq] at hd
  exact ha.effects_eq.trans (hd.effects_eq.trans ha'.effects_eq)

/-- To ask for help runs no action and changes nothing but the output, so that the actions run,
their parameters and all that they can see are what they are without it. -/
theorem contextHelp_transparent (grammar : Node (Action H)) :
    let i := (ofGrammar grammar).logged
    (∀ line action parameters normalized,
      grammar.parse line .help ≠ .ok (.execute action parameters normalized)) ∧
    (∀ s state,
      Redrawn s (i.handle .contextHelp s state).1 ∧ (i.handle .contextHelp s state).2 = state) ∧
    (∀ s state, Redrawn s ((busy grammar).logged.handle .contextHelp s state).1 ∧
      ((busy grammar).logged.handle .contextHelp s state).2 = state) ∧
    (∀ s state events events', Input.unasked events = Input.unasked events' →
      let p := i.handleAll events s state
      let q := i.handleAll events' s state
      Redrawn p.1 q.1 ∧ p.2 = q.2 ∧
        (ofGrammar grammar).handleAll events s state.1 = (p.1, p.2.1)) ∧
    (grammar.Within (fun request => request.reenters = false) →
      ∀ id e name options handler offers offers' reads reads',
        let s := Session.start id e name options
        s.Reads offers reads → s.Reads offers' reads' → [] ∉ reads → [] ∉ reads' →
        Input.unasked (Input.events reads.flatten) = Input.unasked (Input.events reads'.flatten) →
        let p := i.deliver offers s (handler, [])
        let q := i.deliver offers' s (handler, [])
        p.1.view = q.1.view ∧ p.1.effects = q.1.effects ∧ p.2 = q.2) := by
  refine ⟨grammar.parse_help_ne_execute, ?_, ?_, ?_, ?_⟩
  · exact redrawn_contextHelp _
  · exact redrawn_contextHelp _
  · intro s state events events' he
    have hj := joined_of_unasked_eq (paired_redrawn grammar) he s state
    exact ⟨hj.1, hj.2, handleAll_logged (ofGrammar grammar) events s state.1 state.2⟩
  · intro hg id e name options handler offers offers' reads reads' s hr hr' hb hb' he
    have hs : s.input.isSome ∧ s.queue.pending = [] := by
      obtain ⟨_, _, -, hs⟩ := Session.start_eq id e name options
      dsimp only [s]
      rw [hs]
      exact ⟨rfl, rfl⟩
    have ho := outward_logged (outward_ofGrammar hg)
    have hu := uniform_logged (uniform_ofGrammar hg)
    exact deliver_of_unasked_eq ho hu (paired_redrawn grammar) hs.1 hs.2 (handler, []) hr hr' hb hb'
      he

end Interpreter

namespace Script

def knowing : List Bytes :=
  [Text.utf8 "again\r\né"]

def wondering : List Bytes :=
  [Text.utf8 "?ag?a", Text.utf8 "in?\r\n?" ++ [0xC3], [0x3F, 0xA9]]

theorem contextHelp_transparent_wondering :
    (again.Within fun request => request.reenters = false) ∧
      let i := (Interpreter.ofGrammar again).logged
      let p := i.deliver (knowing.map fun bytes => [.data bytes]) asking ({}, [])
      let q := i.deliver (wondering.map fun bytes => [.data bytes]) asking ({}, [])
      p.1.view = q.1.view ∧ p.2 = q.2 ∧ q.2.1 = { count := 1, calls := [("again", [])] } ∧
        q.1.editor.buffer = Text.utf8 "é" ∧ q.1.editor.history.entries = [Text.utf8 "again"] ∧
        p.1.written ≠ q.1.written := by
  have hg : again.Within fun request => request.reenters = false := by
    apply Node.within_ofList
    rw [List.forall_mem_singleton]
    exact within_action (fun _ => rfl) (by simp [Request.reenters]) _
  have hr : asking.Reads (knowing.map fun bytes => [.data bytes]) knowing := by
    rintro c ⟨⟩
    rfl
  have hr' : asking.Reads (wondering.map fun bytes => [.data bytes]) wondering := by
    rintro c ⟨⟩
    rfl
  have hb : [] ∉ knowing ∧ [] ∉ wondering := by decide
  have he : Input.unasked (Input.events knowing.flatten) =
      Input.unasked (Input.events wondering.flatten) := by decide +kernel
  obtain ⟨-, -, -, -, hd⟩ := Interpreter.contextHelp_transparent again
  obtain ⟨hv, -, hl⟩ := hd hg 1 _ "rift" {} {} _ _ _ _ hr hr' hb.1 hb.2 he
  refine ⟨hg, hv, hl, ?_, ?_, ?_, ?_⟩ <;> decide +kernel

end Script

end Vty
