import Vty.Proofs.Session.Endurance
import Vty.Proofs.Session.Redisplay
import Vty.Proofs.Session.Twins

namespace Vty

open Display (Policy)
open Grammar (Mode Node)
open Telnet (Feature)

namespace Input

def Event.asks (feature : Feature) : Event → Option Bool
  | .telnet .enable option => if option = feature.code then some true else none
  | .telnet .disable option => if option = feature.code then some false else none
  | _ => none

def lastAsked (feature : Feature) (events : List Event) : Option Bool :=
  (events.filterMap (Event.asks feature)).getLast?

def Event.isTelnet : Event → Bool
  | .telnet _ _ => true
  | _ => false

def keyed (events : List Event) : List Event :=
  events.filter (!·.isTelnet)

theorem getD_lastAsked_cons (feature : Feature) (event : Event) (events : List Event) (on : Bool) :
    (lastAsked feature (event :: events)).getD on =
      (lastAsked feature events).getD ((event.asks feature).getD on) := by
  unfold lastAsked
  cases ha : event.asks feature with
  | none => rw [List.filterMap_cons_none ha, Option.getD_none]
  | some asked =>
    rw [List.filterMap_cons_some ha, List.getLast?_cons, Option.getD_some, Option.getD_some]

end Input

def Display.Policy.Renegotiated (p q : Policy) : Prop :=
  ∃ negotiated, q = { p with negotiated }

def View.Renegotiated (v w : View) : Prop :=
  ∃ negotiated, w = { v with negotiated }

theorem Display.Policy.lenience_renegotiated : Lenience Renegotiated where
  refl p := ⟨p.negotiated, rfl⟩
  symm := by
    rintro p _ ⟨negotiated, rfl⟩
    exact ⟨p.negotiated, rfl⟩
  trans := by
    rintro p _ _ ⟨_, rfl⟩ ⟨negotiated, rfl⟩
    exact ⟨negotiated, rfl⟩
  feature := by
    rintro p _ ⟨negotiated, rfl⟩ feature on
    exact ⟨negotiated.set feature on, rfl⟩

namespace Session

variable {s t : Session}

theorem apart_negotiated : Apart Session.negotiated where
  present s commands := by
    obtain ⟨_, _, -, hs⟩ := present_eq s commands
    rw [hs]
    rfl
  note _ _ := rfl

theorem Redisplayed.renegotiated (h : Redisplayed Policy.Renegotiated s t) :
    s.view.Renegotiated t.view :=
  ⟨t.negotiated, h.view_eq.2⟩

theorem negotiated_start (id : Nat) (e : Endpoint) (name : String) (options : Options) :
    (start id e name options).negotiated = {} := by
  obtain ⟨_, _, -, hs⟩ := start_eq id e name options
  rw [hs]
  rfl

end Session

namespace Interpreter

open Session (Redisplayed apart_negotiated likeness_redisplayed)

variable {α σ β H : Type} {i : Interpreter α σ}

theorem contains_negotiate (s : Session) (verb : Telnet.Verb) (option : UInt8) (feature : Feature) :
    (negotiate s verb option).negotiated.contains feature =
      ((Input.Event.telnet verb option).asks feature).getD (s.negotiated.contains feature) := by
  have hc : option = feature.code ↔ Feature.ofCode? option = some feature :=
    Feature.ofCode?_eq_some_iff.symm
  unfold negotiate
  cases hf : Feature.ofCode? option with
  | none =>
    rw [hf] at hc
    cases verb <;> simp [Input.Event.asks, hc]
  | some found =>
    rw [hf, Option.some_inj] at hc
    have hs (on : Bool) : (negotiate.set verb s found on).negotiated.contains feature =
        if found = feature then on else s.negotiated.contains feature :=
      Telnet.Features.contains_set s.negotiated found feature on
    cases verb with
    | enable =>
      rw [hs, Input.Event.asks]
      by_cases h : found = feature <;> simp [hc, h]
    | disable =>
      rw [hs, Input.Event.asks]
      by_cases h : found = feature <;> simp [hc, h]
    | _ => rfl

theorem contains_handle (hi : i.Keeps Session.negotiated) (event : Input.Event) (s : Session)
    (state : σ) (feature : Feature) :
    (i.handle event s state).1.negotiated.contains feature =
      (event.asks feature).getD (s.negotiated.contains feature) := by
  by_cases ht : ∃ verb option, event = .telnet verb option
  · obtain ⟨verb, option, rfl⟩ := ht
    exact contains_negotiate s verb option feature
  · have hk := kept_handle apart_negotiated (fun _ _ => rfl) hi
      (fun verb option h => ht ⟨verb, option, h⟩) s state
    have ha : event.asks feature = none := by
      cases event with
      | telnet verb option => exact absurd ⟨verb, option, rfl⟩ ht
      | _ => rfl
    rw [hk, ha, Option.getD_none]

theorem contains_handleAll (hi : i.Keeps Session.negotiated) {events : List Input.Event}
    {s : Session} {state : σ} (ho : (i.handleAll events s state).1.closed = false)
    (feature : Feature) :
    (i.handleAll events s state).1.negotiated.contains feature =
      (Input.lastAsked feature events).getD (s.negotiated.contains feature) := by
  induction events generalizing s state with
  | nil => rfl
  | cons event events ih =>
    have hs : ¬s.closed = true := Bool.eq_false_iff.mp (open_of_handleAll ho)
    rw [handleAll, if_neg hs] at ho ⊢
    rw [ih ho, contains_handle hi, Input.getD_lastAsked_cons]

theorem negotiated_perform {α : Type} (grammar : Node α) {request : Request}
    (hr : request.reenters = false) (s : Session) :
    ((busy grammar).perform request s ()).1.negotiated = s.negotiated := by
  cases request with
  | print message => exact apart_negotiated.course.print s message
  | printPrompt => exact apart_negotiated.present s _
  | execute line mode =>
    exact kept_execute apart_negotiated (keeps_busy _ grammar) line mode s ()
  | processInput => cases hr
  | readable => cases hr
  | close => exact congrArg View.negotiated (Session.view_close s)
  | _ => rfl

theorem keeps_negotiated {grammar : Node (Action H)}
    (hg : grammar.Within fun request => request.reenters = false) :
    (ofGrammar grammar).Keeps Session.negotiated :=
  keeps_ofGrammar apart_negotiated (fun _ hr => negotiated_perform grammar hr) hg

theorem keeps_logged {f : Session → β} (hi : i.Keeps f) : i.logged.Keeps f :=
  fun path action hl parameters s state => hi path action hl parameters s state.1

theorem redisplayed_negotiate (s : Session) (verb : Telnet.Verb) (option : UInt8) :
    Redisplayed Policy.Renegotiated s (negotiate s verb option) := by
  have hs (feature : Feature) (on : Bool) :
      Redisplayed Policy.Renegotiated s (negotiate.set verb s feature on) :=
    ⟨s.display.output, _, _, rfl, ⟨s.negotiated.set feature on, rfl⟩, rfl⟩
  unfold negotiate
  split
  · exact hs _ true
  · exact hs _ false
  · exact .refl Policy.lenience_renegotiated s

theorem skips_telnet (i : Interpreter α σ) :
    i.Skips (Redisplayed Policy.Renegotiated) (!·.isTelnet) := by
  intro event hk s state
  cases event with
  | telnet verb option => exact ⟨redisplayed_negotiate s verb option, rfl⟩
  | _ => cases hk

theorem paired_renegotiated {grammar : Node (Action H)} (hb : grammar.Blind View.Renegotiated) :
    Paired (Redisplayed Policy.Renegotiated) Eq (ofGrammar grammar).logged
      (ofGrammar grammar).logged :=
  paired_logged (paired_ofGrammar (likeness_redisplayed Policy.lenience_renegotiated)
    Redisplayed.renegotiated hb)

theorem contains_handleAll_start (hi : i.Keeps Session.negotiated) {id : Nat} {e : Endpoint}
    {name : String} {options : Session.Options} {state : σ} {events : List Input.Event}
    (ho : (i.handleAll events (.start id e name options) state).1.closed = false)
    (feature : Feature) :
    (i.handleAll events (.start id e name options) state).1.negotiated.contains feature = true ↔
      Input.lastAsked feature events = some true := by
  have hn : ({} : Telnet.Features).contains feature = false := by cases feature <;> rfl
  rw [contains_handleAll hi ho, Session.negotiated_start, hn]
  cases Input.lastAsked feature events <;> simp

/-- Options that are asked for amid what is typed have no part in it, and each is as it was asked
for last. -/
theorem negotiation_aside {grammar : Node (Action H)}
    (hg : grammar.Within fun request => request.reenters = false)
    (hb : grammar.Blind View.Renegotiated) :
    let i := (ofGrammar grammar).logged
    (∀ s state events,
      let p := i.handleAll events s state
      let q := i.handleAll (Input.keyed events) s state
      (p.1.closed = false → ∀ feature, p.1.negotiated.contains feature =
        (Input.lastAsked feature events).getD (s.negotiated.contains feature)) ∧
      Redisplayed Policy.Renegotiated p.1 q.1 ∧ p.1.closed = q.1.closed ∧
        p.1.editor = q.1.editor ∧ p.2 = q.2 ∧
        (ofGrammar grammar).handleAll events s state.1 = (p.1, p.2.1)) ∧
    (∀ id e name options state events,
      let p := i.handleAll events (.start id e name options) state
      p.1.closed = false → ∀ feature,
        p.1.negotiated.contains feature = true ↔ Input.lastAsked feature events = some true) ∧
    ∀ id e name options handler offers offers' reads reads',
      let s := Session.start id e name options
      s.Reads offers reads → s.Reads offers' reads' → [] ∉ reads → [] ∉ reads' →
      Input.keyed (Input.events reads.flatten) = Input.keyed (Input.events reads'.flatten) →
      let p := i.deliver offers s (handler, [])
      let q := i.deliver offers' s (handler, [])
      (p.1.closed = false → ∀ feature, p.1.negotiated.contains feature = true ↔
        Input.lastAsked feature (Input.events reads.flatten) = some true) ∧
      p.1.closed = q.1.closed ∧ p.1.editor = q.1.editor ∧ p.2 = q.2 := by
  intro i
  have hk : i.Keeps Session.negotiated := keeps_logged (keeps_negotiated hg)
  have hR := (likeness_redisplayed Policy.lenience_renegotiated).toLikeness
  have he := Redisplayed.equivalence Policy.lenience_renegotiated
  have hp := paired_renegotiated hb
  refine ⟨?_, ?_, ?_⟩
  · intro s state events
    have hj := joined_filter hR he hp (skips_telnet i) events (he.refl s) state
    refine ⟨?_, hj.1, hR.closed hj.1, hR.editor hj.1, hj.2, ?_⟩
    · intro ho feature
      exact contains_handleAll hk ho feature
    · exact handleAll_logged (ofGrammar grammar) events s state.1 state.2
  · intro id e name options state events p ho feature
    exact contains_handleAll_start hk ho feature
  · intro id e name options handler offers offers' reads reads' s hr hr' hb hb' hf
    have hs : s.input.isSome ∧ s.queue.pending = [] := by
      obtain ⟨_, _, -, hs⟩ := Session.start_eq id e name options
      dsimp only [s]
      rw [hs]
      exact ⟨rfl, rfl⟩
    have ho := outward_logged (outward_ofGrammar hg)
    have hu := uniform_logged (uniform_ofGrammar hg)
    obtain ⟨⟨p, q, ha, hd, ha'⟩, hc⟩ := deliver_of_filter_eq hR he hp (skips_telnet i) ho hu hs.1
      hs.2 (handler, []) hr hr' hb hb' hf
    refine ⟨?_, ha.closed_eq.trans ((hR.closed hd).trans ha'.closed_eq), ?_, hc⟩
    · intro hopen feature
      have hv := (deliver_agree_events ho hu (handler, []) hs.1 hs.2 hr hb).1.view_eq
      have hn : (i.deliver offers s (handler, [])).1.negotiated = _ := congrArg View.negotiated hv
      rw [hn]
      exact contains_handleAll_start hk ((congrArg View.closed hv).symm.trans hopen) feature
    · exact (congrArg View.editor ha.view_eq).trans
        ((hR.editor hd).trans (congrArg View.editor ha'.view_eq))

end Interpreter

namespace Script

def repeats : Node (Action Ledger) :=
  .ofList [(.parameter "word", .action (action "repeat" [.printParameter "word"]))]

def wavering : List Input.Event :=
  [.telnet .enable 3, .insert 0x68, .telnet .enable 1, .insert 0x6F, .telnet .disable 1,
    .telnet .will 1, .endOfLine, .insert 0x78, .telnet .enable 1, .telnet .enable 24,
    .telnet .disable 3, .insert 0x79, .telnet .wont 1, .cursorLeft]

theorem negotiation_aside_wavering :
    (repeats.Within fun request => request.reenters = false) ∧
      repeats.Blind View.Renegotiated ∧
      let i := (Interpreter.ofGrammar repeats).logged
      let p := i.handleAll wavering unread ({}, [])
      let q := i.handleAll (Input.keyed wavering) unread ({}, [])
      p.1.negotiated = { echo := true } ∧ p.1.closed = false ∧ p.1.editor = q.1.editor ∧
        p.2 = q.2 ∧ q.1.editor.buffer = Text.utf8 "xy" ∧ q.1.editor.cursor = 1 ∧
        q.2.1.calls = [("repeat", [("word", "ho")])] ∧ q.1.negotiated = {} ∧
        p.1.written ≠ q.1.written := by
  have hg : repeats.Within fun request => request.reenters = false := by
    apply Node.within_ofList
    rw [List.forall_mem_singleton]
    exact within_action (fun _ => rfl) (by simp) _
  have hb : repeats.Blind View.Renegotiated := by
    apply Node.blind_ofList
    rw [List.forall_mem_singleton]
    exact blind_action _ _ _
  have ha := (Interpreter.negotiation_aside hg hb).1 unread ({}, []) wavering
  refine ⟨hg, hb, ?_, ?_, ha.2.2.2.1, ha.2.2.2.2.1, ?_, ?_, ?_, ?_, ?_⟩ <;> decide +kernel

end Script

end Vty
