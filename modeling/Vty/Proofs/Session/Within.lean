import Vty.Commands
import Vty.Proofs.Grammar.Tree
import Vty.Session.Script

namespace Vty

open Grammar (Node)

variable {H : Type} {allowed permitted : Request → Prop}

namespace Request

def reenters : Request → Bool
  | .processInput | .readable => true
  | _ => false

def lineWise : Request → Bool
  | .printPrompt | .processInput | .readable => false
  | _ => true

theorem reenters_of_lineWise {request : Request} (h : request.lineWise = true) :
    request.reenters = false := by
  cases request <;> first | rfl | cases h

end Request

namespace Program

/-- The program makes only requests that are allowed, whatever it sees. -/
def Within (allowed : Request → Prop) : Program H → Prop
  | .finish _ _ => True
  | .ask request next => allowed request ∧ ∀ view, (next view).Within allowed

theorem Within.mono {program : Program H} (hp : program.Within allowed)
    (h : ∀ request, allowed request → permitted request) : program.Within permitted := by
  induction program with
  | finish => trivial
  | ask request next ih => exact ⟨h request hp.1, fun view => ih view (hp.2 view)⟩

theorem within_done (handler : H) : (Program.done handler).Within allowed :=
  trivial

theorem within_requests {program : Program H} (hp : program.Within allowed)
    {requests : List Request} (hr : ∀ request ∈ requests, allowed request) :
    (Program.requests requests program).Within allowed := by
  induction requests with
  | nil => exact hp
  | cons request rest ih =>
    rw [List.forall_mem_cons] at hr
    exact ⟨hr.1, fun _ => ih hr.2⟩

theorem within_prints {program : Program H} (hp : program.Within allowed)
    (ha : ∀ message, allowed (.print message)) (messages : List String) :
    (Program.prints messages program).Within allowed := by
  apply within_requests hp
  intro request hm
  obtain ⟨message, -, rfl⟩ := List.mem_map.mp hm
  exact ha message

end Program

namespace Grammar.Node

section

variable {α : Type} {P : α → Prop}

def Offers (P : α → Prop) (node : Node α) : Prop :=
  ∀ path a, node.Leads path a → P a

theorem offers_action {a : α} (h : P a) : (Node.action a).Offers P := by
  rintro path _ ⟨⟩
  exact h

theorem offers_ofList {entries : List (Key × Node α)} (h : ∀ entry ∈ entries, entry.2.Offers P) :
    (Node.ofList entries).Offers P := by
  rintro path a (_ | ⟨hm, hl⟩)
  exact h _ (Children.mem_of_mem_ofList hm) _ a hl

end

def Within (allowed : Request → Prop) (grammar : Node (Action H)) : Prop :=
  ∀ path action, grammar.Leads path action →
    ∀ handler view parameters, (action handler view parameters).Within allowed

theorem Within.mono {grammar : Node (Action H)} (hg : grammar.Within allowed)
    (h : ∀ request, allowed request → permitted request) : grammar.Within permitted :=
  fun path action hl handler view parameters => (hg path action hl handler view parameters).mono h

theorem within_action {action : Action H}
    (h : ∀ handler view parameters, (action handler view parameters).Within allowed) :
    (Node.action action).Within allowed :=
  offers_action h

theorem within_ofList {entries : List (Key × Node (Action H))}
    (h : ∀ entry ∈ entries, entry.2.Within allowed) : (Node.ofList entries).Within allowed :=
  offers_ofList h

end Grammar.Node

namespace Daemon

def actions : List (Action Daemon) :=
  [showVersion, showSessions, showHistory, showOptions, setName, echo, exit, clearHistory]

theorem offers_branch {P : Action Daemon → Prop} {entries : List (String × Node (Action Daemon))}
    (h : ∀ entry ∈ entries, entry.2.Offers P) : (branch entries).Offers P := by
  apply Node.offers_ofList
  intro entry hm
  obtain ⟨named, hn, rfl⟩ := List.mem_map.mp hm
  exact h named hn

theorem offers_grammar {P : Action Daemon → Prop} (h : ∀ action ∈ actions, P action) :
    grammar.Offers P := by
  simp only [actions, List.forall_mem_cons, List.not_mem_nil, false_imp_iff, implies_true,
    and_true] at h
  obtain ⟨hv, hs, hh, ho, hn, he, hx, hc⟩ := h
  have hp {action : Action Daemon} (h : P action) : (Node.action action).Offers P :=
    Node.offers_action h
  unfold grammar
  refine offers_branch ?_
  simp only [List.forall_mem_cons, List.not_mem_nil, false_imp_iff, implies_true, and_true]
  refine ⟨offers_branch ?_, offers_branch ?_, offers_branch ?_, hp hx, offers_branch ?_⟩
  · simp only [List.forall_mem_cons, List.not_mem_nil, false_imp_iff, implies_true, and_true]
    exact ⟨hp hv, hp hs, hp hh, hp ho⟩
  · rw [List.forall_mem_singleton]
    apply offers_branch
    rw [List.forall_mem_singleton]
    exact hp hn
  · rw [List.forall_mem_singleton]
    exact hp he
  · rw [List.forall_mem_singleton]
    exact hp hc

theorem within_setName (hp : ∀ message, allowed (.print message))
    (hn : ∀ name, allowed (.setName name)) (d : Daemon) (view : View)
    (parameters : Grammar.Parameters) : (setName d view parameters).Within allowed := by
  unfold setName
  split
  · trivial
  · exact Program.within_requests (Program.within_done d) (by simp [hp, hn])

theorem within_echo (hp : ∀ message, allowed (.print message)) (d : Daemon) (view : View)
    (parameters : Grammar.Parameters) : (echo d view parameters).Within allowed := by
  unfold echo
  split
  · trivial
  · exact Program.within_prints (Program.within_done d) hp _

theorem within_grammar (hp : ∀ message, allowed (.print message))
    (hn : ∀ name, allowed (.setName name)) (hh : allowed (.history .clear))
    (hc : allowed .close) : grammar.Within allowed := by
  apply offers_grammar
  simp only [actions, List.forall_mem_cons, List.not_mem_nil, false_imp_iff, implies_true, and_true]
  have hs (messages : List String) (d : Daemon) :
      (Program.prints messages (.done d)).Within allowed :=
    Program.within_prints (Program.within_done d) hp messages
  refine ⟨fun d _ _ => hs _ d, fun d _ _ => hs _ d, fun d _ _ => hs _ d, fun d _ _ => hs _ d,
    within_setName hp hn, within_echo hp, ?_, ?_⟩
  · exact fun d _ _ => Program.within_requests (Program.within_done d) (by simp [hc])
  · exact fun d _ _ => Program.within_requests (Program.within_done d) (by simp [hp, hh])

end Daemon

namespace Script

theorem within_action (hp : ∀ message, allowed (.print message)) {steps : List Step}
    (hs : ∀ request, .ask request ∈ steps → allowed request) (label : String) :
    (Node.action (action label steps)).Within allowed := by
  apply Node.within_action
  intro ledger view parameters
  unfold action
  generalize ({ ledger with calls := ledger.calls ++ [(label, parameters)] } : Ledger) = ledger
  induction steps generalizing ledger with
  | nil => trivial
  | cons step steps ih =>
    have hr := ih fun request hm => hs request (List.mem_cons_of_mem _ hm)
    cases step with
    | ask request => exact ⟨hs request List.mem_cons_self, fun _ => hr _⟩
    | printParameter name => exact ⟨hp _, fun _ => hr _⟩
    | count => exact ⟨hp _, fun _ => hr _⟩
    | fail failure => trivial

end Script

end Vty
