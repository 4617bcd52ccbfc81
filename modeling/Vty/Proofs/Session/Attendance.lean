import Vty.Proofs.Session.Lifecycle
import Vty.Proofs.Session.Paired

namespace Vty

open Grammar (Node Parameters)

variable {α σ H : Type} {P : H → Prop}

namespace Program

def Ends (P : H → Prop) : Program H → Prop
  | .finish handler _ => P handler
  | .ask _ next => ∀ view, (next view).Ends P

theorem ends_done {handler : H} (h : P handler) : (Program.done handler).Ends P :=
  h

theorem ends_requests {program : Program H} (h : program.Ends P) (requests : List Request) :
    (Program.requests requests program).Ends P := by
  induction requests with
  | nil => exact h
  | cons request requests ih => exact fun _ => ih

theorem Ends.run {program : Program H} (h : program.Ends P) (grammar : Node α) (s : Session) :
    P (program.run grammar s).2.1 := by
  induction program generalizing s with
  | finish handler result => exact h
  | ask request next ih => exact ih _ (h _) _

theorem changes_run (grammar : Node (Action H)) (program : Program H) (s : Session) :
    Session.Changes s (program.run grammar s).1 :=
  (program.runs grammar "" s []).moments.changes

end Program

theorem Daemon.ends_grammar (P : Daemon → Prop) : grammar.Offers fun action =>
    ∀ d view parameters, P d → (action d view parameters).Ends P := by
  apply offers_grammar
  simp only [actions, List.forall_mem_cons, List.not_mem_nil, false_imp_iff, implies_true, and_true]
  have hr (requests : List Request) (d : Daemon) (h : P d) :
      (Program.requests requests (.done d)).Ends P :=
    Program.ends_requests (Program.ends_done h) requests
  refine ⟨fun d _ _ => hr _ d, fun d _ _ => hr _ d, fun d _ _ => hr _ d, fun d _ _ => hr _ d,
    ?_, ?_, fun d _ _ => hr _ d, fun d _ _ => hr _ d⟩
  · intro d view parameters h
    unfold setName
    split
    · exact h
    · exact hr _ d h
  · intro d view parameters h
    unfold echo
    split
    · exact h
    · exact hr _ d h

namespace Session

variable {s t : Session}

theorem Changes.id_eq (h : Changes s t) : t.id = s.id := by
  induction h with
  | refl => rfl
  | tail _ hc ih =>
    cases hc with
    | step hs =>
      cases hs with
      | present commands =>
        obtain ⟨_, _, -, hp⟩ := present_eq _ commands
        rw [hp]
        exact ih
      | close => exact (congrArg View.id (view_close _)).trans ih
      | _ => exact ih
    | _ => exact ih

def Effect.Aside : Effect → Prop
  | .registered _ _ | .unregistered _ => False
  | _ => True

theorem Changes.effects (h : Changes s t) (ho : s.closed = false) :
    (t.closed = false → t.effects = s.effects) ∧
      (t.closed = true → ∃ rest, t.effects = s.effects ++ .unregistered s.id :: rest ∧
        ∀ effect ∈ rest, effect.Aside) := by
  induction h with
  | refl => exact ⟨fun _ => rfl, fun hc => absurd (ho.symm.trans hc) nofun⟩
  | @tail t u ht hc ih =>
    cases hc with
    | step hs =>
      cases hs with
      | present commands =>
        obtain ⟨_, _, -, hp⟩ := present_eq t commands
        rw [hp]
        exact ih
      | close =>
        cases hc : t.closed with
        | true =>
          rw [close_of_closed hc]
          exact ih
        | false =>
          refine ⟨fun hn => absurd ((closed_close t).symm.trans hn) nofun, fun _ => ?_⟩
          obtain ⟨notices, hs⟩ := close_of_open hc
          rw [hs, ← ih.1 hc, ← Changes.id_eq ht]
          cases t.connection with
          | terminal => exact ⟨_, rfl, by simp [Effect.Aside]⟩
          | network =>
            refine ⟨_, rfl, fun effect hm => ?_⟩
            rcases List.mem_append.mp hm with hm | hm
            · obtain ⟨handle, -, rfl⟩ := Option.map_eq_some_iff.mp (Option.mem_toList.mp hm)
              trivial
            · split at hm
              · cases hm
              · obtain rfl := List.mem_singleton.mp hm
                trivial
      | _ => exact ih
    | _ => exact ih

def Itself (id : Nat) (s t : Session) : Prop :=
  s = t ∧ s.id = id

theorem Itself.changes {id : Nat} (h : Itself id s s) (hc : Changes s t) : Itself id t t :=
  ⟨rfl, hc.id_eq.trans h.2⟩

theorem likeness_itself (id : Nat) : Likeness.Fed (Itself id) where
  closed h := congrArg Session.closed h.1
  editor h := congrArg Session.editor h.1
  name h := congrArg Session.name h.1
  present := by
    rintro s _ ⟨rfl, h⟩ commands
    exact Itself.changes ⟨rfl, h⟩ (steps_present s commands).changes
  note := by
    rintro s _ ⟨rfl, h⟩ notice
    exact ⟨rfl, h⟩
  rename := by
    rintro s _ ⟨rfl, h⟩ name
    exact ⟨rfl, h⟩
  replace := by
    rintro s _ ⟨rfl, h⟩ editor
    exact ⟨rfl, h⟩
  feature := by
    rintro s _ ⟨rfl, h⟩ feature on
    exact ⟨rfl, h⟩
  close := by
    rintro s _ ⟨rfl, h⟩
    exact Itself.changes ⟨rfl, h⟩ (.single (.step (.close s)))
  pull := by
    rintro s _ ⟨rfl, h⟩
    cases hp : s.pull with
    | none => exact .none
    | some found => exact .some ⟨rfl, Itself.changes ⟨rfl, h⟩ (changes_pull hp)⟩
  intake := by
    rintro s _ ⟨rfl, h⟩
    exact ⟨Itself.changes ⟨rfl, h⟩ (changes_intake s), rfl⟩

end Session

namespace Interpreter

open Session (Changes Itself likeness_itself)

/-- Writes down, of every action that is run, the session that runs it and what it is run over. -/
def attended (i : Interpreter α σ) : Interpreter α (σ × List (Nat × σ)) where
  grammar := i.grammar
  run action parameters s state :=
    let r := i.run action parameters s state.1
    (r.1, (r.2.1, state.2 ++ [(s.id, state.1)]), r.2.2)

theorem thrifty_attended {i : Interpreter α σ} (hi : i.Thrifty) : i.attended.Thrifty :=
  fun action parameters s state => hi action parameters s state.1

def Attending (id : Nat) (P : H → Prop) (x : H × List (Nat × H)) (handler : H) : Prop :=
  x.1 = handler ∧ P handler ∧ ∀ call ∈ x.2, call.1 = id ∧ P call.2

theorem paired_attended (id : Nat) {grammar : Node (Action H)}
    (hg : grammar.Offers fun action =>
      ∀ handler view parameters, P handler → (action handler view parameters).Ends P) :
    Paired (Itself id) (Attending id P) (ofGrammar grammar).attended (ofGrammar grammar) where
  grammar := rfl
  run := by
    rintro path action hl parameters s _ ⟨handler, calls⟩ _ ⟨rfl, hs⟩ ⟨rfl, hp, hc⟩
    have he := (hg path action hl handler s.view parameters hp).run grammar s
    have hi := Program.changes_run grammar (action handler s.view parameters) s
    refine ⟨⟨Itself.changes ⟨rfl, hs⟩ hi, rfl, he, ?_⟩, rfl⟩
    intro call hm
    rcases List.mem_append.mp hm with hm | hm
    · exact hc call hm
    · obtain rfl := List.mem_singleton.mp hm
      exact ⟨hs, hp⟩

theorem readable_attended {grammar : Node (Action H)}
    (hg : grammar.Offers fun action =>
      ∀ handler view parameters, P handler → (action handler view parameters).Ends P)
    (s : Session) {handler : H} (hp : P handler) :
    let p := (ofGrammar grammar).attended.readable s (handler, [])
    let q := (ofGrammar grammar).readable s handler
    (p.1, p.2.1) = q ∧ P q.2 ∧ ∀ call ∈ p.2.2, call.1 = s.id ∧ P call.2 := by
  intro p q
  have ht := thrifty_ofGrammar grammar
  have hj := joined_readable (likeness_itself s.id) (paired_attended s.id hg)
    (thrifty_attended ht) ht ⟨rfl, rfl⟩ (⟨rfl, hp, nofun⟩ : Attending s.id P (handler, []) handler)
  exact ⟨Prod.ext hj.1.1 hj.2.1, hj.2.2⟩

theorem changes_readable (grammar : Node (Action H)) (s : Session) (handler : H) :
    Changes s ((ofGrammar grammar).readable s handler).1 :=
  (Machine.moments_perform (m := ⟨s, some handler, []⟩) rfl rfl .readable).changes

theorem readable_of_closed {i : Interpreter α σ} {s : Session} (h : s.closed = true) (state : σ) :
    i.readable s state = (s, state) := by
  rw [readable_eq, Session.intake_of_closed h]
  rfl

end Interpreter

end Vty
