import Vty.Proofs.Grammar.Derivation

namespace Vty.Grammar

variable {α : Type}

/-- Reading may lead from a node to another; the segments are what it takes up on the way. -/
inductive Node.Reaches : Node α → List Segment → Node α → Prop
  | here (node : Node α) : Reaches node [] node
  | step {children : Children α} {key : Key} {child target : Node α} {tokens : List String}
      {segments : List Segment} :
      (key, child) ∈ children → children.Takes key tokens → Reaches child segments target →
      Reaches (.branch children) ((key, tokens) :: segments) target

inductive Node.Stops : Node α → List String → Prop
  | ended (node : Node α) : Stops node []
  | extra (a : α) (token : String) (rest : List String) : Stops (.action a) (token :: rest)
  | valueless {children : Children α} {token name : String} {child : Node α} :
      children.choose token = .parameter name child → Stops (.branch children) [token]
  | several {children : Children α} {token : String} {entries : List (Key × Node α)}
      (rest : List String) :
      children.choose token = .several entries → Stops (.branch children) (token :: rest)
  | unknown {children : Children α} {token : String} (rest : List String) :
      children.choose token = .unknown → Stops (.branch children) (token :: rest)

namespace Node

theorem Everywhere.reached {P : Children α → Prop} {node target : Node α}
    {segments : List Segment} (h : node.Everywhere P) (hr : node.Reaches segments target) :
    target.Everywhere P := by
  induction hr with
  | here => exact h
  | step hm _ _ ih => exact ih (h.child hm)

theorem read_of_reaches {node target : Node α} {segments : List Segment}
    (h : node.Reaches segments target) (ho : node.Ordered) (mode : Mode) (rest : List String)
    (done : Progress) :
    node.read mode (Segment.tokens segments ++ rest) done =
      target.read mode rest (done.after segments) := by
  induction h generalizing done with
  | here => rw [Progress.after_nil, Segment.tokens, List.flatMap_nil, List.nil_append]
  | @step children key child target tokens segments hm ht _ ih =>
    have hs : Segment.tokens ((key, tokens) :: segments) = tokens ++ Segment.tokens segments := rfl
    rw [hs, List.append_assoc]
    rcases Children.choose_of_takes ho.here.nodup hm ht with
      ⟨word, token, rfl, rfl, hc⟩ | ⟨name, token, value, rfl, rfl, hc⟩ | ⟨name, value, rfl, rfl, hc⟩
    · rw [Progress.after_keyword, List.singleton_append, read, hc]
      exact ih (ho.child hm) _
    · rw [Progress.after_parameter done name value _ _ rfl, List.cons_append, read, hc]
      exact ih (ho.child hm) _
    · rw [Progress.after_parameter done name value _ _ rfl, List.singleton_append, read, hc]
      exact ih (ho.child hm) _

theorem exists_reaches {node : Node α} (ho : node.Ordered) (tokens : List String) :
    ∃ segments target rest, node.Reaches segments target ∧ target.Stops rest ∧
      tokens = Segment.tokens segments ++ rest := by
  -- The recursion is that of reading; neither the mode nor what has been read matters to it.
  obtain ⟨done⟩ : Nonempty Progress := ⟨{}⟩
  fun_induction read Mode.execute tokens node done with
  | case1 node => exact ⟨[], node, [], .here node, .ended node, rfl⟩
  | case2 token rest a => exact ⟨[], _, _, .here _, .extra a token rest, rfl⟩
  | case3 token rest children done word child hc ih =>
    obtain ⟨hm, ht⟩ := Children.takes_of_choose_keyword ho.here.nodup hc
    obtain ⟨segments, target, left, hr, hs, rfl⟩ := ih (ho.child hm)
    exact ⟨_, target, left, .step hm ht hr, hs, rfl⟩
  | case4 token children done name child hc =>
    exact ⟨[], _, _, .here _, .valueless hc, rfl⟩
  | case5 token children done name child hc value rest ih =>
    obtain ⟨hm, ht⟩ := Children.takes_of_choose_parameter ho.here.nodup hc value
    obtain ⟨segments, target, left, hr, hs, rfl⟩ := ih (ho.child hm)
    exact ⟨_, target, left, .step hm ht hr, hs, rfl⟩
  | case6 token rest children done name child hc ih =>
    obtain ⟨hm, ht⟩ := Children.takes_of_choose_value ho.here.nodup hc
    obtain ⟨segments, target, left, hr, hs, rfl⟩ := ih (ho.child hm)
    exact ⟨_, target, left, .step hm ht hr, hs, rfl⟩
  | case7 token rest children done entries hc =>
    exact ⟨[], _, _, .here _, .several rest hc, rfl⟩
  | case8 token rest children done hc =>
    exact ⟨[], _, _, .here _, .unknown rest hc, rfl⟩

end Node

end Vty.Grammar
