import Vty.Proofs.Grammar.Choice
import Vty.Proofs.Text.Tokens

namespace Vty.Grammar

variable {α : Type}

/-- The tokens that a key takes up at a branch. -/
inductive Children.Takes (children : Children α) : Key → List String → Prop
  | keyword (word : String) : Takes children (.keyword word) [word]
  | keywordShort {word token : String} :
      children.Abbreviates token (.keyword word) → Takes children (.keyword word) [token]
  | parameter {name : String} (value : String) :
      .keyword name ∉ children.keys → Takes children (.parameter name) [name, value]
  | parameterShort {name token : String} (value : String) :
      children.Abbreviates token (.parameter name) → Takes children (.parameter name) [token, value]
  /-- The only parameter of a branch takes a value for which nothing else stands. -/
  | value {name value : String} :
      (∀ key ∈ children.keys, key.abbreviatedBy value = false) →
      (∀ other, .parameter other ∈ children.keys ↔ other = name) →
      Takes children (.parameter name) [value]

abbrev Segment := Key × List String

namespace Segment

def tokens (segments : List Segment) : List String :=
  segments.flatMap Prod.snd

def binding? : Segment → Option (String × String)
  | (.parameter name, tokens) => tokens.getLast?.map fun value => (name, value)
  | _ => none

def bindings (segments : List Segment) : List (String × String) :=
  segments.filterMap binding?

def word? : Segment → Option String
  | (.finish, _) => none
  | (.keyword word, _) => some word
  | (.parameter _, tokens) => tokens.getLast?

def words (segments : List Segment) : List String :=
  segments.filterMap word?

end Segment

/-- A path from a node to an action and the tokens that its keys take up, in order. -/
inductive Node.Derives : Node α → List Segment → α → Prop
  | action (a : α) : Derives (.action a) [] a
  | finish {children : Children α} {child : Node α} {segments : List Segment} {a : α} :
      (.finish, child) ∈ children → Derives child segments a → Segment.tokens segments = [] →
      Derives (.branch children) ((.finish, []) :: segments) a
  | step {children : Children α} {key : Key} {child : Node α} {tokens : List String}
      {segments : List Segment} {a : α} :
      (key, child) ∈ children → children.Takes key tokens → Derives child segments a →
      Derives (.branch children) ((key, tokens) :: segments) a

theorem Node.Derives.leads {node : Node α} {segments : List Segment} {a : α}
    (h : node.Derives segments a) : node.Leads (segments.map Prod.fst) a := by
  induction h with
  | action a => exact .action a
  | finish hm _ _ ih => exact .step hm ih
  | step hm _ _ ih => exact .step hm ih

theorem Children.choose_of_takes {children : Children α} (h : children.keys.Nodup) {key : Key}
    {child : Node α} {tokens : List String} (hm : (key, child) ∈ children)
    (ht : children.Takes key tokens) :
    (∃ word token, key = .keyword word ∧ tokens = [token] ∧
      children.choose token = .keyword word child) ∨
    (∃ name token value, key = .parameter name ∧ tokens = [token, value] ∧
      children.choose token = .parameter name child) ∨
    (∃ name value, key = .parameter name ∧ tokens = [value] ∧
      children.choose value = .value name child) := by
  cases ht with
  | keyword word => exact .inl ⟨word, word, rfl, rfl, (choose_eq_keyword_iff h).mpr ⟨hm, .inl rfl⟩⟩
  | keywordShort ha => exact .inl ⟨_, _, rfl, rfl, (choose_eq_keyword_iff h).mpr ⟨hm, .inr ha⟩⟩
  | parameter value hk =>
    exact .inr (.inl ⟨_, _, value, rfl, rfl, (choose_eq_parameter_iff h).mpr ⟨hm, .inl ⟨rfl, hk⟩⟩⟩)
  | parameterShort value ha =>
    exact .inr (.inl ⟨_, _, value, rfl, rfl, (choose_eq_parameter_iff h).mpr ⟨hm, .inr ha⟩⟩)
  | value hn ho => exact .inr (.inr ⟨_, _, rfl, rfl, (choose_eq_value_iff h).mpr ⟨hm, hn, ho⟩⟩)

theorem Children.takes_of_choose_keyword {children : Children α} (h : children.keys.Nodup)
    {token word : String} {child : Node α} (hc : children.choose token = .keyword word child) :
    (.keyword word, child) ∈ children ∧ children.Takes (.keyword word) [token] := by
  obtain ⟨hm, rfl | ha⟩ := (choose_eq_keyword_iff h).mp hc
  · exact ⟨hm, .keyword token⟩
  · exact ⟨hm, .keywordShort ha⟩

theorem Children.takes_of_choose_parameter {children : Children α} (h : children.keys.Nodup)
    {token name : String} {child : Node α} (hc : children.choose token = .parameter name child)
    (value : String) :
    (.parameter name, child) ∈ children ∧ children.Takes (.parameter name) [token, value] := by
  obtain ⟨hm, ⟨rfl, hk⟩ | ha⟩ := (choose_eq_parameter_iff h).mp hc
  · exact ⟨hm, .parameter value hk⟩
  · exact ⟨hm, .parameterShort value ha⟩

theorem Children.takes_of_choose_value {children : Children α} (h : children.keys.Nodup)
    {value name : String} {child : Node α} (hc : children.choose value = .value name child) :
    (.parameter name, child) ∈ children ∧ children.Takes (.parameter name) [value] := by
  obtain ⟨hm, hn, ho⟩ := (choose_eq_value_iff h).mp hc
  exact ⟨hm, .value hn ho⟩

theorem Children.Takes.ne_nil {children : Children α} {key : Key} {tokens : List String}
    (h : children.Takes key tokens) : tokens ≠ [] := by
  cases h <;> simp

def Progress.after (done : Progress) (segments : List Segment) : Progress where
  normalized := done.normalized ++ Text.spaced (Segment.words segments)
  parameters := (Segment.bindings segments).foldl
    (fun table entry => Table.insert entry.1 entry.2 table) done.parameters

namespace Progress

theorem after_nil (done : Progress) : done.after [] = done := by
  simp [after, Segment.words, Segment.bindings, Text.spaced]

theorem after_finish (done : Progress) (segments : List Segment) :
    done.after ((.finish, []) :: segments) = done.after segments := by
  simp [after, Segment.words, Segment.bindings, List.filterMap_cons, Segment.word?,
    Segment.binding?]

theorem after_keyword (done : Progress) (word : String) (tokens : List String)
    (segments : List Segment) :
    done.after ((.keyword word, tokens) :: segments) = (done.keyword word).after segments := by
  simp [after, Progress.keyword, Segment.words, Segment.bindings, List.filterMap_cons,
    Segment.word?, Segment.binding?, Text.spaced, String.append_assoc]

theorem after_parameter (done : Progress) (name value : String) (tokens : List String)
    (segments : List Segment) (h : tokens.getLast? = some value) :
    done.after ((.parameter name, tokens) :: segments) = (done.bind name value).after segments := by
  simp [after, Progress.bind, Segment.words, Segment.bindings, Segment.word?, Segment.binding?,
    Text.spaced, String.append_assoc, h]

end Progress

namespace Node

theorem settledEnd_of_mem {children : Children α} (h : children.keys.Nodup) {child : Node α}
    (hm : (.finish, child) ∈ children) : settledEnd children = some child.settled := by
  induction children with
  | nil => simp at hm
  | cons entry rest ih =>
    obtain ⟨key, node⟩ := entry
    have hn := List.nodup_cons.mp h
    rcases List.mem_cons.mp hm with he | ht
    · obtain ⟨rfl, rfl⟩ := Prod.mk.inj he
      rfl
    · cases key with
      | finish => exact absurd (Children.mem_keys.mpr ⟨child, ht⟩) hn.1
      | keyword word => exact ih hn.2 ht
      | parameter name => exact ih hn.2 ht

theorem settled_branch {children : Children α} (h : children.keys.Nodup) {child : Node α}
    (hm : (.finish, child) ∈ children) : (branch children).settled = child.settled := by
  simp [settled, settledEnd_of_mem h hm]

theorem settledEnd_eq_some {children : Children α} {node : Node α}
    (h : settledEnd children = some node) :
    ∃ child, (.finish, child) ∈ children ∧ child.settled = node := by
  induction children with
  | nil => simp [settledEnd] at h
  | cons entry rest ih =>
    obtain ⟨key, first⟩ := entry
    cases key with
    | finish => exact ⟨first, by simp, by simpa [settledEnd] using h⟩
    | keyword word =>
      obtain ⟨child, hm, hs⟩ := ih h
      exact ⟨child, List.mem_cons_of_mem _ hm, hs⟩
    | parameter name =>
      obtain ⟨child, hm, hs⟩ := ih h
      exact ⟨child, List.mem_cons_of_mem _ hm, hs⟩

theorem conclude_finish {children : Children α} (h : children.keys.Nodup) {child : Node α}
    (hm : (.finish, child) ∈ children) (done : Progress) :
    (branch children).conclude .execute done = child.conclude .execute done := by
  simp only [conclude, settled_branch h hm]

theorem derives_of_settled {node : Node α} {a : α} (h : node.settled = .action a) :
    ∃ segments, node.Derives segments a ∧ Segment.tokens segments = [] ∧
      ∀ done : Progress, done.after segments = done := by
  induction node using Node.induct with
  | action b =>
    obtain rfl : b = a := by simpa [settled] using h
    exact ⟨[], .action b, rfl, Progress.after_nil⟩
  | branch children ih =>
    cases he : settledEnd children with
    | none => simp [settled, he] at h
    | some node =>
      obtain ⟨child, hm, rfl⟩ := settledEnd_eq_some he
      obtain ⟨segments, hd, ht, hp⟩ := ih _ hm (by simpa [settled, he] using h)
      exact ⟨(.finish, []) :: segments, .finish hm hd ht, ht,
        fun done => (done.after_finish segments).trans (hp done)⟩

theorem leads_of_settled {node : Node α} {a : α} (h : node.settled = .action a) :
    ∃ path, node.Leads path a := by
  obtain ⟨segments, hd, -⟩ := derives_of_settled h
  exact ⟨_, hd.leads⟩

theorem leads_of_read {mode : Mode} {node : Node α} {tokens : List String} {done : Progress} {a : α}
    {parameters : Parameters} {normalized : String}
    (h : node.read mode tokens done = .ok (.execute a parameters normalized)) :
    ∃ path, node.Leads path a := by
  fun_induction read mode tokens node done with
  | case1 node done =>
    unfold conclude at h
    split at h
    · split at h
      · rename_i b hb
        obtain ⟨rfl, -⟩ := Outcome.execute.inj (Except.ok.inj h)
        exact leads_of_settled hb
      · cases h
    · cases h
    · dsimp only at h
      split at h <;> cases h
  | case2 => cases h
  | case3 token rest children done word child hc ih =>
    obtain ⟨path, hp⟩ := ih h
    exact ⟨_, .step (Children.mem_of_choose.1 hc) hp⟩
  | case4 => cases h
  | case5 token children done name child hc value rest ih =>
    obtain ⟨path, hp⟩ := ih h
    exact ⟨_, .step (Children.mem_of_choose.2.1 hc) hp⟩
  | case6 token rest children done name child hc ih =>
    obtain ⟨path, hp⟩ := ih h
    exact ⟨_, .step (Children.mem_of_choose.2.2 hc) hp⟩
  | case7 => cases h
  | case8 => cases h

theorem leads_of_parse {mode : Mode} {root : Node α} {line : String} {a : α}
    {parameters : Parameters} {normalized : String}
    (h : root.parse line mode = .ok (.execute a parameters normalized)) :
    ∃ path, root.Leads path a := by
  unfold parse at h
  split at h
  · cases h
  · exact leads_of_read h

def accepted (a : α) (done : Progress) : Outcome α :=
  .execute a done.parameters (Text.trimEnd done.normalized)

theorem read_of_derives {node : Node α} {segments : List Segment} {a : α}
    (h : node.Derives segments a) (ho : node.Ordered) (done : Progress) :
    node.read .execute (Segment.tokens segments) done = .ok (accepted a (done.after segments)) := by
  induction h generalizing done with
  | action a => simp [Segment.tokens, read, conclude, settled, accepted, Progress.after_nil]
  | finish hm _ ht ih =>
    have hc := ih (ho.child hm) done
    rw [ht, read] at hc
    rw [show Segment.tokens ((.finish, []) :: _) = [] from ht, read, Progress.after_finish]
    exact (conclude_finish ho.here.nodup hm done).trans hc
  | @step children key child tokens segments a hm ht _ ih =>
    have hs : Segment.tokens ((key, tokens) :: segments) = tokens ++ Segment.tokens segments := rfl
    rw [hs]
    rcases Children.choose_of_takes ho.here.nodup hm ht with
      ⟨word, token, rfl, rfl, hc⟩ | ⟨name, token, value, rfl, rfl, hc⟩ | ⟨name, value, rfl, rfl, hc⟩
    · rw [Progress.after_keyword, List.cons_append, read, hc]
      exact ih (ho.child hm) _
    · rw [Progress.after_parameter done name value _ _ rfl, List.cons_append, read, hc]
      exact ih (ho.child hm) _
    · rw [Progress.after_parameter done name value _ _ rfl, List.cons_append, read, hc]
      exact ih (ho.child hm) _

theorem derives_of_read {node : Node α} {tokens : List String} {done : Progress} {a : α}
    {parameters : Parameters} {normalized : String} (ho : node.Ordered)
    (h : node.read .execute tokens done = .ok (.execute a parameters normalized)) :
    ∃ segments, node.Derives segments a ∧ Segment.tokens segments = tokens ∧
      Outcome.execute a parameters normalized = accepted a (done.after segments) := by
  fun_induction read Mode.execute tokens node done with
  | case1 node done =>
    simp only [conclude] at h
    split at h
    · rename_i b hb
      obtain ⟨segments, hd, ht, hp⟩ := derives_of_settled hb
      simp only [Except.ok.injEq, Outcome.execute.injEq] at h
      obtain ⟨rfl, rfl, rfl⟩ := h
      exact ⟨segments, hd, ht, by rw [hp, accepted]⟩
    · cases h
  | case2 => cases h
  | case3 token rest children done word child hc ih =>
    obtain ⟨hm, ht⟩ := Children.takes_of_choose_keyword ho.here.nodup hc
    obtain ⟨segments, hd, rfl, he⟩ := ih (ho.child hm) h
    exact ⟨_, .step hm ht hd, rfl, by rw [Progress.after_keyword, he]⟩
  | case4 => cases h
  | case5 token children done name child hc value rest ih =>
    obtain ⟨hm, ht⟩ := Children.takes_of_choose_parameter ho.here.nodup hc value
    obtain ⟨segments, hd, rfl, he⟩ := ih (ho.child hm) h
    exact ⟨_, .step hm ht hd, rfl, by rw [Progress.after_parameter done name value _ _ rfl, he]⟩
  | case6 token rest children done name child hc ih =>
    obtain ⟨hm, ht⟩ := Children.takes_of_choose_value ho.here.nodup hc
    obtain ⟨segments, hd, rfl, he⟩ := ih (ho.child hm) h
    exact ⟨_, .step hm ht hd, rfl, by rw [Progress.after_parameter done name token _ _ rfl, he]⟩
  | case7 => cases h
  | case8 => cases h

end Node

end Vty.Grammar
