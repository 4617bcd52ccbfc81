import Vty.Proofs.Grammar.Acceptance

namespace Vty.Grammar

variable {α : Type}

theorem Key.abbreviatedBy_iff {token : String} {key : Key} :
    key.abbreviatedBy token = true ↔ key ≠ .finish ∧ token.toList <+: key.text.toList := by
  cases key <;> simp [abbreviatedBy, text]

namespace Children

variable {children : Children α} {token longer : String} {key : Key} {child : Node α}

theorem abbreviatedBy_of_candidates (h : children.candidates token = [(key, child)]) :
    key.abbreviatedBy token = true := by
  unfold candidates at h
  split at h
  · obtain ⟨rfl, -⟩ := Prod.mk.inj (List.singleton_inj.mp h)
    exact Key.abbreviatedBy_keyword_self token
  · split at h
    · obtain ⟨rfl, -⟩ := Prod.mk.inj (List.singleton_inj.mp h)
      exact Key.abbreviatedBy_parameter_self token
    · have hm := List.mem_singleton_self (key, child)
      rw [← forMatching_eq_singleton_iff.mp h, List.mem_filter] at hm
      exact hm.2

theorem prefix_of_candidates (h : children.candidates token = [(key, child)]) :
    token.toList <+: key.text.toList :=
  (Key.abbreviatedBy_iff.mp (abbreviatedBy_of_candidates h)).2

theorem candidates_of_filter
    (h : children.filter (fun entry => entry.1.abbreviatedBy token) = [(key, child)]) :
    children.candidates token = [(key, child)] := by
  have hs {other : Key} {node : Node α} (ho : other.abbreviatedBy token = true)
      (hf : Table.find? other children = some node) : [(other, node)] = [(key, child)] := by
    have hm : (other, node) ∈ children.filter fun entry => entry.1.abbreviatedBy token :=
      List.mem_filter.mpr ⟨Table.mem_of_find?_eq_some hf, ho⟩
    rw [h] at hm
    rw [List.mem_singleton.mp hm]
  unfold candidates
  split
  · apply hs (Key.abbreviatedBy_keyword_self token)
    assumption
  · split
    · apply hs (Key.abbreviatedBy_parameter_self token)
      assumption
    · exact forMatching_eq_singleton_iff.mpr h

theorem candidates_spelled (h : children.candidates token = [(key, child)])
    (hl : token.toList <+: longer.toList) (hk : longer.toList <+: key.text.toList) :
    children.candidates longer = [(key, child)] := by
  -- what is spelled out already has no longer spelling
  have hs (ht : key.text = token) : children.candidates longer = [(key, child)] := by
    rw [ht] at hk
    have he : longer = token := String.toList_inj.mp (hk.eq_of_length_le hl.length_le)
    rw [he, h]
  have ha := abbreviatedBy_of_candidates h
  unfold candidates at h
  split at h
  · obtain ⟨rfl, -⟩ := Prod.mk.inj (List.singleton_inj.mp h)
    exact hs rfl
  · split at h
    · obtain ⟨rfl, -⟩ := Prod.mk.inj (List.singleton_inj.mp h)
      exact hs rfl
    · have hf := forMatching_eq_singleton_iff.mp h
      apply candidates_of_filter
      have hn (entry : Key × Node α) : entry.1.abbreviatedBy longer =
          (entry.1.abbreviatedBy longer && entry.1.abbreviatedBy token) := by
        rw [Bool.eq_iff_iff, Bool.and_eq_true, Key.abbreviatedBy_iff, Key.abbreviatedBy_iff]
        exact ⟨fun hb => ⟨hb, hb.1, hl.trans hb.2⟩, And.left⟩
      have hb : key.abbreviatedBy longer = true :=
        Key.abbreviatedBy_iff.mpr ⟨(Key.abbreviatedBy_iff.mp ha).1, hk⟩
      calc children.filter (fun entry => entry.1.abbreviatedBy longer)
          = (children.filter fun entry => entry.1.abbreviatedBy token).filter
              fun entry => entry.1.abbreviatedBy longer := by
            rw [List.filter_filter]
            exact List.filter_congr fun entry _ => hn entry
        _ = [(key, child)] := by
            rw [hf, List.filter_singleton, hb]
            rfl

theorem choose_keyword_spelled {word : String} (h : children.choose token = .keyword word child)
    (hl : token.toList <+: longer.toList) (hk : longer.toList <+: word.toList) :
    children.choose longer = .keyword word child :=
  choose_eq_keyword.mpr (candidates_spelled (choose_eq_keyword.mp h) hl hk)

theorem choose_parameter_spelled {name : String}
    (h : children.choose token = .parameter name child) (hl : token.toList <+: longer.toList)
    (hk : longer.toList <+: name.toList) : children.choose longer = .parameter name child :=
  choose_eq_parameter.mpr (candidates_spelled (choose_eq_parameter.mp h) hl hk)

end Children

inductive Part where
  | name (text : String)
  | value
  deriving DecidableEq, Repr

namespace Node

/-- Reads tokens and records what each of them was read as, up to the first that did not fit. -/
def recorded (mode : Mode) :
    List String → Node α → Progress → Except Fault (Outcome α) × List Part
  | [], node, done => (node.conclude mode done, [])
  | token :: _, .action _, _ => (.error (.extraInput token), [])
  | token :: rest, .branch children, done =>
    match Children.choose children token with
    | .keyword word child =>
      (recorded mode rest child (done.keyword word)).map id (.name word :: ·)
    | .parameter name child =>
      match rest with
      | [] => (read mode [token] (.branch children) done, [.name name])
      | value :: rest =>
        (recorded mode rest child (done.bind name value)).map id (.name name :: .value :: ·)
    | .value name child =>
      (recorded mode rest child (done.bind name token)).map id (.value :: ·)
    | .several entries =>
      (.error (.ambiguous token (completionsBelow done.normalized entries)), [])
    | .unknown => (.error (.unrecognized token (completionsBelow done.normalized children)), [])

theorem recorded_fst (mode : Mode) (tokens : List String) (node : Node α) (done : Progress) :
    (node.recorded mode tokens done).1 = node.read mode tokens done := by
  fun_induction recorded mode tokens node done <;> simp_all [read]

theorem recorded_name {mode : Mode} {tokens : List String} {node : Node α} {done : Progress}
    {i : Nat} {k : String} (hp : (node.recorded mode tokens done).2[i]? = some (.name k)) :
    ∃ token, tokens[i]? = some token ∧ token.toList <+: k.toList ∧
      ∀ longer : String, token.toList <+: longer.toList → longer.toList <+: k.toList →
        node.recorded mode (tokens.set i longer) done = node.recorded mode tokens done := by
  fun_induction recorded mode tokens node done generalizing i with
  | case1 => cases hp
  | case2 => cases hp
  | case3 first rest children done word child hc ih =>
    cases i with
    | zero =>
      cases hp
      refine ⟨first, rfl, Children.prefix_of_candidates (Children.choose_eq_keyword.mp hc), ?_⟩
      intro longer hl hk
      rw [List.set_cons_zero, recorded, Children.choose_keyword_spelled hc hl hk]
    | succ i =>
      obtain ⟨token, ht, hk, hs⟩ := ih hp
      refine ⟨token, ht, hk, ?_⟩
      intro longer hl hk
      rw [List.set_cons_succ, recorded, hc]
      dsimp only
      rw [hs longer hl hk]
  | case4 first children done name child hc =>
    cases i with
    | zero =>
      cases hp
      refine ⟨first, rfl, Children.prefix_of_candidates (Children.choose_eq_parameter.mp hc), ?_⟩
      intro longer hl hk
      have hs := Children.choose_parameter_spelled hc hl hk
      rw [List.set_cons_zero, recorded, hs]
      dsimp only
      rw [read, read, hc, hs]
    | succ i => cases hp
  | case5 first children done name child hc value rest ih =>
    cases i with
    | zero =>
      cases hp
      refine ⟨first, rfl, Children.prefix_of_candidates (Children.choose_eq_parameter.mp hc), ?_⟩
      intro longer hl hk
      rw [List.set_cons_zero, recorded, Children.choose_parameter_spelled hc hl hk]
    | succ i =>
      cases i with
      | zero => cases hp
      | succ i =>
        obtain ⟨token, ht, hk, hs⟩ := ih hp
        refine ⟨token, ht, hk, ?_⟩
        intro longer hl hk
        rw [List.set_cons_succ, List.set_cons_succ, recorded, hc]
        dsimp only
        rw [hs longer hl hk]
  | case6 first rest children done name child hc ih =>
    cases i with
    | zero => cases hp
    | succ i =>
      obtain ⟨token, ht, hk, hs⟩ := ih hp
      refine ⟨token, ht, hk, ?_⟩
      intro longer hl hk
      rw [List.set_cons_succ, recorded, hc]
      dsimp only
      rw [hs longer hl hk]
  | case7 => cases hp
  | case8 => cases hp

/-- Spelling out an abbreviation changes neither what is read nor why reading fails. -/
theorem read_spelled (root : Node α) (mode : Mode) (tokens : List String) (i : Nat) (k : String)
    (hp : (root.recorded mode tokens {}).2[i]? = some (.name k)) :
    (root.recorded mode tokens {}).1 = root.read mode tokens {} ∧
    ∃ token, tokens[i]? = some token ∧ token.toList <+: k.toList ∧
      ∀ longer : String, token.toList <+: longer.toList → longer.toList <+: k.toList →
        root.recorded mode (tokens.set i longer) {} = root.recorded mode tokens {} ∧
        root.read mode (tokens.set i longer) {} = root.read mode tokens {} ∧
        ∀ line line', Text.tokens line = tokens → Text.tokens line' = tokens.set i longer →
          root.parse line' mode = root.parse line mode := by
  refine ⟨recorded_fst mode tokens root {}, ?_⟩
  obtain ⟨token, ht, hk, hs⟩ := recorded_name hp
  refine ⟨token, ht, hk, ?_⟩
  intro longer hl hk
  have hs := hs longer hl hk
  have hr : root.read mode (tokens.set i longer) {} = root.read mode tokens {} := by
    rw [← recorded_fst, ← recorded_fst, hs]
  refine ⟨hs, hr, ?_⟩
  intro line line' ho hn
  have hi : i < tokens.length := (List.getElem?_eq_some_iff.mp ht).1
  have hne : Text.tokens line ≠ [] := by
    rw [ho]
    exact List.ne_nil_of_length_pos (by omega)
  have hne' : Text.tokens line' ≠ [] := by
    rw [hn]
    apply List.ne_nil_of_length_pos
    rw [List.length_set]
    omega
  rw [parse_of_tokens_ne_nil root hne, parse_of_tokens_ne_nil root hne', ho, hn, hr]

end Node

end Vty.Grammar

namespace Vty.Daemon

open Grammar (Part)

theorem read_spelled_abbreviated :
    (grammar.recorded .execute ["ec", "te", "x"] {}).2 = [.name "echo", .name "text", .value] ∧
    grammar.read .execute ["ec", "tex", "x"] {} = grammar.read .execute ["ec", "te", "x"] {} := by
  have hr : (grammar.recorded .execute ["ec", "te", "x"] {}).2 =
      [.name "echo", .name "text", .value] := by decide
  obtain ⟨-, token, ht, -, hs⟩ :=
    Grammar.Node.read_spelled grammar .execute ["ec", "te", "x"] 1 "text" (by rw [hr]; rfl)
  cases ht
  exact ⟨hr, (hs "tex" (by decide) (by decide)).2.1⟩

end Vty.Daemon
