import Vty.Proofs.Grammar.HelpLines
import Vty.Proofs.Grammar.Reach
import Vty.Proofs.Grammar.Spelling

namespace Vty.Grammar

variable {α : Type}

namespace Segment

def brief (segment : Segment) : Segment :=
  (segment.1, segment.word?.toList)

theorem word?_brief (segment : Segment) : segment.brief.word? = segment.word? := by
  obtain ⟨key, tokens⟩ := segment
  cases key with
  | finish => rfl
  | keyword word => rfl
  | parameter name => cases h : tokens.getLast? <;> simp [brief, word?, h]

theorem binding?_brief (segment : Segment) : segment.brief.binding? = segment.binding? := by
  obtain ⟨key, tokens⟩ := segment
  cases key with
  | finish => rfl
  | keyword word => rfl
  | parameter name => cases h : tokens.getLast? <;> simp [brief, word?, binding?, h]

theorem tokens_brief (segments : List Segment) : tokens (segments.map brief) = words segments := by
  rw [tokens, words, List.flatMap_map, List.filterMap_eq_flatMap_toList]
  rfl

theorem words_brief (segments : List Segment) : words (segments.map brief) = words segments := by
  rw [words, words, List.filterMap_map]
  congr 1
  funext segment
  exact segment.word?_brief

theorem bindings_brief (segments : List Segment) :
    bindings (segments.map brief) = bindings segments := by
  rw [bindings, bindings, List.filterMap_map]
  congr 1
  funext segment
  exact segment.binding?_brief

theorem tokens_cons (key : Key) (taken : List String) (segments : List Segment) :
    tokens ((key, taken) :: segments) = taken ++ tokens segments :=
  rfl

theorem words_cons (segment : Segment) (segments : List Segment) :
    words (segment :: segments) = segment.word?.toList ++ words segments := by
  cases h : segment.word? <;> simp [words, h]

end Segment

theorem Progress.after_brief (done : Progress) (segments : List Segment) :
    done.after (segments.map Segment.brief) = done.after segments := by
  simp only [after, Segment.words_brief, Segment.bindings_brief]

def Children.Spaceless (children : Children α) : Prop :=
  ∀ key ∈ children.keys, ∀ c ∈ key.text.toList, Text.isSpace c = false

instance (children : Children α) : Decidable children.Spaceless :=
  have (key : Key) := List.decidableBAll (fun c => Text.isSpace c = false) key.text.toList
  List.decidableBAll _ children.keys

theorem Children.Plain.spaceless {children : Children α} (h : children.Plain) :
    children.Spaceless := by
  intro key hk
  by_cases hf : key = .finish
  · subst hf
    exact fun c hc => absurd hc List.not_mem_nil
  · exact (h.token key hk hf).2

namespace Node

theorem Everywhere.imp {P Q : Children α → Prop} (hpq : ∀ children, P children → Q children)
    {node : Node α} (h : node.Everywhere P) : node.Everywhere Q := by
  induction h with
  | action a => exact .action a
  | branch hp _ ih => exact .branch (hpq _ hp) ih

/-- Each value of the path would be read as one without a name before it: it abbreviates no key of
its branch, and its parameter is the only one there. -/
def Bare (node : Node α) (segments : List Segment) : Prop :=
  ∀ front name tokens value back children,
    segments = front ++ (.parameter name, tokens) :: back → tokens.getLast? = some value →
    node.Reaches front (.branch children) →
      (∀ key ∈ Children.keys children, key.abbreviatedBy value = false) ∧
        ∀ other, .parameter other ∈ Children.keys children ↔ other = name

theorem Bare.tail {children : Children α} {key : Key} {child : Node α} {tokens : List String}
    {segments : List Segment} (hb : (branch children).Bare ((key, tokens) :: segments))
    (hm : (key, child) ∈ children) (ht : children.Takes key tokens) : child.Bare segments := by
  rintro front name taken value back grandchildren rfl hv hr
  exact hb ((key, tokens) :: front) name taken value back grandchildren rfl hv (.step hm ht hr)

theorem brief_of_tokens_eq_nil {node : Node α} {segments : List Segment} {a : α}
    (h : node.Derives segments a) (ht : Segment.tokens segments = []) :
    segments.map Segment.brief = segments := by
  induction h with
  | action a => rfl
  | finish _ _ hn ih => rw [List.map_cons, ih hn]; rfl
  | step _ hk _ _ => exact absurd (List.append_eq_nil_iff.mp ht).1 hk.ne_nil

theorem derives_brief {node : Node α} {segments : List Segment} {a : α}
    (h : node.Derives segments a) (hb : node.Bare segments) :
    node.Derives (segments.map Segment.brief) a := by
  induction h with
  | action a => exact .action a
  | finish hm hd hn _ =>
    have he := brief_of_tokens_eq_nil hd hn
    rw [List.map_cons, he]
    exact .finish hm hd hn
  | @step children key child tokens segments a hm ht hd ih =>
    have hi := ih (hb.tail hm ht)
    have value {name value : String} (hk : key = .parameter name)
        (hv : tokens.getLast? = some value) : children.Takes (.parameter name) [value] := by
      subst hk
      obtain ⟨hn, ho⟩ := hb [] name tokens value segments children rfl hv (.here _)
      exact .value hn ho
    cases ht with
    | keyword word => exact .step hm (.keyword word) hi
    | keywordShort => exact .step hm (.keyword _) hi
    | parameter v => exact .step hm (value rfl rfl) hi
    | parameterShort v => exact .step hm (value rfl rfl) hi
    | value => exact .step hm (value rfl rfl) hi

theorem bare_of_derives_brief {node : Node α} (ho : node.Ordered) {segments : List Segment} {a : α}
    (h : node.Derives (segments.map Segment.brief) a) : node.Bare segments := by
  intro front name tokens value back children he hv hr
  generalize ht : Node.branch children = target at hr
  induction hr generalizing segments with
  | here =>
    subst he ht
    have hw : Segment.brief (.parameter name, tokens) = (.parameter name, [value]) := by
      simp [Segment.brief, Segment.word?, hv]
    simp only [List.nil_append, List.map_cons, hw] at h
    cases h with
    | step _ hk _ =>
      cases hk with
      | value hn hs => exact ⟨hn, hs⟩
  | step hm hk _ ih =>
    subst he
    simp only [List.cons_append, List.map_cons] at h
    cases h with
    | finish => cases hk
    | step hm' _ hd =>
      obtain rfl := Children.eq_of_mem ho.here.nodup hm hm'
      exact ih (ho.child hm) hd rfl ht

theorem length_words_le {node : Node α} {segments again : List Segment} {a : α}
    (h : node.Derives again a) (hk : again.map Prod.fst = segments.map Prod.fst) :
    (Segment.words segments).length ≤ (Segment.tokens again).length := by
  induction h generalizing segments with
  | action =>
    obtain rfl := List.map_eq_nil_iff.mp hk.symm
    exact Nat.zero_le _
  | finish _ _ _ ih =>
    obtain ⟨⟨key, taken⟩, more, rfl, rfl, hm⟩ := List.map_eq_cons_iff.mp hk.symm
    rw [Segment.words_cons]
    exact ih hm.symm
  | @step _ _ _ tokens again _ _ ht _ ih =>
    obtain ⟨segment, more, rfl, rfl, hm⟩ := List.map_eq_cons_iff.mp hk.symm
    have hl := ih hm.symm
    have hp := List.length_pos_iff.mpr ht.ne_nil
    have hw : (Segment.word? segment).toList.length ≤ 1 := Option.length_toList_le
    rw [Segment.words_cons, Segment.tokens_cons, List.length_append, List.length_append]
    omega

theorem eq_brief {node : Node α} {segments again : List Segment} {a : α}
    (h : node.Derives again a) (hk : again.map Prod.fst = segments.map Prod.fst)
    (ht : Segment.tokens again = Segment.words segments) :
    again = segments.map Segment.brief := by
  induction h generalizing segments with
  | action =>
    obtain rfl := List.map_eq_nil_iff.mp hk.symm
    rfl
  | finish _ _ _ ih =>
    obtain ⟨⟨key, taken⟩, more, rfl, rfl, hm⟩ := List.map_eq_cons_iff.mp hk.symm
    rw [List.map_cons, ← ih hm.symm ht]
    rfl
  | @step _ _ _ tokens again _ _ hs hd ih =>
    obtain ⟨segment, more, rfl, rfl, hm⟩ := List.map_eq_cons_iff.mp hk.symm
    rw [Segment.words_cons, Segment.tokens_cons] at ht
    have hl := length_words_le hd hm.symm
    have hp := List.length_pos_iff.mpr hs.ne_nil
    have hw : (Segment.word? segment).toList.length ≤ 1 := Option.length_toList_le
    have hn := congrArg List.length ht
    rw [List.length_append, List.length_append] at hn
    obtain ⟨rfl, hr⟩ := List.append_inj ht (by omega)
    rw [List.map_cons, ← ih hm.symm hr]
    rfl

theorem isToken_words {node : Node α} {segments : List Segment} {a : α}
    (h : node.Derives segments a) (hs : node.Everywhere Children.Spaceless)
    (ht : ∀ token ∈ Segment.tokens segments, Text.IsToken token) :
    ∀ word ∈ Segment.words segments, Text.IsToken word := by
  induction h with
  | action => exact fun word hw => absurd hw List.not_mem_nil
  | finish hm _ _ ih => exact ih (hs.child hm) ht
  | @step children key child tokens segments a hm hk _ ih =>
    rw [Segment.tokens_cons, List.forall_mem_append] at ht
    rw [Segment.words_cons, List.forall_mem_append]
    refine ⟨?_, ih (hs.child hm) ht.2⟩
    have last {name : String} (hp : key = .parameter name) :
        ∀ word ∈ (Segment.word? (key, tokens)).toList, Text.IsToken word := by
      subst hp
      exact fun word hw => ht.1 word (List.mem_of_getLast? (Option.mem_toList.mp hw))
    have hn := hs.here key (Children.mem_keys.mpr ⟨child, hm⟩)
    cases hk with
    | keyword word => exact fun other ho => List.mem_singleton.mp ho ▸ ht.1 word (by simp)
    | @keywordShort word token ha =>
      have hp := (Key.abbreviatedBy_iff.mp ha.2.2.abbreviatedBy).2
      have hw : word ≠ "" := by
        rintro rfl
        exact (ht.1 token (by simp)).1 (String.toList_inj.mp (List.prefix_nil.mp hp))
      exact fun other ho => List.mem_singleton.mp ho ▸ ⟨hw, hn⟩
    | parameter => exact last rfl
    | parameterShort => exact last rfl
    | value => exact last rfl

theorem words_ne_nil {node : Node α} {segments : List Segment} {a : α}
    (h : node.Derives segments a) (ht : Segment.tokens segments ≠ []) :
    Segment.words segments ≠ [] := by
  cases h with
  | action => exact absurd rfl ht
  | finish _ _ hn => exact absurd hn ht
  | step _ hk _ => cases hk <;> simp [Segment.words_cons, Segment.word?]

/-- What is kept of a command leads to its action again where no value needs the name of its
parameter before it, and along the same keys only there. -/
theorem parse_normalized (root : Node α) (ho : root.Ordered)
    (hs : root.Everywhere Children.Spaceless) (line : String) (a : α) (parameters : Parameters)
    (normalized : String)
    (h : root.parse line .execute = .ok (.execute a parameters normalized)) :
    (∃ segments, root.Derives segments a ∧ Segment.tokens segments = Text.tokens line) ∧
      ∀ segments, root.Derives segments a → Segment.tokens segments = Text.tokens line →
        (root.Bare segments →
          root.parse normalized .execute = .ok (.execute a parameters normalized)) ∧
        ((∃ again, root.Derives again a ∧ Segment.tokens again = Text.tokens normalized ∧
          again.map Prod.fst = segments.map Prod.fst) ↔ root.Bare segments) := by
  have hl : Text.tokens line ≠ [] := by
    intro hl
    simp [parse, hl] at h
  rw [parse_of_tokens_ne_nil root hl] at h
  constructor
  · obtain ⟨segments, hd, ht, -⟩ := derives_of_read ho h
    exact ⟨segments, hd, ht⟩
  · intro segments hd ht
    have hr := read_of_derives hd ho {}
    rw [ht, h] at hr
    have hw := isToken_words hd hs (ht ▸ fun _ => Text.isToken_of_mem_tokens)
    have hn : Text.tokens normalized = Segment.words segments := by
      obtain ⟨-, -, rfl⟩ := Outcome.execute.inj (Except.ok.inj hr)
      rw [Text.tokens_trimEnd, Progress.after, String.empty_append, Text.tokens_spaced hw]
    constructor
    · intro hb
      have hne : Text.tokens normalized ≠ [] := hn ▸ words_ne_nil hd (ht ▸ hl)
      have hr' := read_of_derives (derives_brief hd hb) ho {}
      rw [Segment.tokens_brief, Progress.after_brief] at hr'
      rw [parse_of_tokens_ne_nil root hne, hn, hr', hr]
    · constructor
      · rintro ⟨again, hd', ht', hk⟩
        obtain rfl := eq_brief hd' hk (ht'.trans hn)
        exact bare_of_derives_brief ho hd'
      · intro hb
        refine ⟨_, derives_brief hd hb, (Segment.tokens_brief segments).trans hn.symm, ?_⟩
        rw [List.map_map]
        rfl

def naming : Node Nat :=
  ofList [(.keyword "show", .action 0), (.parameter "name", .action 1)]

theorem naming_not_kept :
    naming.Ordered ∧ naming.Everywhere Children.Spaceless ∧
      naming.parse "name show" .execute = .ok (.execute 1 [("name", "show")] "show") ∧
      naming.parse "show" .execute = .ok (.execute 0 [] "show") := by
  refine ⟨ordered_ofList ?_, everywhere_ofList (by decide) ?_, rfl, rfl⟩
  · simp only [List.forall_mem_cons, List.not_mem_nil, false_imp_iff, implies_true, and_true]
    exact ⟨.action 0, .action 1⟩
  · simp only [List.forall_mem_cons, List.not_mem_nil, false_imp_iff, implies_true, and_true]
    exact ⟨.action 0, .action 1⟩

end Node

end Vty.Grammar

namespace Vty.Daemon

open Grammar

theorem spaceless_grammar : grammar.Everywhere Children.Spaceless :=
  plain_grammar.imp fun _ => Children.Plain.spaceless

theorem parse_normalized_setName :
    grammar.Ordered ∧ grammar.Everywhere Children.Spaceless ∧
      grammar.parse "set name name x" .execute =
        .ok (.execute setName [("name", "x")] "set name x") ∧
      grammar.parse "set name x" .execute =
        .ok (.execute setName [("name", "x")] "set name x") := by
  have hp : grammar.parse "set name name x" .execute =
      .ok (.execute setName [("name", "x")] "set name x") := rfl
  have hd : grammar.Derives [(.keyword "set", ["set"]), (.keyword "name", ["name"]),
      (.parameter "name", ["name", "x"])] setName := by
    refine .step (.tail _ (.tail _ (.tail _ (.head _)))) (.keyword "set") ?_
    refine .step (.head _) (.keyword "name") ?_
    exact .step (.head _) (.parameter "x" (by decide)) (.action _)
  have hd' : grammar.Derives [(.keyword "set", ["set"]), (.keyword "name", ["name"]),
      (.parameter "name", ["x"])] setName := by
    refine .step (.tail _ (.tail _ (.tail _ (.head _)))) (.keyword "set") ?_
    refine .step (.head _) (.keyword "name") (.step (.head _) (.value (by decide) ?_) (.action _))
    change ∀ other, Key.parameter other ∈ [Key.parameter "name"] ↔ other = "name"
    simp
  obtain ⟨hk, hb⟩ := (Node.parse_normalized grammar ordered_grammar spaceless_grammar _ _ _ _ hp).2
    _ hd rfl
  exact ⟨ordered_grammar, spaceless_grammar, hp, hk (hb.mp ⟨_, hd', by decide, rfl⟩)⟩

end Vty.Daemon
