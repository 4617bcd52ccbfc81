import Vty.Commands
import Vty.Proofs.Grammar.Acceptance
import Vty.Proofs.Grammar.Listing

namespace Vty.Grammar

variable {α : Type}

def Key.fill (value : String) : Key → String
  | .finish => ""
  | .keyword word => word ++ " "
  | .parameter name => name ++ " " ++ value ++ " "

namespace Path

def helpLine (path : List Key) : String :=
  Text.trimEnd (help path)

def fill : List (Key × String) → String
  | [] => ""
  | (key, value) :: rest => key.fill value ++ fill rest

def filledLine (path : List (Key × String)) : String :=
  Text.trimEnd (fill path)

def bound (path : List (Key × String)) : List (String × String) :=
  path.filterMap fun
    | (.parameter name, value) => some (name, value)
    | _ => none

def spell : Key × String → Segment
  | (.finish, _) => (.finish, [])
  | (.keyword word, _) => (.keyword word, [word])
  | (.parameter name, value) => (.parameter name, [name, value])

def spelled (path : List (Key × String)) : List Segment :=
  path.map spell

theorem tokens_spelled_cons (entry : Key × String) (rest : List (Key × String)) :
    Segment.tokens (spelled (entry :: rest)) = (spell entry).2 ++ Segment.tokens (spelled rest) :=
  rfl

theorem fill_eq_spaced (path : List (Key × String)) :
    fill path = Text.spaced (Segment.tokens (spelled path)) := by
  induction path with
  | nil => rfl
  | cons entry rest ih =>
    obtain ⟨key, value⟩ := entry
    cases key <;>
      simp [fill, Key.fill, ih, tokens_spelled_cons, spell, Text.spaced, String.append_assoc]

theorem tokens_filledLine {path : List (Key × String)}
    (h : ∀ token ∈ Segment.tokens (spelled path), Text.IsToken token) :
    Text.tokens (filledLine path) = Segment.tokens (spelled path) := by
  rw [filledLine, Text.tokens_trimEnd, fill_eq_spaced, Text.tokens_spaced h]

theorem spell_eq_nil_iff (entry : Key × String) : (spell entry).2 = [] ↔ entry.1 = .finish := by
  obtain ⟨key, value⟩ := entry
  cases key <;> simp [spell]

theorem tokens_spelled_eq_nil_iff {path : List (Key × String)} :
    Segment.tokens (spelled path) = [] ↔ ∀ key ∈ path.map Prod.fst, key = .finish := by
  simp only [Segment.tokens, spelled, List.flatMap_eq_nil_iff, List.forall_mem_map,
    spell_eq_nil_iff]

def placeholder (key : Key) : Key × String :=
  (key, "<" ++ key.text ++ ">")

theorem help_eq_fill (path : List Key) : help path = fill (path.map placeholder) := by
  induction path with
  | nil => rfl
  | cons key path ih =>
    have hk : key.help = key.fill (placeholder key).2 := by
      cases key <;> simp [placeholder, Key.help, Key.fill, Key.text, ← String.toList_inj]
    rw [help, ih, hk]
    rfl

theorem helpLine_eq_filledLine (path : List Key) :
    helpLine path = filledLine (path.map placeholder) := by
  rw [helpLine, help_eq_fill, filledLine]

theorem bindings_spelled (path : List (Key × String)) :
    Segment.bindings (spelled path) = bound path := by
  rw [Segment.bindings, spelled, List.filterMap_map, bound]
  congr 1
  funext entry
  obtain ⟨key, value⟩ := entry
  cases key <;> rfl

end Path

namespace Node

theorem mem_completions {lead line : String} {node : Node α} :
    line ∈ node.completions lead ↔
      ∃ path a, node.Leads path a ∧ line = Text.trimEnd (lead ++ Path.help path) := by
  rw [completions_eq_map_paths, List.mem_map]
  constructor
  · rintro ⟨path, hp, rfl⟩
    obtain ⟨a, hl⟩ := mem_paths.mp hp
    exact ⟨path, a, hl, rfl⟩
  · rintro ⟨path, a, hl, rfl⟩
    exact ⟨path, mem_paths.mpr ⟨a, hl⟩, rfl⟩

end Node

/-- The texts at a branch are tokens, no two of its keys share one, and its end is an action. -/
structure Children.Plain (children : Children α) : Prop where
  token : ∀ key ∈ children.keys, key ≠ .finish → Text.IsToken key.text
  distinct : ∀ text, .keyword text ∈ children.keys → .parameter text ∉ children.keys
  ends : ∀ child, (.finish, child) ∈ children → ∃ a, child = .action a

theorem Children.Plain.of_keys {children : Children α}
    (ht : ∀ key ∈ children.keys, key ≠ .finish → Text.IsToken key.text)
    (hd : ∀ key ∈ children.keys, ∀ other ∈ children.keys, key.text = other.text → key = other)
    (hf : .finish ∉ children.keys) : children.Plain where
  token := ht
  distinct _ hk hp := nomatch hd _ hk _ hp rfl
  ends child hm := absurd (mem_keys.mpr ⟨child, hm⟩) hf

namespace Node

theorem derives_spelled {node : Node α} {path : List (Key × String)} {a : α}
    (hn : node.Everywhere Children.Plain) (h : node.Leads (path.map Prod.fst) a) :
    node.Derives (Path.spelled path) a := by
  induction path generalizing node with
  | nil =>
    cases h
    exact .action a
  | cons entry rest ih =>
    obtain ⟨key, value⟩ := entry
    cases h with
    | step hm h =>
      cases key with
      | finish =>
        obtain ⟨b, rfl⟩ := hn.here.ends _ hm
        have hr : rest = [] := by
          cases rest with
          | nil => rfl
          | cons => cases h
        subst hr
        cases h
        exact .finish hm (.action a) rfl
      | keyword word => exact .step hm (.keyword word) (ih (hn.child hm) h)
      | parameter name =>
        have hk : .keyword name ∉ Children.keys _ := fun hk =>
          hn.here.distinct name hk (Children.mem_keys.mpr ⟨_, hm⟩)
        exact .step hm (.parameter value hk) (ih (hn.child hm) h)

theorem isToken_of_leads {node : Node α} {path : List (Key × String)} {a : α}
    (hn : node.Everywhere Children.Plain) (h : node.Leads (path.map Prod.fst) a)
    (hv : ∀ name value, (.parameter name, value) ∈ path → Text.IsToken value) :
    ∀ token ∈ Segment.tokens (Path.spelled path), Text.IsToken token := by
  induction path generalizing node with
  | nil => exact fun token hm => absurd hm List.not_mem_nil
  | cons entry rest ih =>
    obtain ⟨key, value⟩ := entry
    cases h with
    | step hm h =>
      have hr := ih (hn.child hm) h fun name value hp => hv name value (List.mem_cons_of_mem _ hp)
      have ht := hn.here.token key (Children.mem_keys.mpr ⟨_, hm⟩)
      intro token hs
      rw [Path.tokens_spelled_cons, List.mem_append] at hs
      rcases hs with hs | hs
      · cases key with
        | finish => exact absurd hs List.not_mem_nil
        | keyword word =>
          obtain rfl := List.mem_singleton.mp hs
          exact ht (by simp)
        | parameter name =>
          obtain rfl | hs := List.mem_cons.mp hs
          · exact ht (by simp)
          · obtain rfl := List.mem_singleton.mp hs
            exact hv name token (by simp)
      · exact hr token hs

end Node

namespace Path

theorem isToken_placeholder {text : String} (h : Text.IsToken text) :
    Text.IsToken ("<" ++ text ++ ">") := by
  have hs : Text.isSpace '<' = false ∧ Text.isSpace '>' = false := by decide
  refine ⟨by simp, ?_⟩
  intro c hc
  simp only [String.toList_append, List.mem_append] at hc
  rcases hc with (hc | hc) | hc
  · obtain rfl : c = '<' := by simpa using hc
    exact hs.1
  · exact h.2 c hc
  · obtain rfl : c = '>' := by simpa using hc
    exact hs.2

end Path

namespace Node

theorem isToken_of_placeholders {node : Node α} {path : List Key} {a : α}
    (hn : node.Everywhere Children.Plain) (h : node.Leads path a) :
    ∀ key ∈ path, key ≠ .finish → Text.IsToken ("<" ++ key.text ++ ">") := by
  induction h with
  | action => simp
  | step hm _ ih =>
    intro other ho hf
    rcases List.mem_cons.mp ho with rfl | ho
    · exact Path.isToken_placeholder (hn.here.token _ (Children.mem_keys.mpr ⟨_, hm⟩) hf)
    · exact ih (hn.child hm) other ho hf

theorem tokens_helpLine {node : Node α} {path : List Key} {a : α}
    (hn : node.Everywhere Children.Plain) (h : node.Leads path a) :
    Text.tokens (Path.helpLine path) =
      Segment.tokens (Path.spelled (path.map Path.placeholder)) := by
  have hp : (path.map Path.placeholder).map Prod.fst = path := by
    simp [Path.placeholder, Function.comp_def]
  have hv : ∀ name value, (.parameter name, value) ∈ path.map Path.placeholder →
      Text.IsToken value := by
    intro name value hm
    obtain ⟨key, hk, he⟩ := List.mem_map.mp hm
    obtain ⟨rfl, rfl⟩ := Prod.mk.inj he
    exact isToken_of_placeholders hn h _ hk (by simp)
  rw [Path.helpLine_eq_filledLine]
  exact Path.tokens_filledLine (isToken_of_leads hn (hp ▸ h) hv)

/-- Every line of help that is not blank runs the command it stands for, whatever values are put in
the places of its placeholders. -/
theorem parse_filledLine (root : Node α) (ho : root.Ordered)
    (hn : root.Everywhere Children.Plain) :
    (∀ line, line ∈ root.completions "" ↔
      ∃ path a, root.Leads path a ∧ line = Path.helpLine path) ∧
    (∀ path, Path.helpLine path = Path.filledLine (path.map Path.placeholder)) ∧
    ∀ path a, root.Leads path a → Text.tokens (Path.helpLine path) ≠ [] →
      ∀ filled : List (Key × String), filled.map Prod.fst = path →
        (∀ name value, (.parameter name, value) ∈ filled → Text.IsToken value) →
        ∃ parameters normalized,
          root.parse (Path.filledLine filled) .execute =
            .ok (.execute a parameters normalized) ∧
          ∀ name, Table.find? name parameters = Table.find? name (Path.bound filled).reverse := by
  refine ⟨?_, Path.helpLine_eq_filledLine, ?_⟩
  · intro line
    simp only [mem_completions, Path.helpLine, String.empty_append]
  · rintro path a hp hb filled rfl hv
    have ht := Path.tokens_filledLine (isToken_of_leads hn hp hv)
    have hl : Text.tokens (Path.filledLine filled) ≠ [] := by
      rw [tokens_helpLine hn hp, Ne, Path.tokens_spelled_eq_nil_iff] at hb
      rw [ht, Ne, Path.tokens_spelled_eq_nil_iff]
      simpa [Path.placeholder, Function.comp_def] using hb
    refine ⟨Table.ofList (Path.bound filled),
      Text.trimEnd (" ".intercalate (Segment.words (Path.spelled filled))), ?_,
      fun name => Table.find?_ofList name (Path.bound filled)⟩
    rw [parse_of_tokens_ne_nil root hl, ht, read_of_derives (derives_spelled hn hp) ho,
      accepted_after_nil, Path.bindings_spelled]

end Node

end Vty.Grammar

namespace Vty.Daemon

open Grammar

theorem plain_grammar : grammar.Everywhere Children.Plain := by
  have ha (action : Action Daemon) : (Node.action action).Everywhere Children.Plain :=
    .action action
  refine everywhere_branch (.of_keys (by decide) (by decide) (by decide)) ?_
  simp only [List.forall_mem_cons, ha, List.not_mem_nil, false_imp_iff, implies_true, true_and,
    and_true]
  refine ⟨?_, ?_, ?_, ?_⟩ <;>
    refine everywhere_branch (.of_keys (by decide) (by decide) (by decide)) ?_ <;>
    simp only [List.forall_mem_cons, ha, List.not_mem_nil, false_imp_iff, implies_true, and_true]
  refine everywhere_branch (.of_keys (by decide) (by decide) (by decide)) ?_
  simp [ha]

theorem parse_filledLine_setName :
    grammar.Ordered ∧ grammar.Everywhere Children.Plain ∧
      grammar.Leads [.keyword "set", .keyword "name", .parameter "name"] setName ∧
      Text.tokens (Path.helpLine [.keyword "set", .keyword "name", .parameter "name"]) ≠ [] ∧
      Path.filledLine [(.keyword "set", ""), (.keyword "name", ""), (.parameter "name", "set")] =
        "set name name set" ∧
      ∃ parameters normalized,
        grammar.parse "set name name set" .execute =
          .ok (.execute setName parameters normalized) ∧
        Table.find? "name" parameters = some "set" := by
  have hl : grammar.Leads [.keyword "set", .keyword "name", .parameter "name"] setName := by
    refine .step (.tail _ (.tail _ (.tail _ (.head _)))) ?_
    exact .step (.head _) (.step (.head _) (.action _))
  refine ⟨ordered_grammar, plain_grammar, hl, by decide, by decide, ?_⟩
  obtain ⟨parameters, normalized, hp, hf⟩ :=
    (Node.parse_filledLine grammar ordered_grammar plain_grammar).2.2 _ _ hl (by decide)
      [(.keyword "set", ""), (.keyword "name", ""), (.parameter "name", "set")] rfl
      (by simp; decide)
  exact ⟨parameters, normalized, hp, (hf "name").trans rfl⟩

end Vty.Daemon
