import Vty.Proofs.Grammar.Acceptance
import Vty.Proofs.Grammar.Reach

namespace Vty.Grammar

variable {α : Type}

/-- The token that leads nowhere, whatever follows it. Where something is missing there is none. -/
def Fault.hopeless? : Fault → Option String
  | .extraInput token | .ambiguous token _ | .unrecognized token _ => some token
  | .missingInput _ | .missingValue _ _ => none

namespace Node

theorem missingInput_of_conclude {mode : Mode} {node : Node α} {done : Progress} {fault : Fault}
    (h : node.conclude mode done = .error fault) :
    ∃ completions, fault = .missingInput completions := by
  unfold conclude at h
  split at h
  · split at h
    · cases h
    · exact ⟨_, (Except.error.inj h).symm⟩
  · cases h
  · dsimp only at h
    split at h
    · cases h
    · exact ⟨_, (Except.error.inj h).symm⟩

inductive Fails (mode : Mode) (done : Progress) : Node α → List String → Fault → Prop
  | inputless (node : Node α) (completions : List String) :
      Fails mode done node [] (.missingInput completions)
  | valueless {children : Children α} {token name : String} {child : Node α}
      (usage : List String) : Children.choose children token = .parameter name child →
      Fails mode done (.branch children) [token] (.missingValue name usage)
  | hopeless {node : Node α} {token : String} {fault : Fault} (back : List String) :
      fault.hopeless? = some token →
      (∀ more, node.read mode (token :: more) done = .error fault) →
      Fails mode done node (token :: back) fault

theorem Stops.fails {node : Node α} {left : List String} (hs : node.Stops left) {mode : Mode}
    {done : Progress} {fault : Fault} (h : node.read mode left done = .error fault) :
    Fails mode done node left fault := by
  cases hs with
  | ended =>
    obtain ⟨completions, rfl⟩ := missingInput_of_conclude h
    exact .inputless node completions
  | extra a token back =>
    obtain rfl := Except.error.inj h
    exact .hopeless back rfl fun _ => rfl
  | valueless hc =>
    simp only [read, hc] at h
    obtain rfl := Except.error.inj h
    exact .valueless _ hc
  | several back hc =>
    simp only [read, hc] at h
    obtain rfl := Except.error.inj h
    exact .hopeless back rfl fun _ => by simp only [read, hc]
  | unknown back hc =>
    simp only [read, hc] at h
    obtain rfl := Except.error.inj h
    exact .hopeless back rfl fun _ => by simp only [read, hc]

theorem not_stops_of_takes {children : Children α} {tokens rest : List String} {key : Key}
    {child : Node α} (h : children.keys.Nodup) (hm : (key, child) ∈ children)
    (ht : children.Takes key tokens) : ¬ (branch children).Stops (tokens ++ rest) := by
  rcases Children.choose_of_takes h hm ht with
    ⟨word, token, rfl, rfl, hc⟩ | ⟨name, token, value, rfl, rfl, hc⟩ | ⟨name, value, rfl, rfl, hc⟩ <;>
  · intro hs
    cases hs <;> simp_all

theorem stops_unique {node target target' : Node α} (ho : node.Ordered)
    {segments segments' : List Segment} {rest rest' : List String}
    (h : node.Reaches segments target) (h' : node.Reaches segments' target')
    (hs : target.Stops rest) (hs' : target'.Stops rest')
    (ht : Segment.tokens segments ++ rest = Segment.tokens segments' ++ rest') :
    segments = segments' ∧ target = target' ∧ rest = rest' := by
  induction h generalizing segments' with
  | here node =>
    cases h' with
    | here => exact ⟨rfl, rfl, ht⟩
    | @step _ _ _ _ tokens segments' hm hk _ =>
      have he : rest = tokens ++ (Segment.tokens segments' ++ rest') :=
        ht.trans (List.append_assoc ..)
      exact absurd (he ▸ hs) (not_stops_of_takes ho.here.nodup hm hk)
  | @step children key child target tokens segments hm hk _ ih =>
    cases h' with
    | here =>
      have he : tokens ++ (Segment.tokens segments ++ rest) = rest' :=
        (List.append_assoc ..).symm.trans ht
      exact absurd (he ▸ hs') (not_stops_of_takes ho.here.nodup hm hk)
    | @step _ key' child' _ tokens' segments' hm' hk' hr' =>
      have he : tokens ++ (Segment.tokens segments ++ rest) =
          tokens' ++ (Segment.tokens segments' ++ rest') :=
        (List.append_assoc ..).symm.trans (ht.trans (List.append_assoc ..))
      obtain ⟨rfl, rfl, rfl, hr⟩ := Children.takes_unique ho.here.nodup hm hm' hk hk' he
      obtain ⟨rfl, rfl, rfl⟩ := ih (ho.child hm) hr' hs hr
      exact ⟨rfl, rfl, rfl⟩

/-- Reading fails at the first token that leads nowhere, and more input does not change why. It
misses something only behind the last token. -/
theorem read_stable (root : Node α) (ho : root.Ordered) (mode : Mode) (tokens : List String) :
    (tokens ≠ [] → ∀ line, Text.tokens line = tokens →
      root.parse line mode = root.read mode tokens {}) ∧
    (∀ fault token, fault.hopeless? = some token → root.read mode tokens {} = .error fault →
      (∀ more, root.read mode (tokens ++ more) {} = .error fault) ∧
      ∃ front back, tokens = front ++ token :: back ∧
        root.read mode (front ++ [token]) {} = .error fault ∧
        ∀ other, root.read mode front {} = .error other → other.hopeless? = none) ∧
    (∀ segments a, root.Reaches segments (.action a) → Segment.tokens segments = tokens →
      ∀ token more, root.read mode (tokens ++ token :: more) {} = .error (.extraInput token)) ∧
    (∀ completions, root.read mode tokens {} = .error (.missingInput completions) →
      ∃ segments node, root.Reaches segments node ∧ Segment.tokens segments = tokens) ∧
    ∀ name usage, root.read mode tokens {} = .error (.missingValue name usage) →
      ∃ segments children token child, root.Reaches segments (.branch children) ∧
        Children.choose children token = .parameter name child ∧
        Segment.tokens segments ++ [token] = tokens := by
  obtain ⟨segments, node, left, hr, hs, rfl⟩ := exists_reaches ho tokens
  have hread := read_of_reaches hr ho mode
  refine ⟨?_, ?_, ?_, ?_, ?_⟩
  · intro hn line hl
    rw [← hl] at hn ⊢
    exact parse_of_tokens_ne_nil root hn mode
  · intro fault token ht h
    rw [hread] at h
    cases hs.fails h with
    | inputless => cases ht
    | valueless => cases ht
    | hopeless back hb hm =>
      obtain rfl := Option.some.inj (hb.symm.trans ht)
      refine ⟨fun more => ?_, Segment.tokens segments, back, rfl, (hread ..).trans (hm []), ?_⟩
      · rw [List.append_assoc, hread]
        exact hm (back ++ more)
      · intro other hf
        have he := hread [] {}
        rw [List.append_nil, hf] at he
        obtain ⟨completions, rfl⟩ := missingInput_of_conclude he.symm
        rfl
  · intro segments' a hr' he token more
    rw [← he, read_of_reaches hr' ho]
    rfl
  · intro completions h
    rw [hread] at h
    cases hs.fails h with
    | inputless => exact ⟨segments, node, hr, (List.append_nil _).symm⟩
    | hopeless back hb => cases hb
  · intro name usage h
    rw [hread] at h
    cases hs.fails h with
    | valueless _ hc => exact ⟨segments, _, _, _, hr, hc, rfl⟩
    | hopeless back hb => cases hb

end Node

end Vty.Grammar

namespace Vty.Daemon

open Grammar (Node Segment)

theorem read_stable_commands :
    grammar.Ordered ∧
      grammar.read .execute ["e"] {} = .error (.ambiguous "e" ["echo text <text>", "exit"]) ∧
      grammar.read .execute ["e", "text", "x"] {} =
        .error (.ambiguous "e" ["echo text <text>", "exit"]) ∧
      grammar.Reaches [(.keyword "exit", ["exit"])] (.action exit) ∧
      grammar.read .help ["exit", "now", "please"] {} = .error (.extraInput "now") := by
  have ha : grammar.read .execute ["e"] {} =
      .error (.ambiguous "e" ["echo text <text>", "exit"]) := rfl
  have hr : grammar.Reaches [(.keyword "exit", ["exit"])] (.action exit) :=
    .step (.tail _ (.tail _ (.head _))) (.keyword "exit") (.here _)
  have hs := (Node.read_stable grammar ordered_grammar .execute ["e"]).2.1 _ "e" rfl ha
  have he := (Node.read_stable grammar ordered_grammar .help ["exit"]).2.2.1 _ exit hr rfl
  exact ⟨ordered_grammar, ha, hs.1 ["text", "x"], hr, he "now" ["please"]⟩

end Vty.Daemon
