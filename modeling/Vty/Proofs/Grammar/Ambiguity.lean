import Vty.Proofs.Grammar.Listing
import Vty.Proofs.Grammar.Stability

namespace Vty.Grammar

variable {α : Type}

def Path.starts (token : String) (path : List Key) : Bool :=
  path.head?.any (·.abbreviatedBy token)

namespace Children

variable {children : Children α} {token : String}

/-- The token spells out no key of the branch, and abbreviates more than one. -/
structure Ambiguous (children : Children α) (token : String) : Prop where
  keyword : .keyword token ∉ children.keys
  parameter : .parameter token ∉ children.keys
  several : 2 ≤ (children.keys.filter (·.abbreviatedBy token)).length

theorem candidates_perm (hk : .keyword token ∉ children.keys)
    (hp : .parameter token ∉ children.keys) :
    (children.candidates token).Perm (children.filter fun entry => entry.1.abbreviatedBy token) := by
  rw [candidates_of_unspelled hk hp]
  exact forMatching_perm _

theorem length_candidates (hk : .keyword token ∉ children.keys)
    (hp : .parameter token ∉ children.keys) :
    (children.candidates token).length =
      (children.keys.filter (·.abbreviatedBy token)).length := by
  rw [(candidates_perm hk hp).length_eq, keys, List.filter_map, List.length_map]
  rfl

theorem ambiguous_iff (h : children.keys.Nodup) :
    children.Ambiguous token ↔ 2 ≤ (children.candidates token).length := by
  constructor
  · intro ha
    rw [length_candidates ha.keyword ha.parameter]
    exact ha.several
  · intro hl
    have hk : .keyword token ∉ children.keys := by
      intro hk
      obtain ⟨node, hn⟩ := mem_keys.mp hk
      simp [candidates_of_keyword h hn] at hl
    have hp : .parameter token ∉ children.keys := by
      intro hp
      obtain ⟨node, hn⟩ := mem_keys.mp hp
      simp [candidates_of_parameter h hk hn] at hl
    exact ⟨hk, hp, length_candidates hk hp ▸ hl⟩

theorem choose_eq_several {entries : List (Key × Node α)} :
    children.choose token = .several entries ↔
      children.candidates token = entries ∧ 2 ≤ entries.length := by
  unfold choose
  split
  · grind
  · grind
  · grind
  · rename_i hn
    have hl : (children.candidates token).length < 2 := by
      cases hc : children.candidates token with
      | nil => exact Nat.zero_lt_two
      | cons first more =>
        cases more with
        | nil => exact Nat.one_lt_two
        | cons second more => exact (hn first second more hc).elim
    split <;> grind

theorem choose_eq_several_iff (h : children.keys.Nodup) {entries : List (Key × Node α)} :
    children.choose token = .several entries ↔
      children.Ambiguous token ∧ entries = children.candidates token := by
  rw [choose_eq_several, ambiguous_iff h]
  grind

end Children

namespace Node

theorem completionsBelow_eq_flatMap (lead : String) (children : Children α) :
    completionsBelow lead children =
      children.flatMap fun entry => entry.2.completions (lead ++ entry.1.help) := by
  induction children with
  | nil => rfl
  | cons entry rest ih => rw [completionsBelow, ih, List.flatMap_cons]

theorem pathsBelow_filter (children : Children α) (token : String) :
    pathsBelow (children.filter fun entry => entry.1.abbreviatedBy token) =
      (pathsBelow children).filter (Path.starts token) := by
  induction children with
  | nil => rfl
  | cons entry rest ih =>
    obtain ⟨key, child⟩ := entry
    have hs (tail : List Key) : Path.starts token (key :: tail) = key.abbreviatedBy token := rfl
    rw [pathsBelow, List.filter_append, List.filter_map, ← ih]
    cases hk : key.abbreviatedBy token <;>
      simp [Function.comp_def, hs, hk, pathsBelow]

theorem completionsBelow_candidates {children : Children α} {token : String}
    (h : children.Ambiguous token) (lead : String) :
    (completionsBelow lead (children.candidates token)).Perm
      (((branch children).paths.filter (Path.starts token)).map fun path =>
        Text.trimEnd (lead ++ Path.help path)) := by
  have hl : completionsBelow lead (children.filter fun entry => entry.1.abbreviatedBy token) =
      ((branch children).paths.filter (Path.starts token)).map fun path =>
        Text.trimEnd (lead ++ Path.help path) := by
    rw [paths, ← pathsBelow_filter]
    exact completionsBelow_eq_map_paths lead fun entry _ lead =>
      completions_eq_map_paths lead entry.2
  rw [← hl, completionsBelow_eq_flatMap, completionsBelow_eq_flatMap]
  exact (Children.candidates_perm h.keyword h.parameter).flatMap_right _

structure Meets (root : Node α) (line : String) (segments : List Segment) (children : Children α)
    (token : String) : Prop where
  reaches : root.Reaches segments (.branch children)
  tokens : ∃ rest, Text.tokens line = Segment.tokens segments ++ token :: rest

section

variable {root : Node α} {line token token' : String} {segments segments' : List Segment}
  {children children' : Children α}

theorem Meets.stops (h : root.Meets line segments children token) (ho : root.Ordered)
    (ha : children.Ambiguous token) (rest : List String) :
    (branch children).Stops (token :: rest) :=
  .several rest ((Children.choose_eq_several_iff (ho.reached h.reaches).here.nodup).mpr ⟨ha, rfl⟩)

theorem Meets.unique (h : root.Meets line segments children token) (ho : root.Ordered)
    (ha : children.Ambiguous token) (h' : root.Meets line segments' children' token')
    (ha' : children'.Ambiguous token') :
    segments = segments' ∧ children = children' ∧ token = token' := by
  obtain ⟨rest, ht⟩ := h.tokens
  obtain ⟨rest', ht'⟩ := h'.tokens
  obtain ⟨hs, hb, hr⟩ := stops_unique ho h.reaches h'.reaches (h.stops ho ha rest)
    (h'.stops ho ha' rest') (ht.symm.trans ht')
  exact ⟨hs, Node.branch.inj hb, (List.cons.inj hr).1⟩

theorem Meets.parse (h : root.Meets line segments children token) (ho : root.Ordered)
    (ha : children.Ambiguous token) (mode : Mode) :
    root.parse line mode = .error (.ambiguous token
      (completionsBelow (Text.spaced (Segment.words segments)) (children.candidates token))) := by
  obtain ⟨rest, ht⟩ := h.tokens
  have hc := (Children.choose_eq_several_iff (ho.reached h.reaches).here.nodup).mpr ⟨ha, rfl⟩
  rw [parse_of_tokens_ne_nil root (by simp [ht]), ht, read_of_reaches h.reaches ho, read, hc]
  simp only [Progress.after, String.empty_append]

theorem read_of_parse {mode : Mode} {fault : Fault} (h : root.parse line mode = .error fault) :
    root.read mode (Text.tokens line) {} = .error fault := by
  unfold Node.parse at h
  split at h
  · cases h
  · exact h

theorem meets_of_parse (ho : root.Ordered) {mode : Mode} {lines : List String}
    (h : root.parse line mode = .error (.ambiguous token lines)) :
    ∃ segments children, root.Meets line segments children token ∧
      Children.Ambiguous children token := by
  obtain ⟨segments, target, left, hr, hs, ht⟩ := exists_reaches ho (Text.tokens line)
  have hl := read_of_parse h
  rw [ht, read_of_reaches hr ho] at hl
  cases hs with
  | ended =>
    obtain ⟨completions, hm⟩ := missingInput_of_conclude hl
    cases hm
  | extra => cases hl
  | valueless hc =>
    simp only [read, hc] at hl
    cases hl
  | several back hc =>
    simp only [read, hc] at hl
    cases hl
    have hn := (ho.reached hr).here.nodup
    exact ⟨segments, _, ⟨hr, back, ht⟩, ((Children.choose_eq_several_iff hn).mp hc).1⟩
  | unknown back hc =>
    simp only [read, hc] at hl
    cases hl

end

/-- Reading reports a token as ambiguous just where it spells out no key of the branch that it has
come to and abbreviates several, and lists each command that starts with one of these. -/
theorem parse_ambiguous_iff (root : Node α) (ho : root.Ordered) (line : String) (mode : Mode) :
    (∀ segments children token, root.Meets line segments children token →
      Children.Ambiguous children token →
        ∃ lines, root.parse line mode = .error (.ambiguous token lines) ∧
          lines.Perm (((branch children).paths.filter (Path.starts token)).map fun path =>
            Text.trimEnd (Text.spaced (Segment.words segments) ++ Path.help path))) ∧
    (∀ token lines, root.parse line mode = .error (.ambiguous token lines) →
      ∃ segments children, root.Meets line segments children token ∧
        Children.Ambiguous children token) ∧
    (∀ segments segments' children children' token token',
      root.Meets line segments children token → Children.Ambiguous children token →
      root.Meets line segments' children' token' → Children.Ambiguous children' token' →
        segments = segments' ∧ children = children' ∧ token = token') ∧
    ∀ (node : Node α) lead, node.completions lead =
      node.paths.map fun path => Text.trimEnd (lead ++ Path.help path) := by
  refine ⟨?_, ?_, ?_, fun node lead => completions_eq_map_paths lead node⟩
  · intro segments children token hm ha
    exact ⟨_, hm.parse ho ha mode, completionsBelow_candidates ha _⟩
  · intro token lines h
    exact meets_of_parse ho h
  · intro segments segments' children children' token token' hm ha hm' ha'
    exact hm.unique ho ha hm' ha'

def crowded : Node Nat :=
  ofList [(.keyword "do", ofList [(.keyword "all", .action 0), (.parameter "east", .action 1),
    (.keyword "edge", ofList [(.finish, .action 2), (.keyword "on", .action 3)])])]

theorem parse_ambiguous_crowded :
    let reported := ["do edge", "do edge on", "do east <east>"]
    crowded.Ordered ∧ crowded.parse "d e on" .help = .error (.ambiguous "e" reported) ∧
      crowded.completions "" = ["do all", "do east <east>", "do edge", "do edge on"] ∧
      ∃ segments children, crowded.Meets "d e on" segments children "e" ∧
        Children.Ambiguous children "e" ∧
        reported.Perm (((branch children).paths.filter (Path.starts "e")).map fun path =>
          Text.trimEnd (Text.spaced (Segment.words segments) ++ Path.help path)) := by
  have ho : crowded.Ordered := by
    refine ordered_ofList ?_
    simp only [List.forall_mem_cons, List.not_mem_nil, false_imp_iff, implies_true, and_true]
    refine ordered_ofList ?_
    simp only [List.forall_mem_cons, List.not_mem_nil, false_imp_iff, implies_true, and_true]
    exact ⟨.action 0, .action 1, ordered_ofList (by simp [Ordered, Everywhere.action])⟩
  have hp : crowded.parse "d e on" .help =
    .error (.ambiguous "e" ["do edge", "do edge on", "do east <east>"]) := rfl
  obtain ⟨hreport, hplace, -⟩ := parse_ambiguous_iff crowded ho "d e on" .help
  obtain ⟨segments, children, hm, ha⟩ := hplace "e" _ hp
  obtain ⟨lines, hl, hlines⟩ := hreport segments children "e" hm ha
  obtain ⟨-, rfl⟩ := Fault.ambiguous.inj (Except.error.inj (hp.symm.trans hl))
  exact ⟨ho, hp, rfl, segments, children, hm, ha, hlines⟩

end Node

end Vty.Grammar
