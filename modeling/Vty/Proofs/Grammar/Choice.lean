import Vty.Proofs.Grammar.Tree

namespace Vty.Grammar.Children

variable {α : Type}

/-- `token` abbreviates `key` and no other key of the branch. -/
def Selects (children : Children α) (token : String) (key : Key) : Prop :=
  ∀ other, other ∈ children.keys ∧ other.abbreviatedBy token = true ↔ other = key

def Abbreviates (children : Children α) (token : String) (key : Key) : Prop :=
  .keyword token ∉ children.keys ∧ .parameter token ∉ children.keys ∧ children.Selects token key

theorem Selects.abbreviatedBy {children : Children α} {token : String} {key : Key}
    (h : children.Selects token key) : key.abbreviatedBy token = true :=
  ((h key).mpr rfl).2

theorem forMatching_perm {γ : Type} (entries : List (Key × γ)) :
    (forMatching entries).Perm entries := by
  induction entries with
  | nil => exact .refl _
  | cons entry rest ih =>
    obtain ⟨key, child⟩ := entry
    cases key with
    | finish => simpa [forMatching, Key.rank] using ih
    | keyword word =>
      simp only [forMatching, Key.rank, List.filter_cons] at ih ⊢
      exact List.perm_middle.trans (ih.cons _)
    | parameter name =>
      simp only [forMatching, Key.rank, List.filter_cons, ← List.append_assoc] at ih ⊢
      exact List.perm_middle.trans (ih.cons _)

theorem forMatching_eq_nil_iff {γ : Type} {entries : List (Key × γ)} :
    forMatching entries = [] ↔ entries = [] := by
  have hp := forMatching_perm entries
  rw [← List.perm_nil, ← List.perm_nil]
  exact ⟨hp.symm.trans, hp.trans⟩

theorem forMatching_eq_singleton_iff {γ : Type} {entries : List (Key × γ)} {entry : Key × γ} :
    forMatching entries = [entry] ↔ entries = [entry] := by
  have hp := forMatching_perm entries
  rw [← List.perm_singleton, ← List.perm_singleton]
  exact ⟨hp.symm.trans, hp.trans⟩

theorem eq_singleton_iff {γ : Type} {l : List γ} (h : l.Nodup) {x : γ} :
    l = [x] ↔ ∀ y, y ∈ l ↔ y = x := by
  rw [← List.perm_singleton, List.perm_ext_iff_of_nodup h (List.nodup_singleton x)]
  simp

theorem filter_eq_singleton_iff {children : Children α} (h : children.keys.Nodup) {token : String}
    {key : Key} {child : Node α} :
    children.filter (fun entry => entry.1.abbreviatedBy token) = [(key, child)] ↔
      (key, child) ∈ children ∧ children.Selects token key := by
  rw [eq_singleton_iff ((List.Nodup.of_map _ h).filter _)]
  simp only [List.mem_filter]
  constructor
  · intro hs
    have hm := (hs (key, child)).mpr rfl
    refine ⟨hm.1, fun other => ⟨?_, ?_⟩⟩
    · rintro ⟨ho, ha⟩
      obtain ⟨node, hn⟩ := mem_keys.mp ho
      exact congrArg Prod.fst ((hs (other, node)).mp ⟨hn, ha⟩)
    · rintro rfl
      exact ⟨mem_keys.mpr ⟨child, hm.1⟩, hm.2⟩
  · rintro ⟨hm, hs⟩ ⟨other, node⟩
    constructor
    · rintro ⟨hn, ha⟩
      obtain rfl := (hs other).mp ⟨mem_keys.mpr ⟨node, hn⟩, ha⟩
      rw [eq_of_mem h hm hn]
    · rintro ⟨⟩
      exact ⟨hm, hs.abbreviatedBy⟩

theorem candidates_of_keyword {children : Children α} (h : children.keys.Nodup) {token : String}
    {child : Node α} (hm : (.keyword token, child) ∈ children) :
    children.candidates token = [(.keyword token, child)] := by
  rw [candidates, (find?_eq_some_iff h).mpr hm]

theorem candidates_of_parameter {children : Children α} (h : children.keys.Nodup) {token : String}
    {child : Node α} (hk : .keyword token ∉ children.keys)
    (hm : (.parameter token, child) ∈ children) :
    children.candidates token = [(.parameter token, child)] := by
  rw [candidates, find?_eq_none_iff.mpr hk, (find?_eq_some_iff h).mpr hm]

theorem candidates_of_unspelled {children : Children α} {token : String}
    (hk : .keyword token ∉ children.keys) (hp : .parameter token ∉ children.keys) :
    children.candidates token =
      forMatching (children.filter fun entry => entry.1.abbreviatedBy token) := by
  rw [candidates, find?_eq_none_iff.mpr hk, find?_eq_none_iff.mpr hp]

theorem candidates_eq_singleton_iff {children : Children α} (h : children.keys.Nodup)
    {token : String} {key : Key} {child : Node α} :
    children.candidates token = [(key, child)] ↔ (key, child) ∈ children ∧
      (key = .keyword token ∨ key = .parameter token ∧ .keyword token ∉ children.keys ∨
        children.Abbreviates token key) := by
  by_cases hk : .keyword token ∈ children.keys
  · obtain ⟨node, hn⟩ := mem_keys.mp hk
    rw [candidates_of_keyword h hn]
    simp only [List.cons.injEq, Prod.mk.injEq, and_true, hk, not_true, and_false, Abbreviates,
      false_and, or_false]
    constructor
    · rintro ⟨rfl, rfl⟩
      exact ⟨hn, rfl⟩
    · rintro ⟨hm, rfl⟩
      exact ⟨rfl, eq_of_mem h hn hm⟩
  · by_cases hp : .parameter token ∈ children.keys
    · obtain ⟨node, hn⟩ := mem_keys.mp hp
      rw [candidates_of_parameter h hk hn]
      simp only [List.cons.injEq, Prod.mk.injEq, and_true, hk, hp, not_true, not_false_eq_true,
        Abbreviates, and_false, false_and, or_false]
      constructor
      · rintro ⟨rfl, rfl⟩
        exact ⟨hn, .inr rfl⟩
      · rintro ⟨hm, rfl | rfl⟩
        · exact absurd (mem_keys.mpr ⟨_, hm⟩) hk
        · exact ⟨rfl, eq_of_mem h hn hm⟩
    · rw [candidates_of_unspelled hk hp, forMatching_eq_singleton_iff, filter_eq_singleton_iff h]
      refine and_congr_right fun hm => ⟨fun hs => .inr (.inr ⟨hk, hp, hs⟩), ?_⟩
      rintro (rfl | ⟨rfl, -⟩ | hs)
      · exact absurd (mem_keys.mpr ⟨_, hm⟩) hk
      · exact absurd (mem_keys.mpr ⟨_, hm⟩) hp
      · exact hs.2.2

theorem candidates_eq_nil_iff {children : Children α} (h : children.keys.Nodup) {token : String} :
    children.candidates token = [] ↔ ∀ key ∈ children.keys, key.abbreviatedBy token = false := by
  by_cases hk : .keyword token ∈ children.keys
  · obtain ⟨node, hn⟩ := mem_keys.mp hk
    simp only [candidates_of_keyword h hn, List.cons_ne_nil, false_iff, not_forall]
    exact ⟨_, hk, by simp [Key.abbreviatedBy_keyword_self]⟩
  · by_cases hp : .parameter token ∈ children.keys
    · obtain ⟨node, hn⟩ := mem_keys.mp hp
      simp only [candidates_of_parameter h hk hn, List.cons_ne_nil, false_iff, not_forall]
      exact ⟨_, hp, by simp [Key.abbreviatedBy_parameter_self]⟩
    · rw [candidates_of_unspelled hk hp, forMatching_eq_nil_iff, List.filter_eq_nil_iff]
      simp only [mem_keys, Prod.forall, Bool.not_eq_true]
      grind

theorem mem_parameters {children : Children α} {name : String} {child : Node α} :
    (name, child) ∈ children.parameters ↔ (.parameter name, child) ∈ children := by
  simp only [parameters, List.mem_filterMap]
  constructor
  · rintro ⟨⟨key, node⟩, hm, he⟩
    cases key <;> simp_all
  · exact fun hm => ⟨_, hm, rfl⟩

theorem nodup_parameters {children : Children α} (h : children.keys.Nodup) :
    children.parameters.Nodup := by
  refine List.Nodup.filterMap ?_ (List.Nodup.of_map _ h)
  rintro ⟨key, node⟩ ⟨other, node'⟩ entry he ho
  cases key <;> cases other <;> grind

theorem soleParameter_eq_some_iff {children : Children α} (h : children.keys.Nodup) {name : String}
    {child : Node α} :
    children.soleParameter = some (name, child) ↔ (.parameter name, child) ∈ children ∧
      ∀ other, .parameter other ∈ children.keys ↔ other = name := by
  have hs : children.soleParameter = some (name, child) ↔
      children.parameters = [(name, child)] := by
    unfold soleParameter
    split <;> simp_all
  rw [hs, eq_singleton_iff (nodup_parameters h)]
  constructor
  · intro hp
    have hm := mem_parameters.mp ((hp (name, child)).mpr rfl)
    refine ⟨hm, fun other => ⟨fun ho => ?_, ?_⟩⟩
    · obtain ⟨node, hn⟩ := mem_keys.mp ho
      exact congrArg Prod.fst ((hp (other, node)).mp (mem_parameters.mpr hn))
    · rintro rfl
      exact mem_keys.mpr ⟨child, hm⟩
  · rintro ⟨hm, ho⟩ ⟨other, node⟩
    rw [mem_parameters]
    constructor
    · intro hn
      obtain rfl := (ho other).mp (mem_keys.mpr ⟨node, hn⟩)
      rw [eq_of_mem h hm hn]
    · rintro ⟨⟩
      exact hm

theorem mem_of_mem_candidates {children : Children α} {token : String} {entry : Key × Node α}
    (h : entry ∈ children.candidates token) : entry ∈ children := by
  unfold candidates at h
  split at h
  · obtain rfl := List.mem_singleton.mp h
    exact Table.mem_of_find?_eq_some ‹_›
  · split at h
    · obtain rfl := List.mem_singleton.mp h
      exact Table.mem_of_find?_eq_some ‹_›
    · exact List.mem_of_mem_filter ((forMatching_perm _).mem_iff.mp h)

theorem mem_of_choose {children : Children α} {token : String} {name : String} {child : Node α} :
    (children.choose token = .keyword name child → (.keyword name, child) ∈ children) ∧
    (children.choose token = .parameter name child → (.parameter name, child) ∈ children) ∧
    (children.choose token = .value name child → (.parameter name, child) ∈ children) := by
  have hs : children.soleParameter = some (name, child) → (.parameter name, child) ∈ children := by
    intro hs
    unfold soleParameter at hs
    split at hs
    · rename_i only hp
      obtain rfl := Option.some.inj hs
      exact mem_parameters.mp (hp ▸ List.mem_singleton_self _)
    · cases hs
  unfold choose
  split
  · rename_i hc
    refine ⟨?_, nofun, nofun⟩
    rintro ⟨⟩
    exact mem_of_mem_candidates (hc ▸ List.mem_singleton_self _)
  · rename_i hc
    refine ⟨nofun, ?_, nofun⟩
    rintro ⟨⟩
    exact mem_of_mem_candidates (hc ▸ List.mem_singleton_self _)
  · exact ⟨nofun, nofun, nofun⟩
  · split
    · rename_i hv
      refine ⟨nofun, nofun, ?_⟩
      rintro ⟨⟩
      exact hs hv
    · exact ⟨nofun, nofun, nofun⟩

theorem choose_eq_keyword {children : Children α} {token word : String} {child : Node α} :
    children.choose token = .keyword word child ↔
      children.candidates token = [(.keyword word, child)] := by
  unfold choose
  split
  any_goals simp_all
  split <;> simp_all

theorem choose_eq_parameter {children : Children α} {token name : String} {child : Node α} :
    children.choose token = .parameter name child ↔
      children.candidates token = [(.parameter name, child)] := by
  unfold choose
  split
  any_goals simp_all
  split <;> simp_all

theorem choose_eq_keyword_iff {children : Children α} (h : children.keys.Nodup)
    {token word : String} {child : Node α} :
    children.choose token = .keyword word child ↔ (.keyword word, child) ∈ children ∧
      (token = word ∨ children.Abbreviates token (.keyword word)) := by
  rw [choose_eq_keyword, candidates_eq_singleton_iff h]
  simp [eq_comm]

theorem choose_eq_parameter_iff {children : Children α} (h : children.keys.Nodup)
    {token name : String} {child : Node α} :
    children.choose token = .parameter name child ↔ (.parameter name, child) ∈ children ∧
      (token = name ∧ .keyword name ∉ children.keys ∨
        children.Abbreviates token (.parameter name)) := by
  rw [choose_eq_parameter, candidates_eq_singleton_iff h]
  simp only [reduceCtorEq, Key.parameter.injEq, false_or]
  refine and_congr_right fun _ => or_congr_left ⟨?_, ?_⟩
  all_goals
    rintro ⟨rfl, hk⟩
    exact ⟨rfl, hk⟩

theorem not_candidates_finish {children : Children α} (h : children.keys.Nodup) {token : String}
    {child : Node α} : children.candidates token ≠ [(.finish, child)] := by
  rw [Ne, candidates_eq_singleton_iff h]
  rintro ⟨-, hf | ⟨hf, -⟩ | hf⟩
  · cases hf
  · cases hf
  · simpa [Key.abbreviatedBy] using hf.2.2.abbreviatedBy

theorem choose_eq_value_iff {children : Children α} (h : children.keys.Nodup) {token name : String}
    {child : Node α} :
    children.choose token = .value name child ↔ (.parameter name, child) ∈ children ∧
      (∀ key ∈ children.keys, key.abbreviatedBy token = false) ∧
        ∀ other, .parameter other ∈ children.keys ↔ other = name := by
  have hc : children.choose token = .value name child ↔
      children.candidates token = [] ∧ children.soleParameter = some (name, child) := by
    cases hl : children.candidates token with
    | nil =>
      simp only [choose, hl, true_and]
      split <;> simp_all
    | cons entry more =>
      obtain ⟨key, node⟩ := entry
      cases more with
      | nil =>
        cases key with
        | finish => exact absurd hl (not_candidates_finish h)
        | keyword word => simp [choose, hl]
        | parameter other => simp [choose, hl]
      | cons second more => simp [choose, hl]
  rw [hc, candidates_eq_nil_iff h, soleParameter_eq_some_iff h]
  tauto

end Vty.Grammar.Children
