import Vty.Proofs.Grammar.Tree

namespace Vty.Grammar

variable {α : Type}

def Path.help : List Key → String
  | [] => ""
  | key :: path => key.help ++ help path

namespace Node

/-- What can be built from actions: branches of entries listed in any order, a later one in the
place of an earlier one with its key, and branches with an entry added. -/
inductive Built : Node α → Prop
  | action (a : α) : Built (.action a)
  | ofList {entries : List (Key × Node α)} :
      (∀ entry ∈ entries, Built entry.2) → Built (.ofList entries)
  | insert {node child : Node α} (key : Key) :
      Built node → Built child → Built (node.insert key child)

theorem Built.ordered {node : Node α} (h : node.Built) : node.Ordered := by
  induction h with
  | action a => exact .action a
  | ofList _ ih => exact ordered_ofList ih
  | insert key _ _ ih hc => exact ordered_insert ih key hc

mutual

def paths : Node α → List (List Key)
  | .action _ => [[]]
  | .branch children => pathsBelow children

def pathsBelow : Children α → List (List Key)
  | [] => []
  | (key, child) :: rest => child.paths.map (key :: ·) ++ pathsBelow rest

end

variable {children : Children α} {path : List Key}

theorem mem_pathsBelow :
    path ∈ pathsBelow children ↔
      ∃ key child tail, (key, child) ∈ children ∧ tail ∈ child.paths ∧ path = key :: tail := by
  induction children with
  | nil => simp [pathsBelow]
  | cons entry rest ih =>
    obtain ⟨first, node⟩ := entry
    simp only [pathsBelow, List.mem_append, List.mem_map, ih, List.mem_cons, Prod.mk.injEq]
    constructor
    · rintro (⟨tail, ht, rfl⟩ | ⟨key, child, tail, hm, ht, rfl⟩)
      · exact ⟨first, node, tail, .inl ⟨rfl, rfl⟩, ht, rfl⟩
      · exact ⟨key, child, tail, .inr hm, ht, rfl⟩
    · rintro ⟨key, child, tail, ⟨rfl, rfl⟩ | hm, ht, rfl⟩
      · exact .inl ⟨tail, ht, rfl⟩
      · exact .inr ⟨key, child, tail, hm, ht, rfl⟩

theorem mem_paths {node : Node α} : path ∈ node.paths ↔ ∃ a, node.Leads path a := by
  induction node using Node.induct generalizing path with
  | action a =>
    rw [paths, List.mem_singleton]
    constructor
    · rintro rfl
      exact ⟨a, .action a⟩
    · rintro ⟨_, ⟨⟩⟩
      rfl
  | branch children ih =>
    rw [paths, mem_pathsBelow]
    constructor
    · rintro ⟨key, child, tail, hm, ht, rfl⟩
      obtain ⟨a, hl⟩ := (ih _ hm).mp ht
      exact ⟨a, .step hm hl⟩
    · rintro ⟨a, hl⟩
      cases hl with
      | step hm hl => exact ⟨_, _, _, hm, (ih _ hm).mpr ⟨a, hl⟩, rfl⟩

theorem pairwise_pathsBelow (hs : children.Sorted)
    (hc : ∀ entry ∈ children, entry.2.paths.Pairwise (· < ·)) :
    (pathsBelow children).Pairwise (· < ·) := by
  induction children with
  | nil => exact .nil
  | cons entry rest ih =>
    obtain ⟨key, child⟩ := entry
    rw [List.forall_mem_cons] at hc
    have hr := List.pairwise_cons.mp hs
    refine List.pairwise_append.mpr ⟨?_, ih hr.2 hc.2, ?_⟩
    · exact hc.1.map _ fun _ _ hlt => .cons hlt
    · intro a ha b hb
      obtain ⟨tail, -, rfl⟩ := List.mem_map.mp ha
      obtain ⟨other, node, tail', hm, -, rfl⟩ := mem_pathsBelow.mp hb
      exact .rel (hr.1 other (Children.mem_keys.mpr ⟨node, hm⟩))

theorem pairwise_paths {node : Node α} (ho : node.Ordered) : node.paths.Pairwise (· < ·) := by
  induction node using Node.induct with
  | action a => exact List.pairwise_singleton ..
  | branch children ih =>
    exact pairwise_pathsBelow ho.here fun entry hm => ih entry hm (ho.child hm)

theorem completionsBelow_eq_map_paths (lead : String)
    (hc : ∀ entry ∈ children, ∀ lead, entry.2.completions lead =
      entry.2.paths.map fun path => Text.trimEnd (lead ++ Path.help path)) :
    completionsBelow lead children =
      (pathsBelow children).map fun path => Text.trimEnd (lead ++ Path.help path) := by
  induction children with
  | nil => rfl
  | cons entry rest ih =>
    obtain ⟨key, child⟩ := entry
    rw [List.forall_mem_cons] at hc
    rw [completionsBelow, pathsBelow, List.map_append, List.map_map, ih hc.2, hc.1]
    simp only [Function.comp_def, Path.help, String.append_assoc]

theorem completions_eq_map_paths (lead : String) (node : Node α) :
    node.completions lead = node.paths.map fun path => Text.trimEnd (lead ++ Path.help path) := by
  induction node using Node.induct generalizing lead with
  | action a => simp [completions, paths, Path.help]
  | branch children ih => exact completionsBelow_eq_map_paths lead fun entry hm => (ih entry hm ·)

/-- Help lists every command below a node once, in the order of the paths: key by key, by their
texts, and of one text the end before the keyword before the parameter. -/
theorem completions_sorted (node : Node α) (hb : node.Built) :
    (∀ path, path ∈ node.paths ↔ ∃ a, node.Leads path a) ∧
      node.paths.Nodup ∧
      (∀ lead, node.completions lead =
        node.paths.map fun path => Text.trimEnd (lead ++ Path.help path)) ∧
      node.paths.Pairwise
        (List.Lex fun a b => a.text < b.text ∨ a.text = b.text ∧ a.rank < b.rank) := by
  have hp := pairwise_paths hb.ordered
  refine ⟨fun path => mem_paths, hp.imp ?_, fun lead => completions_eq_map_paths lead node, hp⟩
  rintro path _ hlt rfl
  exact List.lt_irrefl path hlt

def namesakes : Node Nat :=
  ofList [(.parameter "a", .action 0),
    (.keyword "a", ofList [(.keyword "b", .action 1), (.finish, .action 2)]), (.finish, .action 3)]

theorem completions_sorted_namesakes :
    namesakes.Built ∧
      namesakes.paths = [[.finish], [.keyword "a", .finish], [.keyword "a", .keyword "b"],
        [.parameter "a"]] ∧
      namesakes.completions "do " = ["do", "do a", "do a b", "do a <a>"] := by
  have hb : namesakes.Built := by
    refine .ofList ?_
    simp only [List.forall_mem_cons, List.not_mem_nil, false_imp_iff, implies_true, and_true]
    exact ⟨.action 0, .ofList (by simp [Built.action]), .action 3⟩
  refine ⟨hb, rfl, ?_⟩
  rw [(completions_sorted namesakes hb).2.2.1]
  rfl

end Node

end Vty.Grammar
