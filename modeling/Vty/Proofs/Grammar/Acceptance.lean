import Vty.Commands
import Vty.Proofs.Grammar.Derivation

namespace Vty.Grammar

variable {α : Type}

namespace Children

theorem takes_unique {children : Children α} (h : children.keys.Nodup) {key other : Key}
    {child node : Node α} {tokens tokens' rest rest' : List String}
    (hm : (key, child) ∈ children) (hm' : (other, node) ∈ children)
    (ht : children.Takes key tokens) (ht' : children.Takes other tokens')
    (he : tokens ++ rest = tokens' ++ rest') :
    key = other ∧ child = node ∧ tokens = tokens' ∧ rest = rest' := by
  -- Both segments start with one token, and what it stands for fixes the key and the length.
  rcases choose_of_takes h hm ht with
    ⟨word, token, rfl, rfl, hc⟩ | ⟨name, token, value, rfl, rfl, hc⟩ | ⟨name, token, rfl, rfl, hc⟩ <;>
  rcases choose_of_takes h hm' ht' with
    ⟨word', token', rfl, rfl, hc'⟩ | ⟨name', token', value', rfl, rfl, hc'⟩ |
      ⟨name', token', rfl, rfl, hc'⟩
  all_goals
    simp only [List.cons_append, List.nil_append, List.cons.injEq] at he
    have hs := hc.symm.trans (he.1 ▸ hc')
    cases hs
  · exact ⟨rfl, rfl, by rw [he.1], he.2⟩
  · exact ⟨rfl, rfl, by rw [he.1, he.2.1], he.2.2⟩
  · exact ⟨rfl, rfl, by rw [he.1], he.2⟩

end Children

namespace Node

theorem derives_unique {node : Node α} (ho : node.Ordered) {segments segments' : List Segment}
    {a a' : α} (h : node.Derives segments a) (h' : node.Derives segments' a')
    (ht : Segment.tokens segments = Segment.tokens segments') : segments = segments' ∧ a = a' := by
  induction h generalizing segments' with
  | action a =>
    cases h'
    exact ⟨rfl, rfl⟩
  | finish hm _ hn ih =>
    cases h' with
    | finish hm' hd' _ =>
      obtain rfl := Children.eq_of_mem ho.here.nodup hm hm'
      obtain ⟨rfl, rfl⟩ := ih (ho.child hm) hd' ht
      exact ⟨rfl, rfl⟩
    | step _ ht' _ =>
      have hs : _ ++ _ = [] := ht.symm.trans hn
      exact absurd (List.append_eq_nil_iff.mp hs).1 ht'.ne_nil
  | step hm hk _ ih =>
    cases h' with
    | finish _ _ hn =>
      have hs : _ ++ _ = [] := ht.trans hn
      exact absurd (List.append_eq_nil_iff.mp hs).1 hk.ne_nil
    | step hm' hk' hd' =>
      obtain ⟨rfl, rfl, rfl, hr⟩ := Children.takes_unique ho.here.nodup hm hm' hk hk' ht
      obtain ⟨rfl, rfl⟩ := ih (ho.child hm) hd' hr
      exact ⟨rfl, rfl⟩

theorem parse_of_tokens_ne_nil (root : Node α) {line : String} (hl : Text.tokens line ≠ [])
    (mode : Mode) : root.parse line mode = root.read mode (Text.tokens line) {} := by
  unfold parse
  split
  · exact absurd ‹_› hl
  · rfl

theorem accepted_after_nil (a : α) (segments : List Segment) :
    accepted a (({} : Progress).after segments) =
      .execute a (Table.ofList (Segment.bindings segments))
        (Text.trimEnd (" ".intercalate (Segment.words segments))) := by
  simp [accepted, Progress.after, Table.ofList, Text.trimEnd_spaced]

/-- Reading a line succeeds for exactly the divisions of its tokens along a path of keys, and there
is at most one of these. -/
theorem parse_execute_iff_derives (root : Node α) (ho : root.Ordered) (line : String)
    (hl : Text.tokens line ≠ []) :
    (∀ a parameters normalized,
      root.parse line .execute = .ok (.execute a parameters normalized) ↔
        ∃ segments, root.Derives segments a ∧ Segment.tokens segments = Text.tokens line ∧
          parameters = Table.ofList (Segment.bindings segments) ∧
          normalized = Text.trimEnd (" ".intercalate (Segment.words segments))) ∧
    (∀ segments segments' a a', root.Derives segments a → root.Derives segments' a' →
      Segment.tokens segments = Text.tokens line → Segment.tokens segments' = Text.tokens line →
        segments = segments' ∧ a = a') ∧
    ∀ segments name, Table.find? name (Table.ofList (Segment.bindings segments)) =
      Table.find? name (Segment.bindings segments).reverse := by
  refine ⟨?_, ?_, ?_⟩
  · intro a parameters normalized
    rw [parse_of_tokens_ne_nil root hl]
    constructor
    · intro h
      obtain ⟨segments, hd, ht, he⟩ := derives_of_read ho h
      rw [accepted_after_nil] at he
      obtain ⟨-, rfl, rfl⟩ := Outcome.execute.inj he
      exact ⟨segments, hd, ht, rfl, rfl⟩
    · rintro ⟨segments, hd, ht, rfl, rfl⟩
      rw [← ht, read_of_derives hd ho, accepted_after_nil]
  · intro segments segments' a a' hd hd' ht ht'
    exact derives_unique ho hd hd' (ht.trans ht'.symm)
  · intro segments name
    exact Table.find?_ofList name _

end Node

end Vty.Grammar

namespace Vty.Daemon

open Grammar (Children Node Segment)

theorem everywhere_branch {P : Children (Action Daemon) → Prop}
    {entries : List (String × Node (Action Daemon))}
    (hp : P (.ofList (entries.map fun entry => (.ofText entry.1, entry.2))))
    (h : ∀ entry ∈ entries, entry.2.Everywhere P) : (branch entries).Everywhere P := by
  apply Node.everywhere_ofList hp
  intro entry hm
  obtain ⟨named, hn, rfl⟩ := List.mem_map.mp hm
  exact h named hn

theorem ordered_branch {entries : List (String × Node (Action Daemon))}
    (h : ∀ entry ∈ entries, entry.2.Ordered) : (branch entries).Ordered :=
  everywhere_branch (Children.sorted_ofList _) h

theorem ordered_grammar : grammar.Ordered := by
  have ho (action : Action Daemon) : (Node.action action).Ordered := .action action
  refine ordered_branch ?_
  simp only [List.forall_mem_cons, List.not_mem_nil, false_imp_iff, implies_true, and_true]
  refine ⟨ordered_branch ?_, ordered_branch ?_, ordered_branch ?_, ho _, ordered_branch ?_⟩ <;>
    simp only [List.forall_mem_cons, ho, List.not_mem_nil, false_imp_iff, implies_true, and_true]
  refine ordered_branch ?_
  simp [ho]

theorem derives_of_abbreviations :
    grammar.Ordered ∧ Text.tokens "se na x" ≠ [] ∧
      ∃ segments, grammar.Derives segments setName ∧
        Segment.tokens segments = Text.tokens "se na x" ∧
        [("name", "x")] = Table.ofList (Segment.bindings segments) ∧
        "set name x" = Text.trimEnd (" ".intercalate (Segment.words segments)) :=
  ⟨ordered_grammar, by decide, ((Node.parse_execute_iff_derives grammar ordered_grammar
    "se na x" (by decide)).1 setName _ _).mp rfl⟩

end Vty.Daemon
