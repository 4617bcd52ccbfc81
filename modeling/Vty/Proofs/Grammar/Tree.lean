import Vty.Grammar.Parse
import Vty.Proofs.Table
import Mathlib.Data.String.Basic

namespace Vty.Grammar

variable {α : Type}

namespace Key

theorem lt_iff {a b : Key} : a < b ↔ a.text < b.text ∨ a.text = b.text ∧ a.rank < b.rank :=
  Iff.rfl

theorem lt_irrefl (a : Key) : ¬ a < a := by
  simp [lt_iff]

theorem eq_of_text_rank {a b : Key} (ht : a.text = b.text) (hr : a.rank = b.rank) : a = b := by
  cases a <;> cases b <;> simp_all [text, rank]

theorem lt_of_not_lt {a b : Key} (h : ¬ a < b) (hne : a ≠ b) : b < a := by
  simp only [lt_iff, not_or, not_and, not_lt] at h ⊢
  rcases lt_or_eq_of_le h.1 with ht | ht
  · exact .inl ht
  · have hr := h.2 ht.symm
    exact .inr ⟨ht, lt_of_le_of_ne hr fun he => hne (eq_of_text_rank ht.symm he.symm)⟩

theorem lt_trans {a b c : Key} (hab : a < b) (hbc : b < c) : a < c := by
  rw [lt_iff] at *
  rcases hab with hab | ⟨hab, hr⟩ <;> rcases hbc with hbc | ⟨hbc, hr'⟩
  · exact .inl (hab.trans hbc)
  · exact .inl (hbc ▸ hab)
  · exact .inl (hab ▸ hbc)
  · exact .inr ⟨hab.trans hbc, hr.trans hr'⟩

instance : IsStrictTotalOrder Key (· < ·) where
  irrefl := lt_irrefl
  trans _ _ _ := lt_trans
  trichotomous _ _ hab hba := by
    by_contra hne
    exact hba (lt_of_not_lt hab hne)

theorem abbreviatedBy_keyword_self (word : String) : (keyword word).abbreviatedBy word = true := by
  simp [abbreviatedBy]

theorem abbreviatedBy_parameter_self (name : String) :
    (parameter name).abbreviatedBy name = true := by
  simp [abbreviatedBy]

end Key

namespace Children

def keys (children : Children α) : List Key :=
  children.map Prod.fst

def Sorted (children : Children α) : Prop :=
  children.keys.Pairwise (· < ·)

theorem Sorted.nodup {children : Children α} (h : children.Sorted) : children.keys.Nodup :=
  Table.Sorted.nodup h

theorem mem_keys {children : Children α} {key : Key} :
    key ∈ children.keys ↔ ∃ child, (key, child) ∈ children :=
  Table.mem_keys

theorem eq_of_mem {children : Children α} (h : children.keys.Nodup) {key : Key}
    {child other : Node α} (hc : (key, child) ∈ children) (ho : (key, other) ∈ children) :
    child = other :=
  Table.value_eq_of_mem h hc ho

theorem find?_eq_some_iff {children : Children α} (h : children.keys.Nodup) {key : Key}
    {child : Node α} : Table.find? key children = some child ↔ (key, child) ∈ children :=
  Table.find?_eq_some_iff h

theorem find?_eq_none_iff {children : Children α} {key : Key} :
    Table.find? key children = none ↔ key ∉ children.keys :=
  Table.find?_eq_none_iff

theorem sorted_insert {children : Children α} (h : children.Sorted) (key : Key) (child : Node α) :
    Sorted (Table.insert key child children) :=
  Table.sorted_insert h key child

theorem sorted_ofList (entries : List (Key × Node α)) : (ofList entries).Sorted :=
  Table.sorted_ofList entries

theorem mem_of_mem_insert {key : Key} {child : Node α} {children : Children α}
    {entry : Key × Node α} (h : entry ∈ Table.insert key child children) :
    entry = (key, child) ∨ entry ∈ children := by
  induction children with
  | nil => simpa [Table.insert] using h
  | cons first rest ih =>
    simp only [Table.insert] at h
    split at h
    · simpa using h
    · split at h
      · rcases List.mem_cons.mp h with h | h
        · exact .inl h
        · exact .inr (List.mem_cons_of_mem _ h)
      · rcases List.mem_cons.mp h with h | h
        · exact .inr (h ▸ by simp)
        · exact (ih h).imp_right (List.mem_cons_of_mem _)

theorem mem_of_mem_ofList {entries : List (Key × Node α)} {entry : Key × Node α} :
    entry ∈ ofList entries → entry ∈ entries := by
  have step (table : Children α)
      (h : entry ∈ entries.foldl (fun table entry => Table.insert entry.1 entry.2 table) table) :
      entry ∈ table ∨ entry ∈ entries := by
    induction entries generalizing table with
    | nil => exact .inl h
    | cons first rest ih =>
      rcases ih _ h with h | h
      · rcases mem_of_mem_insert h with rfl | h
        · exact .inr (by simp)
        · exact .inl h
      · exact .inr (List.mem_cons_of_mem _ h)
  exact fun hm => (step [] hm).resolve_left (by simp)

end Children

namespace Node

mutual

theorem induct {motive : Node α → Prop} (action : ∀ a, motive (.action a))
    (branch : ∀ children, (∀ entry ∈ children, motive entry.2) → motive (.branch children)) :
    ∀ node, motive node
  | .action a => action a
  | .branch children => branch children (inductBelow action branch children)

theorem inductBelow {motive : Node α → Prop} (action : ∀ a, motive (.action a))
    (branch : ∀ children, (∀ entry ∈ children, motive entry.2) → motive (.branch children)) :
    ∀ (children : Children α), ∀ entry ∈ children, motive entry.2
  | [], _, hm => absurd hm (List.not_mem_nil)
  | (_, child) :: rest, entry, hm =>
    (List.mem_cons.mp hm).elim (fun he => he ▸ induct action branch child)
      (inductBelow action branch rest entry)

end

inductive Everywhere (P : Children α → Prop) : Node α → Prop
  | action (a : α) : Everywhere P (.action a)
  | branch {children : Children α} : P children →
      (∀ entry ∈ children, Everywhere P entry.2) → Everywhere P (.branch children)

/-- Every branch lists each of its keys once, in the order of help. -/
def Ordered : Node α → Prop :=
  Everywhere Children.Sorted

theorem everywhere_branch {P : Children α → Prop} {children : Children α} :
    (Node.branch children).Everywhere P ↔
      P children ∧ ∀ entry ∈ children, entry.2.Everywhere P := by
  constructor
  · rintro ⟨⟩
    exact ⟨‹_›, ‹_›⟩
  · exact fun h => .branch h.1 h.2

theorem Everywhere.here {P : Children α → Prop} {children : Children α}
    (h : (Node.branch children).Everywhere P) : P children :=
  (everywhere_branch.mp h).1

theorem Everywhere.child {P : Children α → Prop} {children : Children α} {key : Key}
    {node : Node α} (h : (Node.branch children).Everywhere P) (hm : (key, node) ∈ children) :
    node.Everywhere P :=
  (everywhere_branch.mp h).2 _ hm

theorem everywhere_ofList {P : Children α → Prop} {entries : List (Key × Node α)}
    (hp : P (Children.ofList entries)) (h : ∀ entry ∈ entries, entry.2.Everywhere P) :
    (ofList entries).Everywhere P :=
  .branch hp fun entry hm => h entry (Children.mem_of_mem_ofList hm)

theorem ordered_ofList {entries : List (Key × Node α)} (h : ∀ entry ∈ entries, entry.2.Ordered) :
    (ofList entries).Ordered :=
  everywhere_ofList (Children.sorted_ofList entries) h

theorem ordered_insert {node : Node α} (h : node.Ordered) (key : Key) {child : Node α}
    (hc : child.Ordered) : (node.insert key child).Ordered := by
  cases node with
  | action a => exact .action a
  | branch children =>
    refine .branch (Children.sorted_insert h.here key child) fun entry hm => ?_
    rcases Children.mem_of_mem_insert hm with rfl | hm
    · exact hc
    · exact h.child hm

inductive Leads : Node α → List Key → α → Prop
  | action (a : α) : Leads (.action a) [] a
  | step {children : Children α} {key : Key} {child : Node α} {path : List Key} {a : α} :
      (key, child) ∈ children → Leads child path a → Leads (.branch children) (key :: path) a

end Node

end Vty.Grammar
