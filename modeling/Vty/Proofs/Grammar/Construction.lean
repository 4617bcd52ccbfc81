import Vty.Proofs.Grammar.Choice

namespace Vty.Grammar

variable {α : Type}

theorem Key.matchesBefore_iff {a b : Key} :
    a.matchesBefore b = true ↔ a.rank < b.rank ∨ a.rank = b.rank ∧ a.text ≤ b.text :=
  decide_eq_true_iff

theorem Key.matchesBefore_trans (a b c : Key) (hab : a.matchesBefore b = true)
    (hbc : b.matchesBefore c = true) : a.matchesBefore c = true := by
  rw [matchesBefore_iff] at *
  rcases hab with hab | ⟨hab, ht⟩ <;> rcases hbc with hbc | ⟨hbc, ht'⟩
  · exact .inl (hab.trans hbc)
  · exact .inl (hbc ▸ hab)
  · exact .inl (hab ▸ hbc)
  · exact .inr ⟨hab.trans hbc, ht.trans ht'⟩

theorem Key.matchesBefore_total (a b : Key) :
    (a.matchesBefore b || b.matchesBefore a) = true := by
  rw [Bool.or_eq_true, matchesBefore_iff, matchesBefore_iff]
  rcases Nat.lt_trichotomy a.rank b.rank with h | h | h
  · exact .inl (.inl h)
  · exact (le_total a.text b.text).imp (.inr ⟨h, ·⟩) (.inr ⟨h.symm, ·⟩)
  · exact .inr (.inl h)

namespace Children

/-- The children as help lists them, from the order of matching: sorted by their texts alone, those
of one text as they stood. -/
def forHelp (children : Children α) : Children α :=
  (forMatching children).mergeSort fun a b => decide (a.1.text ≤ b.1.text)

variable {children : Children α}

theorem pairwise_rank (h : children.Sorted) (rank : Nat) :
    (children.filter fun entry => entry.1.rank = rank).Pairwise
      fun a b => a.1.rank = b.1.rank ∧ a.1.text < b.1.text := by
  refine ((List.pairwise_map.mp h).filter _).imp_of_mem fun {a b} ha hb hlt => ?_
  have hr : a.1.rank = b.1.rank := by simp_all
  rcases Key.lt_iff.mp hlt with ht | ⟨-, hlt⟩
  · exact ⟨hr, ht⟩
  · exact absurd hr (Nat.ne_of_lt hlt)

theorem pairwise_forMatching (h : children.Sorted) :
    (forMatching children).Pairwise
      fun a b => a.1.rank < b.1.rank ∨ a.1.rank = b.1.rank ∧ a.1.text < b.1.text := by
  refine List.pairwise_append.mpr ⟨(pairwise_rank h 0).imp .inr, List.pairwise_append.mpr
    ⟨(pairwise_rank h 1).imp .inr, (pairwise_rank h 2).imp .inr, ?_⟩, ?_⟩
  · intro a ha b hb
    simp_all
  · intro a ha b hb
    simp only [List.mem_append, List.mem_filter, decide_eq_true_eq] at ha hb
    omega

theorem filter_mergeSort {γ : Type} {le : γ → γ → Bool} {p : γ → Bool}
    (trans : ∀ a b c, le a b = true → le b c = true → le a c = true)
    (total : ∀ a b, (le a b || le b a) = true)
    (hp : ∀ a b, p a = true → p b = true → le a b = true) (l : List γ) :
    (l.mergeSort le).filter p = l.filter p := by
  have hw : (l.filter p).Pairwise fun a b => le a b = true :=
    List.pairwise_of_forall_mem_list fun a ha b hb =>
      hp a b (List.of_mem_filter ha) (List.of_mem_filter hb)
  have hs := (List.sublist_mergeSort trans total hw List.filter_sublist).filter p
  simp only [List.filter_filter, Bool.and_self] at hs
  exact (hs.eq_of_length ((List.mergeSort_perm l le).filter p).length_eq.symm).symm

theorem forHelp_perm (children : Children α) : children.forHelp.Perm children :=
  (List.mergeSort_perm _ _).trans (forMatching_perm children)

theorem forHelp_eq (h : children.Sorted) : children.forHelp = children := by
  have trans (a b c : Key × Node α) (hab : decide (a.1.text ≤ b.1.text) = true)
      (hbc : decide (b.1.text ≤ c.1.text) = true) : decide (a.1.text ≤ c.1.text) = true := by
    rw [decide_eq_true_eq] at *
    exact hab.trans hbc
  have total (a b : Key × Node α) :
      (decide (a.1.text ≤ b.1.text) || decide (b.1.text ≤ a.1.text)) = true := by
    rw [Bool.or_eq_true, decide_eq_true_eq, decide_eq_true_eq]
    exact le_total _ _
  have hw : children.forHelp.Sorted := by
    refine List.pairwise_map.mpr (List.pairwise_iff_forall_sublist.mpr fun {a b} hs => ?_)
    have ht : a.1.text ≤ b.1.text := of_decide_eq_true
      (List.pairwise_iff_forall_sublist.mp (List.pairwise_mergeSort trans total _) hs)
    rcases ht.lt_or_eq with hlt | he
    · exact .inl hlt
    -- Entries of one text stand as in the order of matching, which goes by their ranks.
    · have hf := hs.filter fun entry => decide (entry.1.text = b.1.text)
      rw [forHelp, filter_mergeSort trans total (by simp_all)] at hf
      have hm : [a, b].Sublist (forMatching children) := by
        refine List.Sublist.trans ?_ (hf.trans List.filter_sublist)
        simp [he]
      rcases List.pairwise_iff_forall_sublist.mp (pairwise_forMatching h) hm with hr | ⟨-, hlt⟩
      · exact .inr ⟨he, hr⟩
      · exact absurd he (ne_of_lt hlt)
  exact Table.Sorted.ext hw h (forHelp_perm children)

def collected (entries : List (Key × Node α)) : Children α :=
  Table.latest (entries.mergeSort fun a b => a.1.matchesBefore b.1)

theorem collected_perm (entries : List (Key × Node α)) :
    (collected entries).Perm (Table.latest entries) := by
  refine Table.perm_of_find? (Table.nodup_latest _) (Table.nodup_latest _) fun key => ?_
  -- The sort is stable, so which entry of a key is the last stays the same.
  refine Table.find?_latest_congr (filter_mergeSort
    (fun a b c => Key.matchesBefore_trans a.1 b.1 c.1)
    (fun a b => Key.matchesBefore_total a.1 b.1) ?_ entries)
  intro a b ha hb
  rw [decide_eq_true_eq] at ha hb
  rw [ha, hb, Key.matchesBefore_iff]
  exact .inr ⟨rfl, le_refl _⟩

theorem pairwise_collected (entries : List (Key × Node α)) :
    (collected entries).Pairwise
      fun a b => a.1.rank < b.1.rank ∨ a.1.rank = b.1.rank ∧ a.1.text < b.1.text := by
  have hs : (collected entries).Pairwise fun a b => a.1.matchesBefore b.1 = true :=
    List.Pairwise.sublist (Table.latest_sublist _)
      (List.pairwise_mergeSort (fun a b c => Key.matchesBefore_trans a.1 b.1 c.1)
        (fun a b => Key.matchesBefore_total a.1 b.1) entries)
  have hn : (collected entries).Pairwise fun a b => a.1 ≠ b.1 :=
    List.pairwise_map.mp (Table.nodup_latest _)
  refine List.Pairwise.imp₂ (fun {a b} hm hk => ?_) hs hn
  rcases Key.matchesBefore_iff.mp hm with hr | ⟨hr, ht⟩
  · exact .inl hr
  · exact .inr ⟨hr, lt_of_le_of_ne ht fun he => hk (Key.eq_of_text_rank he hr)⟩

theorem collected_eq (entries : List (Key × Node α)) :
    collected entries = forMatching (ofList entries) := by
  have hp : (collected entries).Perm (forMatching (ofList entries)) :=
    (collected_perm entries).trans
      ((Table.ofList_perm_latest entries).symm.trans (forMatching_perm _).symm)
  refine hp.eq_of_pairwise ?_ (pairwise_collected entries)
    (pairwise_forMatching (sorted_ofList entries))
  rintro a b - - (hab | ⟨hab, ht⟩) (hba | ⟨hba, ht'⟩)
  · omega
  · omega
  · omega
  · exact absurd ht' (lt_asymm ht)

end Children

namespace Node

def inserted (entries : List (Key × Node α)) : Node α :=
  entries.foldl (fun node entry => node.insert entry.1 entry.2) (.branch [])

theorem inserted_eq (entries : List (Key × Node α)) :
    inserted entries = .branch (Children.ofList entries) :=
  List.foldl_hom (fun children : Children α => branch children) fun _ _ => rfl

/-- A branch consists of the last entry for each key, in an order of its own. The order in which
the entries come shows in nothing that is read off it. -/
theorem ofList_reordered {entries twin : List (Key × Node α)} (hp : entries.Perm twin)
    (hn : (entries.map Prod.fst).Nodup) (repeated : List (Key × Node α)) :
    let a := Children.ofList entries
    let b := Children.ofList twin
    (ofList entries = .branch a ∧ inserted entries = .branch a) ∧
      (ofList twin = .branch b ∧ inserted twin = .branch b) ∧
      Children.collected entries = Children.forMatching a ∧
      Children.collected twin = Children.forMatching b ∧
      a.Perm entries ∧ a.forHelp = a ∧
      (∀ key, Table.find? key a = Table.find? key b) ∧
      (∀ token, a.candidates token = b.candidates token) ∧
      a.forHelp = b.forHelp ∧
      a.soleParameter = b.soleParameter ∧
      (∀ line mode, (branch a).parse line mode = (branch b).parse line mode) ∧
      (∀ lead, (branch a).completions lead = (branch b).completions lead) ∧
      ofList repeated = ofList (Table.latest repeated) ∧
      inserted repeated = inserted (Table.latest repeated) ∧
      (Children.ofList repeated).Perm (Table.latest repeated) := by
  have hl : Table.latest entries = entries := Table.latest_of_nodup hn
  have ht : Table.latest twin = twin := Table.latest_of_nodup ((hp.map Prod.fst).nodup_iff.mp hn)
  have he : Children.ofList entries = Children.ofList twin := by
    refine Table.ofList_eq_iff.mpr ?_
    rw [hl, ht]
    exact hp
  have hr : Children.ofList repeated = Children.ofList (Table.latest repeated) :=
    (Table.ofList_latest repeated).symm
  intro a b
  have hab : a = b := he
  refine ⟨⟨rfl, inserted_eq entries⟩, ⟨rfl, inserted_eq twin⟩, Children.collected_eq entries,
    Children.collected_eq twin, ?_, Children.forHelp_eq (Children.sorted_ofList entries),
    ?_, ?_, ?_, ?_, ?_, ?_, congrArg branch hr, ?_, Table.ofList_perm_latest repeated⟩
  · have hc := Table.ofList_perm_latest entries
    rwa [hl] at hc
  · simp only [hab, implies_true]
  · simp only [hab, implies_true]
  · rw [hab]
  · rw [hab]
  · simp only [hab, implies_true]
  · simp only [hab, implies_true]
  · rw [inserted_eq, inserted_eq, hr]

def jumbled : List (Key × Node Nat) :=
  [(.parameter "a", .action 0), (.keyword "b", .action 1), (.keyword "a", .action 2),
    (.finish, .action 3)]

theorem ofList_reordered_jumbled :
    jumbled.Perm jumbled.reverse ∧ (jumbled.map Prod.fst).Nodup ∧
      (branch (Children.ofList jumbled.reverse)).completions "do " =
        ["do", "do a", "do a <a>", "do b"] ∧
      ofList ((.keyword "b", .action 4) :: jumbled) = ofList jumbled := by
  have hp : jumbled.Perm jumbled.reverse := (List.reverse_perm jumbled).symm
  have hn : (jumbled.map Prod.fst).Nodup := by decide
  obtain ⟨-, -, -, -, -, -, -, -, -, -, -, hc, hr, -⟩ :=
    ofList_reordered hp hn ((.keyword "b", .action 4) :: jumbled)
  exact ⟨hp, hn, (hc "do ").symm, hr⟩

end Node

end Vty.Grammar
