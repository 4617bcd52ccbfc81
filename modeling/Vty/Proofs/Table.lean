import Vty.Table
import Mathlib.Data.List.Sort

namespace Vty.Table

variable {κ ν : Type} {key other : κ} {value : ν} {table : Table κ ν}

def keys (table : Table κ ν) : List κ :=
  table.map Prod.fst

theorem mem_keys : key ∈ table.keys ↔ ∃ value, (key, value) ∈ table := by
  simp [keys]

theorem keys_filter (table : Table κ ν) (p : κ → Bool) :
    keys (table.filter fun entry => p entry.1) = table.keys.filter p :=
  List.filter_map.symm

theorem value_eq_of_mem (h : table.keys.Nodup) {value other : ν} (hv : (key, value) ∈ table)
    (ho : (key, other) ∈ table) : value = other :=
  (Prod.mk.injEq .. ▸ List.inj_on_of_nodup_map h hv ho rfl).2

section

variable [DecidableEq κ]

theorem mem_of_find?_eq_some (h : find? key table = some value) : (key, value) ∈ table := by
  obtain ⟨⟨k, v⟩, hk, rfl⟩ := Option.map_eq_some_iff.mp h
  obtain rfl : k = key := by simpa using List.find?_some hk
  exact List.mem_of_find?_eq_some hk

theorem find?_eq_none_iff : find? key table = none ↔ key ∉ table.keys := by
  simp only [find?, Option.map_eq_none_iff, List.find?_eq_none, mem_keys]
  grind

theorem find?_eq_some_iff (h : table.keys.Nodup) :
    find? key table = some value ↔ (key, value) ∈ table := by
  refine ⟨mem_of_find?_eq_some, fun hm => ?_⟩
  cases hf : find? key table with
  | none => exact absurd (mem_keys.mpr ⟨value, hm⟩) (find?_eq_none_iff.mp hf)
  | some found => rw [value_eq_of_mem h (mem_of_find?_eq_some hf) hm]

theorem mem_keys_iff_find? : key ∈ table.keys ↔ ∃ value, find? key table = some value := by
  rw [← not_iff_not, ← find?_eq_none_iff, Option.eq_none_iff_forall_ne_some, not_exists]

theorem mem_keys_erase : other ∈ keys (erase key table) ↔ other ≠ key ∧ other ∈ table.keys := by
  rw [mem_keys_iff_find?, mem_keys_iff_find?, find?_erase]
  split <;> simp_all

theorem find?_map {μ : Type} (f : ν → μ) :
    find? key (table.map fun entry => (entry.1, f entry.2)) = (find? key table).map f := by
  simp only [find?, List.find?_map, Option.map_map, Function.comp_def]

theorem find?_filter (h : table.keys.Nodup) (p : ν → Bool) :
    find? key (table.filter fun entry => p entry.2) = (find? key table).filter p := by
  have hn : keys (table.filter fun entry => p entry.2) |>.Nodup :=
    h.sublist (List.filter_sublist.map _)
  ext value
  rw [find?_eq_some_iff hn, List.mem_filter, Option.filter_eq_some_iff, find?_eq_some_iff h]

theorem perm_of_find? {twin : Table κ ν} (h : table.keys.Nodup) (ht : twin.keys.Nodup)
    (hf : ∀ key, find? key table = find? key twin) : table.Perm twin := by
  rw [List.perm_ext_iff_of_nodup (List.Nodup.of_map _ h) (List.Nodup.of_map _ ht)]
  rintro ⟨key, value⟩
  rw [← find?_eq_some_iff h, ← find?_eq_some_iff ht, hf]

/-- The entries whose keys do not come again. -/
def latest : Table κ ν → Table κ ν
  | [] => []
  | entry :: rest => if entry.1 ∈ keys rest then latest rest else entry :: latest rest

theorem mem_keys_latest : key ∈ table.latest.keys ↔ key ∈ table.keys := by
  induction table with
  | nil => rfl
  | cons entry rest ih =>
    have hc : key ∈ keys (entry :: rest) ↔ key = entry.1 ∨ key ∈ keys rest := List.mem_cons
    rw [latest, hc]
    split
    · rw [ih, iff_or_self]
      rintro rfl
      assumption
    · rw [← ih]
      exact List.mem_cons

theorem nodup_latest (table : Table κ ν) : table.latest.keys.Nodup := by
  induction table with
  | nil => exact List.nodup_nil
  | cons entry rest ih =>
    rw [latest]
    split
    · exact ih
    · exact List.nodup_cons.mpr ⟨mem_keys_latest.not.mpr ‹_›, ih⟩

theorem latest_sublist (table : Table κ ν) : table.latest.Sublist table := by
  induction table with
  | nil => exact .slnil
  | cons entry rest ih =>
    rw [latest]
    split
    · exact ih.cons entry
    · exact ih.cons_cons entry

theorem latest_of_nodup (h : table.keys.Nodup) : table.latest = table := by
  induction table with
  | nil => rfl
  | cons entry rest ih =>
    have hn : entry.1 ∉ keys rest ∧ (keys rest).Nodup := List.nodup_cons.mp h
    rw [latest, if_neg hn.1, ih hn.2]

theorem find?_latest : find? key table.latest = find? key table.reverse := by
  induction table with
  | nil => rfl
  | cons entry rest ih =>
    rw [List.reverse_cons, find?_append, ← ih, latest]
    by_cases hm : entry.1 ∈ keys rest
    · rw [if_pos hm]
      by_cases hk : entry.1 = key
      · obtain ⟨value, hv⟩ := mem_keys_iff_find?.mp (mem_keys_latest.mpr (hk ▸ hm))
        rw [hv, Option.some_or]
      · simp [find?, hk]
    · rw [if_neg hm]
      by_cases hk : entry.1 = key
      · have hf : find? key (latest rest) = none :=
          find?_eq_none_iff.mpr (mem_keys_latest.not.mpr (hk ▸ hm))
        rw [hf, Option.none_or]
        simp [find?, hk]
      · simp [find?, hk]

theorem find?_latest_congr {twin : Table κ ν}
    (h : (table.filter fun entry => decide (entry.1 = key)) =
      twin.filter fun entry => decide (entry.1 = key)) :
    find? key table.latest = find? key twin.latest := by
  have hd (table : Table κ ν) : find? key table =
      (table.filter fun entry => decide (entry.1 = key)).head?.map Prod.snd := by
    rw [List.head?_filter]
    rfl
  rw [find?_latest, find?_latest, hd, hd, List.filter_reverse, List.filter_reverse, h]

end

def Sorted [LT κ] (table : Table κ ν) : Prop :=
  table.keys.Pairwise (· < ·)

theorem Sorted.sublist [LT κ] (h : table.Sorted) {less : Table κ ν} (hl : less.Sublist table) :
    less.Sorted :=
  List.Pairwise.sublist (hl.map Prod.fst) h

theorem mem_keys_insert [LT κ] [DecidableLT κ] [DecidableEq κ] :
    other ∈ keys (insert key value table) ↔ other = key ∨ other ∈ table.keys := by
  rw [← not_iff_not, ← find?_eq_none_iff, find?_insert, not_or, ← find?_eq_none_iff]
  split <;> simp_all

section

variable [LT κ] [IsStrictTotalOrder κ (· < ·)]

theorem Sorted.nodup (h : table.Sorted) : table.keys.Nodup := by
  apply List.Pairwise.imp _ h
  rintro a _ hlt rfl
  exact irrefl a hlt

theorem Sorted.keys_eq {μ : Type} (h : table.Sorted) {twin : Table κ μ} (ht : twin.Sorted)
    (hk : ∀ key, key ∈ table.keys ↔ key ∈ twin.keys) : table.keys = twin.keys :=
  List.Pairwise.eq_of_mem_iff h ht hk

theorem sorted_insert [DecidableLT κ] [DecidableEq κ] (h : table.Sorted) (key : κ) (value : ν) :
    Sorted (insert key value table) := by
  induction table with
  | nil => exact List.pairwise_singleton ..
  | cons entry rest ih =>
    obtain ⟨k, v⟩ := entry
    have hs := List.pairwise_cons.mp h
    unfold insert
    split
    · rename_i hlt
      refine List.pairwise_cons.mpr ⟨?_, h⟩
      intro other ho
      rcases List.mem_cons.mp ho with rfl | ho
      · exact hlt
      · exact IsTrans.trans _ _ _ hlt (hs.1 other ho)
    · rename_i hlt
      split
      · rename_i he
        subst he
        exact h
      · rename_i hne
        refine List.pairwise_cons.mpr ⟨?_, ih hs.2⟩
        intro other ho
        rcases mem_keys_insert.mp ho with rfl | ho
        · exact (trichotomous_of (· < ·) k other).resolve_right (not_or.mpr ⟨Ne.symm hne, hlt⟩)
        · exact hs.1 other ho

theorem sorted_ofList [DecidableLT κ] [DecidableEq κ] (entries : List (κ × ν)) :
    (ofList entries).Sorted := by
  have step (table : Table κ ν) (h : table.Sorted) :
      Sorted (entries.foldl (fun table entry => insert entry.1 entry.2 table) table) := by
    induction entries generalizing table with
    | nil => exact h
    | cons entry rest ih => exact ih _ (sorted_insert h entry.1 entry.2)
  exact step [] List.Pairwise.nil

theorem Sorted.ext (h : table.Sorted) {twin : Table κ ν} (ht : twin.Sorted)
    (hp : table.Perm twin) : table = twin :=
  hp.eq_of_pairwise (fun _ _ _ _ hab hba => absurd hba (asymm hab)) (List.pairwise_map.mp h)
    (List.pairwise_map.mp ht)

theorem ofList_perm_latest [DecidableLT κ] [DecidableEq κ] (entries : List (κ × ν)) :
    (ofList entries).Perm (latest entries) := by
  refine perm_of_find? (sorted_ofList entries).nodup (nodup_latest entries) fun key => ?_
  rw [find?_ofList, find?_latest]

theorem ofList_eq_iff [DecidableLT κ] [DecidableEq κ] {entries twin : List (κ × ν)} :
    ofList entries = ofList twin ↔ (latest entries).Perm (latest twin) := by
  have he := ofList_perm_latest entries
  have ht := ofList_perm_latest twin
  constructor
  · intro h
    exact he.symm.trans (h ▸ ht)
  · intro h
    exact (sorted_ofList entries).ext (sorted_ofList twin) (he.trans (h.trans ht.symm))

theorem ofList_latest [DecidableLT κ] [DecidableEq κ] (entries : List (κ × ν)) :
    ofList (latest entries) = ofList entries := by
  rw [ofList_eq_iff, latest_of_nodup (nodup_latest entries)]

end

end Vty.Table
