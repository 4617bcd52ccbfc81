import Vty.Text.Space
import Mathlib.Data.List.Induction

namespace Vty.Text

def IsToken (word : String) : Prop :=
  word ≠ "" ∧ ∀ c ∈ word.toList, isSpace c = false

instance (word : String) : Decidable (IsToken word) :=
  have := List.decidableBAll (fun c => isSpace c = false) word.toList
  inferInstanceAs (Decidable (_ ∧ _))

theorem pieces_ne_nil (cs : List Char) : pieces cs ≠ [] := by
  cases cs with
  | nil => simp [pieces]
  | cons c rest =>
    unfold pieces
    split
    · simp
    · split <;> simp

theorem pieces_append_space {c : Char} (hc : isSpace c = true) (a b : List Char) :
    pieces (a ++ c :: b) = pieces a ++ pieces b := by
  induction a with
  | nil => simp [pieces, hc]
  | cons d a ih =>
    simp only [List.cons_append, pieces, ih]
    split
    · simp
    · cases hp : pieces a with
      | nil => exact absurd hp (pieces_ne_nil a)
      | cons piece more => simp

theorem pieces_of_noSpace {cs : List Char} (h : ∀ c ∈ cs, isSpace c = false) :
    pieces cs = [cs] := by
  induction cs with
  | nil => rfl
  | cons c rest ih =>
    have hr := ih fun d hd => h d (List.mem_cons_of_mem _ hd)
    simp [pieces, h c (by simp), hr]

theorem noSpace_of_mem_pieces (cs : List Char) :
    ∀ piece ∈ pieces cs, ∀ c ∈ piece, isSpace c = false := by
  induction cs with
  | nil => simp [pieces]
  | cons c rest ih =>
    unfold pieces
    split
    · simpa using ih
    · rename_i hc
      have hc : isSpace c = false := by simpa using hc
      split
      · simpa using hc
      · rename_i piece more hp
        rw [hp, List.forall_mem_cons] at ih
        rw [List.forall_mem_cons, List.forall_mem_cons]
        exact ⟨⟨hc, ih.1⟩, ih.2⟩

theorem isToken_of_mem_tokens {word text : String} (h : word ∈ tokens text) : IsToken word := by
  simp only [tokens, List.mem_map, List.mem_filter, Bool.not_eq_true',
    List.isEmpty_eq_false_iff] at h
  obtain ⟨piece, ⟨hm, hne⟩, rfl⟩ := h
  refine ⟨?_, ?_⟩
  · simpa using hne
  · simpa using noSpace_of_mem_pieces _ piece hm

theorem tokens_append_space (a b : String) : tokens (a ++ " " ++ b) = tokens a ++ tokens b := by
  have hs : (a ++ " " ++ b).toList = a.toList ++ ' ' :: b.toList := by simp
  simp only [tokens, hs, pieces_append_space (c := ' ') (by decide), List.filter_append,
    List.map_append]

theorem tokens_empty : tokens "" = [] := by
  decide

theorem tokens_of_isToken {word : String} (h : IsToken word) : tokens word = [word] := by
  have hw : word.toList ≠ [] := by simpa using h.1
  simp [tokens, pieces_of_noSpace h.2, hw]

theorem pieces_dropTrailing (cs : List Char) :
    (pieces (cs.reverse.dropWhile isSpace).reverse).filter (fun piece => !piece.isEmpty) =
      (pieces cs).filter (fun piece => !piece.isEmpty) := by
  induction cs using List.reverseRecOn with
  | nil => rfl
  | append_singleton cs c ih =>
    by_cases hc : isSpace c = true
    · simp only [List.reverse_append, List.reverse_singleton, List.singleton_append,
        List.dropWhile_cons, hc, if_true, ih, pieces_append_space hc cs [], List.filter_append]
      simp [pieces]
    · simp [hc]

theorem tokens_trimEnd (text : String) : tokens (trimEnd text) = tokens text := by
  simp only [tokens, trimEnd, String.toList_ofList, pieces_dropTrailing]

theorem trimEnd_append_space (text : String) : trimEnd (text ++ " ") = trimEnd text := by
  have hs : isSpace ' ' = true := by decide
  simp [trimEnd, hs]

def spaced : List String → String
  | [] => ""
  | word :: words => word ++ " " ++ spaced words

theorem tokens_spaced {words : List String} (h : ∀ word ∈ words, IsToken word) :
    tokens (spaced words) = words := by
  induction words with
  | nil => exact tokens_empty
  | cons word words ih =>
    rw [spaced, tokens_append_space, tokens_of_isToken (h word (by simp)),
      ih fun w hw => h w (List.mem_cons_of_mem _ hw)]
    rfl

theorem spaced_eq_intercalate {words : List String} (h : words ≠ []) :
    spaced words = " ".intercalate words ++ " " := by
  induction words with
  | nil => exact absurd rfl h
  | cons word words ih =>
    cases words with
    | nil => simp [spaced]
    | cons next words =>
      rw [spaced, ih (by simp), String.intercalate_cons_cons]
      simp only [String.append_assoc]

theorem trimEnd_spaced (words : List String) :
    trimEnd (spaced words) = trimEnd (" ".intercalate words) := by
  cases words with
  | nil => simp [spaced]
  | cons word words => rw [spaced_eq_intercalate (by simp), trimEnd_append_space]

end Vty.Text
