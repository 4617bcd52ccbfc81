import Vty.Editor
import Mathlib.Data.List.Basic

namespace Vty.History

theorem mem_of_record {h : History} {draft line : Bytes} (hl : line ∈ (h.record draft).entries) :
    line ∈ h.entries ∨ line = draft := by
  simpa using List.mem_of_mem_drop hl

theorem mem_of_startBrowsing {h : History} {draft line : Bytes}
    (hl : line ∈ (h.startBrowsing draft).1.entries) : line ∈ h.entries ∨ line = draft := by
  unfold startBrowsing at hl
  split at hl
  · exact .inl hl
  · split at hl
    · exact .inl hl
    · exact mem_of_record hl

theorem mem_of_previous {h : History} {draft line : Bytes}
    (hs : (h.previous draft).2 = .recall line) : line ∈ h.entries ∨ line = draft ∨ line = [] := by
  unfold previous at hs
  split_ifs at hs
  generalize hb : h.startBrowsing draft = started at hs
  obtain ⟨grown, index⟩ := started
  cases index with
  | zero => cases hs
  | succ index =>
    obtain rfl := History.Step.recall.inj hs
    cases hl : grown.entries[index]? with
    | none => exact .inr (.inr rfl)
    | some found =>
      have hm : found ∈ (h.startBrowsing draft).1.entries := by
        rw [hb]
        exact List.mem_of_getElem? hl
      exact (mem_of_startBrowsing hm).imp_right .inl

theorem mem_of_next {h : History} {line : Bytes} (hs : h.next.2 = .recall line) :
    line ∈ h.entries ∨ line = [] := by
  unfold next at hs
  cases hb : h.browse with
  | none => rw [hb] at hs; cases hs
  | some index =>
    rw [hb] at hs
    dsimp only at hs
    cases hl : h.entries[index + 1]? with
    | none =>
      rw [hl] at hs
      exact .inr (History.Step.recall.inj hs).symm
    | some found =>
      rw [hl] at hs
      obtain rfl := History.Step.recall.inj hs
      exact .inl (List.mem_of_getElem? hl)

end Vty.History
