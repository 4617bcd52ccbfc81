import Vty.Proofs.Editor.Walk
import Mathlib.Data.List.DropRight

namespace Vty.History

def recorded (h : History) : Op → List Bytes
  | .add line => [line]
  | .previous draft =>
    if h.entries ≠ [] ∧ h.browse = none ∧ draft ≠ [] then [draft] else []
  | .next | .stopBrowsing | .clear => []

/-- The lines recorded since the history was cleared last, the earliest first. -/
def journal (h : History) (lines : List Bytes) : List Op → List Bytes
  | [] => lines
  | op :: ops =>
    (h.apply op).1.journal ((if op = .clear then [] else lines) ++ h.recorded op) ops

theorem rtake_of_length_le {lines : List Bytes} {n : Nat} (h : lines.length ≤ n) :
    lines.rtake n = lines := by
  rw [List.rtake, Nat.sub_eq_zero_of_le h, List.drop_zero]

theorem rtake_append_rtake (lines more : List Bytes) (n : Nat) :
    (lines.rtake n ++ more).rtake n = (lines ++ more).rtake n := by
  simp only [List.rtake_eq_reverse_take_reverse, List.reverse_append, List.reverse_reverse,
    List.take_append, List.take_take]
  congr 3
  omega

variable {h : History}

theorem entries_record (h : History) (line : Bytes) :
    (h.record line).entries = (h.entries ++ [line]).rtake h.capacity :=
  rfl

theorem entries_startBrowsing (hf : h.Fits) (draft : Bytes) :
    (h.startBrowsing draft).1.entries =
      (h.entries ++ if h.browse = none ∧ draft ≠ [] then [draft] else []).rtake h.capacity := by
  have hs : h.entries.rtake h.capacity = h.entries := rtake_of_length_le hf.2
  unfold startBrowsing
  cases hb : h.browse with
  | some index => simp [hs]
  | none =>
    by_cases hd : draft = []
    · simp [hd, hs]
    · simp [hd, entries_record]

theorem entries_previous (h : History) (draft : Bytes) :
    (h.previous draft).1.entries =
      if h.entries = [] then h.entries else (h.startBrowsing draft).1.entries := by
  unfold previous
  split
  · rfl
  · generalize h.startBrowsing draft = started
    obtain ⟨grown, index⟩ := started
    cases index <;> rfl

theorem entries_next (h : History) : h.next.1.entries = h.entries := by
  unfold next
  split
  · rfl
  · split <;> rfl

theorem entries_apply (hf : h.Fits) (op : Op) :
    (h.apply op).1.entries =
      ((if op = .clear then [] else h.entries) ++ h.recorded op).rtake h.capacity := by
  have hs : h.entries.rtake h.capacity = h.entries := rtake_of_length_le hf.2
  cases op with
  | add line => exact entries_record h line
  | previous draft =>
    have hp := entries_previous h draft
    by_cases hn : h.entries = []
    · simpa [apply, recorded, hn] using hp
    · rw [if_neg hn, entries_startBrowsing hf] at hp
      simpa [apply, recorded, hn] using hp
  | next => simpa [apply, recorded, hs] using entries_next h
  | stopBrowsing => simpa [apply, recorded, stopBrowsing] using hs.symm
  | clear => simp [apply, recorded, clear]

theorem entries_run (hf : h.Fits) {lines : List Bytes} (hl : h.entries = lines.rtake h.capacity)
    (ops : List Op) : (h.run ops).entries = (h.journal lines ops).rtake h.capacity := by
  induction ops generalizing h lines with
  | nil => exact hl
  | cons op ops ih =>
    have hc := h.capacity_apply op
    have he : (h.apply op).1.entries =
        ((if op = .clear then [] else lines) ++ h.recorded op).rtake (h.apply op).1.capacity := by
      rw [entries_apply hf, hc, hl]
      split
      · rfl
      · exact rtake_append_rtake ..
    have hr := ih (hf.apply op) he
    rw [hc] at hr
    exact hr

/-- A history holds the lines recorded last, as many as there is room for. What records nothing
leaves it as it is, unless it clears it. -/
theorem run_recent (limit : Nat) (ops : List Op) :
    let h := (ofLimit limit).run ops
    let lines := (ofLimit limit).journal [] ops
    h.capacity = max limit 1 ∧
      h.entries = lines.rtake (min lines.length h.capacity) ∧
      h.entries.length = min lines.length h.capacity ∧
      ∀ op, op ≠ .clear → h.recorded op = [] → (h.apply op).1.entries = h.entries := by
  intro h lines
  have hf : h.Fits := (fits_ofLimit limit).run ops
  have hc : h.capacity = (ofLimit limit).capacity := capacity_run _ ops
  have he : h.entries = lines.rtake h.capacity := by
    rw [hc]
    exact entries_run (fits_ofLimit limit) List.drop_nil.symm ops
  refine ⟨hc, ?_, ?_, fun op ho hr => ?_⟩
  · rw [he, List.rtake, List.rtake]
    congr 1
    omega
  · rw [he, List.rtake, List.length_drop]
    omega
  · rw [entries_apply hf, if_neg ho, hr, List.append_nil, rtake_of_length_le hf.2]

example :
    let ops : List Op :=
      [.add [0x60], .clear, .add [0x61], .add [0x62], .previous [0x63], .next, .add [0x64]]
    (ofLimit 3).journal [] ops = [[0x61], [0x62], [0x63], [0x64]] ∧
      ((ofLimit 3).run ops).entries = [[0x62], [0x63], [0x64]] :=
  ⟨rfl, rfl⟩

end Vty.History
