import Vty.Proofs.Editor.Browsing
import Vty.Proofs.Editor.Walk

namespace Vty

namespace History

variable {h : History} {draft : Bytes}

/-- Browsing would start from a draft that takes the place of the only entry. -/
def Crowded (h : History) (draft : Bytes) : Prop :=
  h.capacity = 1 ∧ h.entries ≠ [] ∧ h.browse = none ∧ draft ≠ []

instance (h : History) (draft : Bytes) : Decidable (h.Crowded draft) :=
  inferInstanceAs (Decidable (_ ∧ _))

theorem drafted_of_crowded (hf : h.Fits) (hc : h.Crowded draft) : h.drafted draft = [draft] := by
  obtain ⟨h1, hn, -, hd⟩ := hc
  have hp := List.length_pos_iff.mpr hn
  have hl : h.entries.length = 1 := by
    have := hf.2
    omega
  simp [drafted, hd, h1, hl]

theorem remaining_eq_zero_iff (hf : h.Fits) (hn : h.entries ≠ []) (hb : h.browse = none) :
    h.remaining draft = 0 ↔ h.Crowded draft := by
  constructor
  · intro hz
    have hs : ¬ (2 ≤ h.capacity ∨ draft = []) := fun hd => by
      have := remaining_pos hf hn hd
      omega
    have hc := hf.1
    exact ⟨by omega, hn, hb, fun hd => hs (.inr hd)⟩
  · intro hc
    simp [remaining, drafted_of_crowded hf hc, hc.2.2.2]

theorem stroll_back_eq_bell_iff {lines : List Bytes} {p : Nat} {shown : Bytes} :
    (stroll lines p (.back shown)).1 = .bell ↔ p = 0 := by
  simp only [stroll]
  split <;> simp [*]

theorem previous_eq_bell_iff (hf : h.Fits) :
    (h.previous draft).2 = .bell ↔ h.entries = [] ∨ h.browse = some 0 ∨ h.Crowded draft := by
  by_cases hn : h.entries = []
  · simp [previous, hn]
  · change (h.move (.back draft)).2 = .bell ↔ _
    cases hb : h.browse with
    | none => simp [move_back hf hb hn, stroll_back_eq_bell_iff, remaining_eq_zero_iff hf hn hb, hn]
    | some p =>
      simp [move_of_browse hb hn, stroll_back_eq_bell_iff, hn, Crowded, hb]

theorem previous_of_bell (hf : h.Fits) (hs : (h.previous draft).2 = .bell) :
    (h.previous draft).1 =
      if h.Crowded draft then { h with entries := [draft], browse := some 0 } else h := by
  by_cases hn : h.entries = []
  · simp [previous, Crowded, hn]
  · rcases (previous_eq_bell_iff hf).mp hs with he | hb | hc
    · exact absurd he hn
    · have hm := congrArg Prod.fst (move_of_browse hb hn (.back draft))
      have hc : ¬ h.Crowded draft := by simp [Crowded, hb]
      rw [if_neg hc]
      exact hm.trans (by rw [stroll, if_pos rfl, ← hb])
    · have hb := hc.2.2.1
      have hm := congrArg Prod.fst (move_back hf hb hn draft)
      have hz := (remaining_eq_zero_iff hf hn hb).mpr hc
      rw [if_pos hc]
      exact hm.trans (by rw [stroll, if_pos hz, drafted_of_crowded hf hc])

theorem next_eq_bell_iff : h.next.2 = .bell ↔ h.browse = none := by
  unfold next
  split
  · simp [*]
  · split <;> simp [*]

theorem next_of_bell (hs : h.next.2 = .bell) : h.next.1 = h := by
  simp [next, next_eq_bell_iff.mp hs]

end History

namespace Editor

inductive Reachable (limit : Nat) : Editor → Prop
  | new : Reachable limit (ofLimit limit)
  | edit {e : Editor} (op : Op) : Reachable limit e → Reachable limit (e.apply op).1
  | history {e : Editor} (op : History.Op) :
      Reachable limit e → Reachable limit { e with history := (e.history.apply op).1 }

variable {limit : Nat} {e : Editor}

theorem Reachable.run (hr : e.Reachable limit) (ops : List Op) : (e.run ops).Reachable limit := by
  induction ops generalizing e with
  | nil => exact hr
  | cons op ops ih => exact ih (hr.edit op)

theorem history_apply (e : Editor) (op : Op) :
    ∃ done, (e.apply op).1.history = e.history.run done := by
  cases op with
  | insert byte =>
    refine ⟨[.stopBrowsing], ?_⟩
    simp only [apply, insert]
    split <;> rfl
  | deleteBefore =>
    simp only [apply, deleteBefore]
    split
    · exact ⟨[], rfl⟩
    · exact ⟨[.stopBrowsing], rfl⟩
  | moveLeft =>
    refine ⟨[], ?_⟩
    simp only [apply, moveLeft]
    split <;> rfl
  | moveRight =>
    refine ⟨[], ?_⟩
    simp only [apply, moveRight]
    split <;> rfl
  | historyPrevious =>
    refine ⟨[.previous e.buffer], ?_⟩
    simp only [apply, historyPrevious, follow_eq]
    rfl
  | historyNext =>
    refine ⟨[.next], ?_⟩
    simp only [apply, historyNext, follow_eq]
    rfl
  | commit line =>
    simp only [apply, commit]
    split
    · exact ⟨[], rfl⟩
    · exact ⟨[.add line], rfl⟩
  | enter =>
    rw [(apply_enter e).2]
    split
    · exact ⟨[], rfl⟩
    · exact ⟨[.add e.buffer], rfl⟩
  | moveToStart => exact ⟨[], rfl⟩
  | moveToEnd => exact ⟨[], rfl⟩
  | replaceLine line => exact ⟨[], rfl⟩
  | takeLine => exact ⟨[], rfl⟩
  | redraw => exact ⟨[], rfl⟩
  | clearHistory => exact ⟨[.clear], rfl⟩
  | stopBrowsing => exact ⟨[.stopBrowsing], rfl⟩

theorem Reachable.history_eq_run (hr : e.Reachable limit) :
    ∃ ops, e.history = (History.ofLimit limit).run ops := by
  induction hr with
  | new => exact ⟨[], rfl⟩
  | @edit e op _ ih =>
    obtain ⟨ops, ho⟩ := ih
    obtain ⟨done, hd⟩ := history_apply e op
    exact ⟨ops ++ done, by rw [hd, ho, History.run_append]⟩
  | history op _ ih =>
    obtain ⟨ops, ho⟩ := ih
    exact ⟨ops ++ [op], by rw [History.run_append, ← ho]; rfl⟩

theorem Reachable.fits (hr : e.Reachable limit) :
    e.history.Fits ∧ e.history.capacity = max limit 1 := by
  obtain ⟨ops, ho⟩ := hr.history_eq_run
  rw [ho, History.capacity_run]
  exact ⟨(History.fits_ofLimit limit).run ops, rfl⟩

def Refuses (e : Editor) : Op → Prop
  | .deleteBefore | .moveLeft => e.cursor = 0
  | .moveRight => e.buffer.length ≤ e.cursor
  | .historyPrevious =>
    e.history.entries = [] ∨ e.history.browse = some 0 ∨ e.history.Crowded e.buffer
  | .historyNext => e.history.browse = none
  | _ => False

theorem bell_mem_follow {step : History.Step} : .bell ∈ (e.follow step).2 ↔ step = .bell := by
  cases step <;> simp [follow, replaceLine]

theorem bell_mem_apply_iff (hf : e.history.Fits) (op : Op) :
    .bell ∈ (e.apply op).2 ↔ e.Refuses op := by
  cases op with
  | deleteBefore => by_cases hc : e.cursor = 0 <;> simp [apply, deleteBefore, refresh, Refuses, hc]
  | moveLeft =>
    simp only [apply, moveLeft, Refuses]
    split <;> simp <;> omega
  | moveRight =>
    simp only [apply, moveRight, Refuses]
    split <;> simp <;> omega
  | historyPrevious => exact bell_mem_follow.trans (History.previous_eq_bell_iff hf)
  | historyNext => exact bell_mem_follow.trans History.next_eq_bell_iff
  | insert byte =>
    by_cases hc : e.buffer.length ≤ e.cursor <;> simp [apply, insert, refresh, Refuses, hc]
  | _ => simp [apply, moveToStart, moveToEnd, replaceLine, redraw, Refuses]

theorem follow_bell (e : Editor) : e.follow .bell = (e, [.bell]) :=
  rfl

theorem apply_of_refuses (hf : e.history.Fits) {op : Op} (hr : e.Refuses op) :
    e.apply op =
      ({ e with
          history :=
            if op = .historyPrevious ∧ e.history.Crowded e.buffer then
              { e.history with entries := [e.buffer], browse := some 0 }
            else e.history },
        [.bell]) := by
  cases op with
  | deleteBefore =>
    have hc : e.cursor = 0 := hr
    rw [apply, deleteBefore, if_pos hc, if_neg (by simp)]
  | moveLeft =>
    have hc : ¬ 0 < e.cursor := Nat.not_lt.mpr (Nat.le_of_eq hr)
    rw [apply, moveLeft, if_neg hc, if_neg (by simp)]
  | moveRight =>
    have hc : ¬ e.cursor < e.buffer.length := Nat.not_lt.mpr hr
    rw [apply, moveRight, if_neg hc, if_neg (by simp)]
  | historyPrevious =>
    have hb := (History.previous_eq_bell_iff hf).mpr hr
    simp only [apply, historyPrevious, hb, History.previous_of_bell hf hb, follow_bell, true_and]
  | historyNext =>
    have hb := History.next_eq_bell_iff.mpr hr
    simp [apply, historyNext, hb, History.next_of_bell hb, follow_bell]
  | _ => exact hr.elim

/-- An operation rings the bell exactly where it has nowhere to go. It asks for nothing else then,
and changes nothing, but with room for a single entry a draft takes the place of that entry. -/
theorem apply_bell (limit : Nat) (hr : e.Reachable limit) (op : Op) :
    (.bell ∈ (e.apply op).2 ↔ e.Refuses op) ∧
      (.bell ∈ (e.apply op).2 →
        (e.apply op).2 = [.bell] ∧
        (e.apply op).1.buffer = e.buffer ∧
        (e.apply op).1.cursor = e.cursor ∧
        (e.apply op).1.history =
          if limit ≤ 1 ∧ op = .historyPrevious ∧ e.history.entries ≠ [] ∧
              e.history.browse = none ∧ e.buffer ≠ [] then
            { e.history with entries := [e.buffer], browse := some 0 }
          else e.history) := by
  obtain ⟨hf, hc⟩ := hr.fits
  have hb := bell_mem_apply_iff hf op
  refine ⟨hb, fun hm => ?_⟩
  have hl : e.history.capacity = 1 ↔ limit ≤ 1 := by omega
  rw [apply_of_refuses hf (hb.mp hm)]
  refine ⟨rfl, rfl, rfl, ?_⟩
  simp only [History.Crowded, hl, and_left_comm]

def recalling : List Op :=
  [.insert 0x61, .enter, .insert 0x62, .enter, .insert 0x63, .historyPrevious]

theorem apply_bell_recalling :
    let e := (ofLimit 2).run recalling
    e.Reachable 2 ∧ .bell ∈ (e.apply .historyPrevious).2 ∧
      e.buffer = [0x62] ∧ e.history.entries = [[0x62], [0x63]] ∧ e.history.browse = some 0 ∧
      (e.apply .historyPrevious).2 = [.bell] ∧
      (e.apply .historyPrevious).1.history = e.history := by
  intro e
  have hr : e.Reachable 2 := Reachable.new.run recalling
  have hm : .bell ∈ (e.apply .historyPrevious).2 := by decide
  obtain ⟨hc, -, -, hh⟩ := (apply_bell 2 hr .historyPrevious).2 hm
  exact ⟨hr, hm, rfl, rfl, rfl, hc, hh.trans (if_neg (by omega))⟩

def crowding : List Op :=
  [.insert 0x61, .enter, .insert 0x62]

theorem bell_displaces_crowding :
    let e := (ofLimit 1).run crowding
    e.Reachable 1 ∧ (e.apply .historyPrevious).2 = [.bell] ∧
      e.history.entries = [[0x61]] ∧ (e.apply .historyPrevious).1.history.entries = [[0x62]] ∧
      e.history.browse = none ∧ (e.apply .historyPrevious).1.history.browse = some 0 := by
  intro e
  exact ⟨Reachable.new.run crowding, rfl, rfl, rfl, rfl, rfl⟩

end Editor

end Vty
