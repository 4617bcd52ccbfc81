import Vty.Proofs.Editor.History

namespace Vty

namespace History

def Step.line (shown : Bytes) : Step → Bytes
  | .bell => shown
  | .recall line => line

structure Shows (h : History) (line : Bytes) : Prop where
  capacity_pos : 0 < h.capacity
  entry_ne : ∀ entry ∈ h.entries, entry ≠ []
  browsed : ∀ index, h.browse = some index → h.entries[index]? = some line

variable {h : History} {line : Bytes}

theorem shows_ofLimit (limit : Nat) (line : Bytes) : (ofLimit limit).Shows line :=
  ⟨Nat.le_max_right limit 1, fun _ hm => absurd hm List.not_mem_nil, nofun⟩

theorem Shows.stopBrowsing (hs : h.Shows line) (other : Bytes) : h.stopBrowsing.Shows other :=
  ⟨hs.capacity_pos, hs.entry_ne, nofun⟩

theorem Shows.clear (hs : h.Shows line) (other : Bytes) : h.clear.Shows other :=
  ⟨hs.capacity_pos, fun _ hm => absurd hm List.not_mem_nil, nofun⟩

theorem Shows.add (hs : h.Shows line) {finished : Bytes} (hf : finished ≠ []) (other : Bytes) :
    (h.add finished).Shows other := by
  refine ⟨hs.capacity_pos, fun entry hm => ?_, nofun⟩
  rcases mem_of_record hm with hm | rfl
  · exact hs.entry_ne entry hm
  · exact hf

theorem Shows.startBrowsing (hs : h.Shows line) :
    0 < (h.startBrowsing line).1.capacity ∧
      (∀ entry ∈ (h.startBrowsing line).1.entries, entry ≠ []) ∧
      (h.startBrowsing line).2 ≤ (h.startBrowsing line).1.entries.length ∧
      (h.entries ≠ [] → (h.startBrowsing line).2 = 0 →
        (h.startBrowsing line).1.entries[0]? = some line) := by
  have hc := hs.capacity_pos
  unfold History.startBrowsing
  split
  · rename_i index hb
    have hi := hs.browsed index hb
    obtain ⟨hlt, -⟩ := List.getElem?_eq_some_iff.mp hi
    exact ⟨hc, hs.entry_ne, Nat.le_of_lt hlt, fun _ h0 => h0 ▸ hi⟩
  · split
    · exact ⟨hc, hs.entry_ne, Nat.le_refl _, fun hn h0 => absurd (List.length_eq_zero_iff.mp h0) hn⟩
    · rename_i hd
      refine ⟨hc, fun entry hm => ?_, ?_, fun hn h0 => ?_⟩
      · rcases mem_of_record hm with hm | rfl
        · exact hs.entry_ne entry hm
        · exact hd
      · simp only [record, List.length_drop, List.length_append, List.length_singleton]
        omega
      · -- the draft has taken the place of the only entry
        have hl := List.length_pos_iff.mpr hn
        have h1 : h.entries.length + 1 - h.capacity = h.entries.length := by
          dsimp only at h0
          omega
        simp [record, h1]

theorem Shows.previous (hs : h.Shows line) :
    (h.previous line).1.Shows ((h.previous line).2.line line) := by
  unfold History.previous
  split
  · exact hs
  · rename_i hn
    obtain ⟨hc, he, hl, h0⟩ := hs.startBrowsing
    generalize h.startBrowsing line = started at hc he hl h0
    obtain ⟨grown, index⟩ := started
    cases index with
    | zero => exact ⟨hc, he, by rintro _ ⟨⟩; exact h0 hn rfl⟩
    | succ index =>
      refine ⟨hc, he, ?_⟩
      rintro _ ⟨⟩
      have hi : index < grown.entries.length := hl
      simp [Step.line, hi]

theorem Shows.next (hs : h.Shows line) : h.next.1.Shows (h.next.2.line line) := by
  unfold History.next
  split
  · exact hs
  · rename_i index hb
    split
    · rename_i found hf
      refine ⟨hs.capacity_pos, hs.entry_ne, ?_⟩
      rintro _ ⟨⟩
      exact hf
    · exact ⟨hs.capacity_pos, hs.entry_ne, nofun⟩

end History

namespace Editor

def run (e : Editor) (ops : List Op) : Editor :=
  ops.foldl (fun e op => (e.apply op).1) e

def Op.isKey : Op → Bool
  | .replaceLine _ | .takeLine | .commit _ => false
  | _ => true

variable {e : Editor}

theorem follow_eq (e : Editor) (step : History.Step) :
    (e.follow step).1.buffer = step.line e.buffer ∧ (e.follow step).1.history = e.history := by
  cases step <;> exact ⟨rfl, rfl⟩

theorem apply_enter (e : Editor) :
    (e.apply .enter).1.buffer = [] ∧
      (e.apply .enter).1.history =
        if e.buffer = [] then e.history else e.history.add e.buffer := by
  by_cases hb : e.buffer = [] <;> simp [apply, takeLine, commit, hb]

theorem shows_enter (hs : e.history.Shows e.buffer) :
    (e.apply .enter).1.history.Shows [] ∧ (e.apply .enter).1.history.browse = none := by
  rw [(apply_enter e).2]
  split
  · rename_i hb
    -- an entry that is browsed is not empty, but the line is
    have hn : e.history.browse = none := by
      cases hi : e.history.browse with
      | none => rfl
      | some index =>
        have hm := List.mem_of_getElem? (hs.browsed index hi)
        exact absurd hb (hs.entry_ne _ hm)
    exact ⟨hb ▸ hs, hn⟩
  · rename_i hb
    exact ⟨hs.add hb [], rfl⟩

theorem shows_apply (hs : e.history.Shows e.buffer) {op : Op} (ho : op.isKey = true) :
    (e.apply op).1.history.Shows (e.apply op).1.buffer := by
  cases op with
  | insert byte =>
    simp only [apply, insert]
    split <;> exact hs.stopBrowsing _
  | deleteBefore =>
    simp only [apply, deleteBefore]
    split
    · exact hs
    · exact hs.stopBrowsing _
  | moveLeft =>
    simp only [apply, moveLeft]
    split <;> exact hs
  | moveRight =>
    simp only [apply, moveRight]
    split <;> exact hs
  | moveToStart => exact hs
  | moveToEnd => exact hs
  | historyPrevious =>
    simp only [apply, historyPrevious, follow_eq]
    exact hs.previous
  | historyNext =>
    simp only [apply, historyNext, follow_eq]
    exact hs.next
  | enter =>
    rw [(apply_enter e).1]
    exact (shows_enter hs).1
  | redraw => exact hs
  | clearHistory => exact hs.clear _
  | stopBrowsing => exact hs.stopBrowsing _
  | replaceLine line => cases ho
  | takeLine => cases ho
  | commit line => cases ho

theorem shows_run (hs : e.history.Shows e.buffer) {ops : List Op}
    (ho : ∀ op ∈ ops, op.isKey = true) :
    (e.run ops).history.Shows (e.run ops).buffer := by
  induction ops generalizing e with
  | nil => exact hs
  | cons op ops ih =>
    rw [List.forall_mem_cons] at ho
    exact ih (shows_apply hs ho.1) ho.2

/-- While the history is browsed the line is the entry that is shown, and no step through the
history goes past its ends. -/
theorem run_browses (limit : Nat) {ops : List Op} (ho : ∀ op ∈ ops, op.isKey = true) :
    let e := (ofLimit limit).run ops
    (∀ entry ∈ e.history.entries, entry ≠ []) ∧
      (∀ index, e.history.browse = some index →
        ∃ hi : index < e.history.entries.length, e.history.entries[index] = e.buffer) ∧
      (e.apply .enter).1.history.browse = none ∧
      (e.history.startBrowsing e.buffer).2 ≤
        (e.history.startBrowsing e.buffer).1.entries.length := by
  intro e
  have hs : e.history.Shows e.buffer := shows_run (History.shows_ofLimit limit []) ho
  refine ⟨hs.entry_ne, fun index hi => ?_, (shows_enter hs).2, hs.startBrowsing.2.2.1⟩
  exact List.getElem?_eq_some_iff.mp (hs.browsed index hi)

def drafting : List Op :=
  [.insert 0x61, .enter, .insert 0x62, .historyPrevious]

theorem run_browses_drafting :
    (∀ op ∈ drafting, op.isKey = true) ∧
      let e := (ofLimit 0).run drafting
      e.history.browse = some 0 ∧ e.history.entries = [[0x62]] ∧
        (∃ hi : 0 < e.history.entries.length, e.history.entries[0] = e.buffer) ∧
        (e.apply .enter).1.history.browse = none := by
  have ho : ∀ op ∈ drafting, op.isKey = true := by decide
  obtain ⟨-, hb, he, -⟩ := run_browses 0 ho
  exact ⟨ho, rfl, rfl, hb 0 rfl, he⟩

end Editor

end Vty
