import Vty.Proofs.Editor.History

namespace Vty.History

def run (h : History) (ops : List Op) : History :=
  ops.foldl (fun h op => (h.apply op).1) h

def Fits (h : History) : Prop :=
  0 < h.capacity ∧ h.entries.length ≤ h.capacity

variable {h : History}

theorem fits_ofLimit (limit : Nat) : (ofLimit limit).Fits :=
  ⟨Nat.le_max_right limit 1, Nat.zero_le _⟩

theorem Fits.record (hf : h.Fits) (line : Bytes) : (h.record line).Fits := by
  refine ⟨hf.1, ?_⟩
  simp only [History.record, List.length_drop]
  omega

theorem Fits.startBrowsing (hf : h.Fits) (draft : Bytes) : (h.startBrowsing draft).1.Fits := by
  unfold History.startBrowsing
  split
  · exact hf
  · split
    · exact hf
    · exact hf.record draft

theorem Fits.apply (hf : h.Fits) (op : Op) : (h.apply op).1.Fits := by
  cases op with
  | add line => exact hf.record line
  | previous draft =>
    have hs := hf.startBrowsing draft
    simp only [History.apply, previous]
    split
    · exact hf
    · split <;>
      · rename_i hb
        rw [hb] at hs
        exact hs
  | next =>
    simp only [History.apply, next]
    split
    · exact hf
    · split <;> exact hf
  | stopBrowsing => exact hf
  | clear => exact ⟨hf.1, Nat.zero_le _⟩

theorem Fits.run (hf : h.Fits) (ops : List Op) : (h.run ops).Fits := by
  induction ops generalizing h with
  | nil => exact hf
  | cons op ops ih => exact ih (hf.apply op)

theorem capacity_startBrowsing (h : History) (draft : Bytes) :
    (h.startBrowsing draft).1.capacity = h.capacity := by
  unfold startBrowsing
  split
  · rfl
  · split <;> rfl

theorem capacity_apply (h : History) (op : Op) : (h.apply op).1.capacity = h.capacity := by
  cases op with
  | previous draft =>
    have hs := h.capacity_startBrowsing draft
    simp only [apply, previous]
    split
    · rfl
    · split <;>
      · rename_i hb
        rw [hb] at hs
        exact hs
  | next =>
    simp only [apply, next]
    split
    · rfl
    · split <;> rfl
  | add line => rfl
  | stopBrowsing => rfl
  | clear => rfl

theorem capacity_run (h : History) (ops : List Op) : (h.run ops).capacity = h.capacity := by
  induction ops generalizing h with
  | nil => rfl
  | cons op ops ih => exact (ih _).trans (h.capacity_apply op)

theorem run_append (h : History) (ops more : List Op) :
    h.run (ops ++ more) = (h.run ops).run more :=
  List.foldl_append

inductive Move where
  | back (shown : Bytes)
  | forth
  deriving DecidableEq, Repr

def move (h : History) : Move → History × Step
  | .back shown => h.previous shown
  | .forth => h.next

def moves : List Move → History → List Step × History
  | [], h => ([], h)
  | m :: word, h => ((h.move m).2 :: (moves word (h.move m).1).1, (moves word (h.move m).1).2)

/-- A move from the line at `p` when the lines stay as they are. Behind the last there is nowhere
to be. -/
def stroll (lines : List Bytes) (p : Nat) : Move → Step × Option Nat
  | .back _ => if p = 0 then (.bell, some 0) else (.recall (lines[p - 1]?.getD []), some (p - 1))
  | .forth =>
    if p + 1 < lines.length then (.recall (lines[p + 1]?.getD []), some (p + 1))
    else (.recall [], none)

def walk (lines : List Bytes) : Nat → List Move → List Step × Option Nat
  | p, [] => ([], some p)
  | p, m :: word =>
    match (stroll lines p m).2 with
    | none => ([(stroll lines p m).1], none)
    | some q => ((stroll lines p m).1 :: (walk lines q word).1, (walk lines q word).2)

/-- The entries and the draft behind them, as far as there is room. -/
def drafted (h : History) (draft : Bytes) : List Bytes :=
  let lines := h.entries ++ if draft = [] then [] else [draft]
  lines.drop (lines.length - h.capacity)

def remaining (h : History) (draft : Bytes) : Nat :=
  (h.drafted draft).length - if draft = [] then 0 else 1

theorem startBrowsing_eq (hf : h.Fits) (hb : h.browse = none) (draft : Bytes) :
    h.startBrowsing draft = ({ h with entries := h.drafted draft }, h.remaining draft) := by
  obtain ⟨capacity, entries, browse⟩ := h
  subst hb
  have hl : entries.length ≤ capacity := hf.2
  by_cases hd : draft = []
  · have hz : entries.length - capacity = 0 := by omega
    simp [startBrowsing, remaining, drafted, hd, hz]
  · refine Prod.ext ?_ ?_
    · simp [startBrowsing, drafted, record, hd]
    · simp only [startBrowsing, remaining, drafted, hd, if_false, List.length_drop,
        List.length_append, List.length_singleton]
      omega

theorem remaining_pos (hf : h.Fits) (hn : h.entries ≠ []) {draft : Bytes}
    (hd : 2 ≤ h.capacity ∨ draft = []) : 0 < h.remaining draft := by
  have hp := List.length_pos_iff.mpr hn
  obtain ⟨hc, hl⟩ := hf
  unfold remaining drafted
  by_cases he : draft = []
  · simp only [he, if_true, List.append_nil, List.length_drop]
    omega
  · have h2 := hd.resolve_right he
    simp only [he, if_false, List.length_drop, List.length_append, List.length_singleton]
    omega

theorem remaining_le (h : History) (draft : Bytes) :
    h.remaining draft ≤ (h.drafted draft).length :=
  Nat.sub_le ..

theorem move_back (hf : h.Fits) (hb : h.browse = none) (hn : h.entries ≠ []) (draft : Bytes) :
    h.move (.back draft) =
      ({ h with
          entries := h.drafted draft
          browse := (stroll (h.drafted draft) (h.remaining draft) (.back draft)).2 },
        (stroll (h.drafted draft) (h.remaining draft) (.back draft)).1) := by
  simp only [move, previous, hn, if_false, startBrowsing_eq hf hb, stroll]
  cases h.remaining draft <;> rfl

theorem move_of_browse {p : Nat} (hb : h.browse = some p) (hn : h.entries ≠ []) (m : Move) :
    h.move m = ({ h with browse := (stroll h.entries p m).2 }, (stroll h.entries p m).1) := by
  cases m with
  | back shown =>
    simp only [move, previous, hn, if_false, startBrowsing, hb, stroll]
    cases p <;> rfl
  | forth =>
    simp only [move, next, hb, stroll]
    by_cases hp : p + 1 < h.entries.length
    · simp [hp]
    · simp [hp]

theorem stroll_lt {lines : List Bytes} {p q : Nat} {m : Move} (hp : p ≤ lines.length)
    (hn : lines ≠ []) (hq : (stroll lines p m).2 = some q) : q < lines.length := by
  have hl := List.length_pos_iff.mpr hn
  cases m with
  | back shown =>
    simp only [stroll] at hq
    split at hq <;> obtain rfl := Option.some.inj hq <;> omega
  | forth =>
    simp only [stroll] at hq
    split at hq
    · obtain rfl := Option.some.inj hq
      assumption
    · cases hq

theorem moves_of_browse {p : Nat} (hb : h.browse = some p) (hn : h.entries ≠ [])
    (word : List Move) :
    moves (word.take (walk h.entries p word).1.length) h =
      ((walk h.entries p word).1, { h with browse := (walk h.entries p word).2 }) := by
  induction word generalizing h p with
  | nil =>
    simp only [walk, List.length_nil, List.take_nil, moves, ← hb]
  | cons m word ih =>
    have hm := move_of_browse hb hn m
    unfold walk
    cases hs : (stroll h.entries p m).2 with
    | none =>
      simp only [List.length_singleton, List.take_succ_cons, List.take_zero, moves, hm, hs]
    | some q =>
      rw [hs] at hm
      have hi := ih (h := { h with browse := some q }) rfl hn
      simp only [List.length_cons, List.take_succ_cons, moves, hm, hi]

theorem walk_back (lines shown : List Bytes) {p : Nat} (hp : p ≤ lines.length)
    (hs : p ≤ shown.length) (word : List Move) :
    walk lines p (shown.map .back ++ word) =
      (((lines.map .recall).take p).reverse ++ List.replicate (shown.length - p) .bell ++
          (walk lines 0 word).1,
        (walk lines 0 word).2) := by
  induction shown generalizing p with
  | nil =>
    obtain rfl := Nat.le_zero.mp hs
    rfl
  | cons line shown ih =>
    cases p with
    | zero =>
      have hw : walk lines 0 ((line :: shown).map .back ++ word) =
          (.bell :: (walk lines 0 (shown.map .back ++ word)).1,
            (walk lines 0 (shown.map .back ++ word)).2) := rfl
      rw [hw, ih (Nat.zero_le _) (Nat.zero_le _)]
      rfl
    | succ p =>
      have hw : walk lines (p + 1) ((line :: shown).map .back ++ word) =
          (.recall (lines[p]?.getD []) :: (walk lines p (shown.map .back ++ word)).1,
            (walk lines p (shown.map .back ++ word)).2) := rfl
      have hl : (lines.map Step.recall).take (p + 1) =
          (lines.map Step.recall).take p ++ [.recall (lines[p]?.getD [])] := by
        have hi : p < (lines.map Step.recall).length := by
          rw [List.length_map]
          exact hp
        rw [List.take_succ_eq_append_getElem hi, List.getElem_map, List.getElem?_eq_getElem hp,
          Option.getD_some]
      rw [hw, ih (by omega) (by simpa using hs), hl]
      simp

theorem walk_forth (lines : List Bytes) {p : Nat} (hp : p < lines.length) :
    walk lines p (List.replicate (lines.length - p) .forth) =
      ((lines.map .recall).drop (p + 1) ++ [.recall []], none) := by
  -- the induction is on the number of lines behind the one at `p`
  generalize hk : lines.length - p = k
  induction k generalizing p with
  | zero => omega
  | succ k ih =>
    by_cases hq : p + 1 < lines.length
    · have hi := ih hq (by omega)
      have hl : (lines.map Step.recall).drop (p + 1) =
          .recall lines[p + 1] :: (lines.map Step.recall).drop (p + 2) := by
        rw [List.drop_eq_getElem_cons (by simpa using hq), List.getElem_map]
      rw [hl]
      simp [List.replicate_succ, walk, stroll, hq, hi]
    · obtain rfl : k = 0 := by omega
      have hd : (lines.map Step.recall).drop (p + 1) = [] :=
        List.drop_eq_nil_of_le (by simp; omega)
      rw [hd]
      simp [walk, stroll, hq]

theorem walk_lt {lines : List Bytes} (hn : lines ≠ []) {p q : Nat} (hp : p ≤ lines.length)
    {word : List Move} (hw : word ≠ []) (hq : (walk lines p word).2 = some q) :
    q < lines.length := by
  induction word generalizing p with
  | nil => exact absurd rfl hw
  | cons m word ih =>
    unfold walk at hq
    cases hs : (stroll lines p m).2 with
    | none => simp [hs] at hq
    | some r =>
      have hr := stroll_lt hp hn hs
      simp only [hs] at hq
      cases word with
      | nil =>
        obtain rfl := Option.some.inj hq
        exact hr
      | cons m' word => exact ih (Nat.le_of_lt hr) nofun hq

theorem take_drafted (hf : h.Fits) (draft : Bytes) :
    (h.drafted draft).take (h.remaining draft) =
      h.entries.drop (h.entries.length - h.remaining draft) := by
  obtain ⟨hc, hl⟩ := hf
  unfold remaining drafted
  by_cases hd : draft = []
  · have hz : h.entries.length - h.capacity = 0 := by omega
    simp [hd, hz]
  · simp only [hd, if_false]
    have hk : (h.entries ++ [draft]).length - h.capacity ≤ h.entries.length := by
      rw [List.length_append, List.length_singleton]
      omega
    rw [List.drop_append_of_le_length hk, List.length_append, List.length_singleton,
      Nat.add_sub_cancel, List.take_left' rfl, List.length_drop, Nat.sub_sub_self hk]

theorem drafted_ne_nil (hf : h.Fits) (hn : h.entries ≠ []) {draft : Bytes}
    (hd : 2 ≤ h.capacity ∨ draft = []) : h.drafted draft ≠ [] := by
  have hp := remaining_pos hf hn hd
  have hl := h.remaining_le draft
  apply List.ne_nil_of_length_pos
  omega

theorem moves_back (hf : h.Fits) (hb : h.browse = none) (hn : h.entries ≠ []) {draft : Bytes}
    (hd : 2 ≤ h.capacity ∨ draft = []) (word : List Move) :
    let found := walk (h.drafted draft) (h.remaining draft) (.back draft :: word)
    moves ((.back draft :: word).take found.1.length) h =
      (found.1, { h with entries := h.drafted draft, browse := found.2 }) := by
  intro found
  have hm := move_back hf hb hn draft
  have hf' : found = walk (h.drafted draft) (h.remaining draft) (.back draft :: word) := rfl
  unfold walk at hf'
  cases hs : (stroll (h.drafted draft) (h.remaining draft) (.back draft)).2 with
  | none =>
    rw [hs] at hf' hm
    simp only [hf', List.length_singleton, List.take_succ_cons, List.take_zero, moves, hm]
  | some q =>
    rw [hs] at hf' hm
    have hi := moves_of_browse (h := { h with entries := h.drafted draft, browse := some q }) rfl
      (drafted_ne_nil hf hn hd) word
    simp only [hf', List.length_cons, List.take_succ_cons, moves, hm, hi]

/-- Moves back and forth, from the first one back until the walk is over, lead over the newest
entries and the draft, which stay as they are. -/
theorem moves_drafted (limit : Nat) (ops : List Op) (draft : Bytes)
    (hn : ((ofLimit limit).run ops).entries ≠ [])
    (hb : ((ofLimit limit).run ops).browse = none)
    (hd : 2 ≤ ((ofLimit limit).run ops).capacity ∨ draft = []) :
    let h := (ofLimit limit).run ops
    let lines := h.drafted draft
    (∀ word,
      let found := walk lines (h.remaining draft) (.back draft :: word)
      moves ((.back draft :: word).take found.1.length) h =
          (found.1, { h with entries := lines, browse := found.2 }) ∧
        ∀ p, found.2 = some p → p < lines.length) ∧
    lines.take (h.remaining draft) = h.entries.drop (h.entries.length - h.remaining draft) ∧
    ∀ shown, h.remaining draft ≤ shown.length + 1 →
      (moves ((draft :: shown).map .back ++ List.replicate lines.length .forth) h).1 =
        ((lines.map .recall).take (h.remaining draft)).reverse ++
          List.replicate (shown.length + 1 - h.remaining draft) .bell ++
          ((lines.map .recall).drop 1 ++ [.recall []]) := by
  intro h lines
  have hf : h.Fits := (fits_ofLimit limit).run ops
  have hl := drafted_ne_nil hf hn hd
  refine ⟨fun word => ⟨moves_back hf hb hn hd word, fun p => ?_⟩, take_drafted hf draft, ?_⟩
  · exact walk_lt hl (h.remaining_le draft) nofun
  · intro shown hs
    let word : List Move := shown.map .back ++ List.replicate lines.length .forth
    let answers : List Step := ((lines.map .recall).take (h.remaining draft)).reverse ++
      List.replicate (shown.length + 1 - h.remaining draft) .bell ++
      ((lines.map .recall).drop 1 ++ [.recall []])
    have hw : walk lines (h.remaining draft) (.back draft :: word) = (answers, none) := by
      have hz := walk_forth lines (List.length_pos_iff.mpr hl)
      have ht := walk_back lines (draft :: shown) (h.remaining_le draft) hs
        (List.replicate lines.length .forth)
      rw [Nat.sub_zero] at hz
      rw [hz] at ht
      exact ht
    have ha : (.back draft :: word).take answers.length = .back draft :: word := by
      have hp := List.length_pos_iff.mpr hl
      have hr : h.remaining draft ≤ lines.length := h.remaining_le draft
      apply List.take_of_length_le
      simp only [word, answers, List.length_cons, List.length_append, List.length_map,
        List.length_replicate, List.length_reverse, List.length_take, List.length_drop,
        List.length_nil]
      omega
    have hm := moves_back hf hb hn hd word
    dsimp only at hm
    rw [hw, ha] at hm
    exact congrArg Prod.fst hm

def filling : List Op :=
  [.add [0x61], .add [0x62], .add [0x63]]

theorem moves_drafted_filling :
    let h := (ofLimit 3).run filling
    h.entries ≠ [] ∧ h.browse = none ∧ 2 ≤ h.capacity ∧
      h.drafted [0x64] = [[0x62], [0x63], [0x64]] ∧
      (moves [.back [0x64], .back [], .back [], .forth, .forth, .forth] h).1 =
        [.recall [0x63], .recall [0x62], .bell, .recall [0x63], .recall [0x64], .recall []] := by
  intro h
  have hn : h.entries ≠ [] := by decide
  have hb : h.browse = none := rfl
  have hc : 2 ≤ h.capacity := by decide
  obtain ⟨-, -, hm⟩ := moves_drafted 3 filling [0x64] hn hb (.inl hc)
  exact ⟨hn, hb, hc, rfl, hm [[], []] (by decide)⟩

end Vty.History
