import Vty.Proofs.Display.Line
import Vty.Proofs.Display.Output
import Vty.Proofs.Editor.Alphabet

namespace Vty

open Display (Command)

namespace Terminal

variable {t : Terminal} {bytes : Bytes}

theorem column_le_feed {b : UInt8} (hr : b ≠ 0x0D) (hl : b ≠ 0x44) :
    t.column ≤ (t.feed b).column := by
  unfold feed
  split
  · rw [if_neg hr]
    split_ifs <;> simp [put]
  · exact Nat.le_refl _
  · split_ifs <;> simp

def Steady (bytes : Bytes) : Prop :=
  ∀ b ∈ bytes, b ≠ 0x0D ∧ b ≠ 0x44

instance (bytes : Bytes) : Decidable (Steady bytes) :=
  List.decidableBAll (fun b => b ≠ 0x0D ∧ b ≠ 0x44) bytes

theorem column_le_run (h : Steady bytes) : t.column ≤ (t.run bytes).column := by
  induction bytes generalizing t with
  | nil => exact Nat.le_refl _
  | cons b bytes ih =>
    rw [Steady, List.forall_mem_cons] at h
    exact Nat.le_trans (column_le_feed h.1.1 h.1.2) (ih h.2)

theorem column_le_run_take (h : Steady bytes) (k : Nat) :
    t.column ≤ (t.run (bytes.take k)).column :=
  column_le_run fun b hb => h b (List.mem_of_mem_take hb)

theorem run_ground (hm : t.mode = .ground) (h : Printable bytes) :
    (t.run bytes).mode = .ground ∧ (t.run bytes).column = t.column + bytes.length := by
  induction bytes generalizing t with
  | nil => exact ⟨hm, rfl⟩
  | cons b bytes ih =>
    have hi := ih (t := t.put b) hm fun c hc => h c (List.mem_cons_of_mem _ hc)
    rw [run, List.foldl_cons, feed_of_ground hm (h b List.mem_cons_self), ← run]
    refine ⟨hi.1, hi.2.trans ?_⟩
    simp only [put, List.length_cons]
    omega

theorem steady_count (n : Nat) : Steady ([0x1B, 0x5B] ++ Text.utf8 (toString n)) := by
  have hs : Steady [0x1B, 0x5B] := by decide
  intro b hb
  rw [List.mem_append, Text.utf8, Nat.toString_eq_ofList_toDigits, String.toList_ofList,
    List.mem_flatMap] at hb
  rcases hb with hb | ⟨c, hc, hb⟩
  · exact hs b hb
  · have hd := Nat.isDigit_of_mem_toDigits (by decide) (by decide) hc
    obtain ⟨he, ht, hl, hu⟩ := utf8EncodeChar_digit hd
    rw [he, List.mem_singleton] at hb
    have hn : 0x30 ≤ b.toNat ∧ b.toNat ≤ 0x39 := by
      rw [hb, ht]
      exact ⟨hl, hu⟩
    constructor <;>
    · rintro rfl
      revert hn
      decide

theorem run_columns (row : Bytes) (column n : Nat) :
    run ⟨row, column, .ground⟩ (Display.columns n 0x44) = ⟨row, column - n, .ground⟩ ∧
      run ⟨row, column, .ground⟩ (Display.columns n 0x43) = ⟨row, column + n, .ground⟩ := by
  unfold Display.columns
  split
  · rename_i h
    rw [h]
    exact ⟨rfl, rfl⟩
  · constructor <;>
    · rw [run_append, run_count]
      rfl

theorem column_le_run_right (n k : Nat) :
    t.column ≤ (t.run ((Display.columns n 0x43).take k)).column := by
  refine column_le_run_take (fun b hb => ?_) k
  unfold Display.columns at hb
  split at hb
  · exact absurd hb List.not_mem_nil
  · rcases List.mem_append.mp hb with hb | hb
    · exact steady_count n b hb
    · obtain rfl := List.mem_singleton.mp hb
      decide

theorem column_le_run_left (hm : t.mode = .ground) (n k : Nat) :
    t.column - n ≤ (t.run ((Display.columns n 0x44).take k)).column := by
  obtain ⟨row, column, mode⟩ := t
  obtain rfl : mode = .ground := hm
  have hw := (run_columns row column n).1
  -- only the last byte moves the column
  rcases Nat.lt_or_ge k (Display.columns n 0x44).length with hk | hk
  · have hs : Steady ((Display.columns n 0x44).take k) := by
      intro b hb
      unfold Display.columns at hb hk
      split at hb
      · simp at hb
      · rename_i hn
        rw [if_neg hn, List.length_append, List.length_singleton] at hk
        rw [List.take_append_of_le_length (by omega)] at hb
        exact steady_count n b (List.mem_of_mem_take hb)
    exact Nat.le_trans (Nat.sub_le ..) (column_le_run hs)
  · rw [List.take_of_length_le hk]
    exact Nat.le_of_eq (congrArg Terminal.column hw).symm

end Terminal

namespace Display.Command

def Drawn : Command → Prop
  | .send bytes | .echo bytes | .control bytes => Terminal.Printable bytes
  | .left _ | .right _ | .erase | .bell => True
  | .will _ | .text _ _ => False

def shift (column : Nat) : Command → Nat
  | .send bytes | .echo bytes | .control bytes => column + bytes.length
  | .left n => column - n
  | .right n => column + n
  | .erase | .bell | .will _ | .text _ _ => column

/-- Before and behind each of the commands the column is not left of the margin. -/
def Stays (margin : Nat) : Nat → List Command → Prop
  | column, [] => margin ≤ column
  | column, command :: commands =>
    margin ≤ column ∧ command.Drawn ∧ Stays margin (command.shift column) commands

theorem Stays.margin_le {margin column : Nat} {commands : List Command}
    (h : Stays margin column commands) : margin ≤ column := by
  cases commands with
  | nil => exact h
  | cons command commands => exact h.1

section

variable {margin column n : Nat}

theorem stays_bell (h : margin ≤ column) : Stays margin column [.bell] :=
  ⟨h, trivial, h⟩

theorem stays_echo (h : margin ≤ column) {bytes : Bytes} (hp : Terminal.Printable bytes) :
    Stays margin column [.echo bytes] :=
  ⟨h, hp, Nat.le_add_right_of_le h⟩

theorem stays_right (h : margin ≤ column) : Stays margin column [.right n] :=
  ⟨h, trivial, Nat.le_add_right_of_le h⟩

theorem stays_left (h : margin + n ≤ column) : Stays margin column [.left n] :=
  ⟨Nat.le_of_add_right_le h, trivial, Nat.le_sub_of_add_le h⟩

end

end Display.Command

namespace Terminal

variable {t : Terminal} {command : Command}

theorem obey_ground (hm : t.mode = .ground) (hd : command.Drawn) :
    (t.obey command).mode = .ground ∧ (t.obey command).column = command.shift t.column := by
  have hc := run_columns t.row t.column
  obtain ⟨row, column, mode⟩ := t
  obtain rfl : mode = .ground := hm
  cases command with
  | send bytes => exact run_ground rfl hd
  | echo bytes => exact run_ground rfl hd
  | control bytes => exact run_ground rfl hd
  | left n =>
    have hl := (hc n).1
    exact ⟨congrArg Terminal.mode hl, congrArg Terminal.column hl⟩
  | right n =>
    have hr := (hc n).2
    exact ⟨congrArg Terminal.mode hr, congrArg Terminal.column hr⟩
  | erase => exact ⟨rfl, rfl⟩
  | bell => exact ⟨rfl, rfl⟩
  | will option => exact hd.elim
  | text message newline => exact hd.elim

theorem min_shift_le (hm : t.mode = .ground) (hd : command.Drawn) (k : Nat) :
    min t.column (command.shift t.column) ≤
      (t.run ((command.encode .terminal).take k)).column := by
  have hp {bytes : Bytes} (h : Printable bytes) : t.column ≤ (t.run (bytes.take k)).column := by
    rw [(run_ground hm (h.sublist (List.take_sublist ..))).2]
    exact Nat.le_add_right ..
  cases command with
  | send bytes => exact Nat.le_trans (Nat.min_le_left ..) (hp hd)
  | echo bytes => exact Nat.le_trans (Nat.min_le_left ..) (hp hd)
  | control bytes => exact Nat.le_trans (Nat.min_le_left ..) (hp hd)
  | left n => exact Nat.le_trans (Nat.min_le_right ..) (column_le_run_left hm n k)
  | right n => exact Nat.le_trans (Nat.min_le_left ..) (column_le_run_right n k)
  | erase => exact Nat.le_trans (Nat.min_le_left ..) (column_le_run_take (by decide) k)
  | bell => exact Nat.le_trans (Nat.min_le_left ..) (column_le_run_take (by decide) k)
  | will option => exact hd.elim
  | text message newline => exact hd.elim

theorem margin_le_run {margin : Nat} {commands : List Command} (hm : t.mode = .ground)
    (h : Command.Stays margin t.column commands) (k : Nat) :
    margin ≤ (t.run ((commands.flatMap (Command.encode .terminal)).take k)).column := by
  induction commands generalizing t k with
  | nil =>
    rw [List.flatMap_nil, List.take_nil]
    exact h
  | cons command commands ih =>
    obtain ⟨hl, hd, hs⟩ := h
    obtain ⟨hg, hc⟩ := obey_ground hm hd
    rw [List.flatMap_cons, List.take_append, run_append]
    rcases Nat.lt_or_ge k (command.encode .terminal).length with hk | hk
    · rw [Nat.sub_eq_zero_of_le (Nat.le_of_lt hk), List.take_zero]
      exact Nat.le_trans (Nat.le_min.mpr ⟨hl, hs.margin_le⟩) (min_shift_le hm hd k)
    · rw [List.take_of_length_le hk]
      exact ih hg (hc ▸ hs) _

end Terminal

end Vty
