import Vty.Display.Command
import Mathlib.Data.List.Basic

namespace Vty

inductive Terminal.Mode where
  | ground
  | escape
  | control (count : Nat)
  deriving DecidableEq, Repr

/-- The row on which a terminal's cursor stands, one cell a byte. -/
structure Terminal where
  row : Bytes := []
  column : Nat := 0
  mode : Terminal.Mode := .ground
  deriving DecidableEq, Repr

namespace Terminal

def space : UInt8 := 0x20

def put (t : Terminal) (b : UInt8) : Terminal :=
  { t with
    row := t.row.take t.column ++ List.replicate (t.column - t.row.length) space ++
      b :: t.row.drop (t.column + 1)
    column := t.column + 1 }

def feed (t : Terminal) (b : UInt8) : Terminal :=
  match t.mode with
  | .ground =>
    if b = 0x0D then { t with column := 0 }
    else if b = 0x0A then { t with row := [] }
    else if b = 0x07 then t
    else if b = 0x1B then { t with mode := .escape }
    else t.put b
  | .escape => { t with mode := if b = 0x5B then .control 0 else .ground }
  | .control count =>
    if 0x30 ≤ b ∧ b ≤ 0x39 then { t with mode := .control (10 * count + (b.toNat - 0x30)) }
    else if b = 0x43 then { t with column := t.column + count, mode := .ground }
    else if b = 0x44 then { t with column := t.column - count, mode := .ground }
    else if b = 0x4B then { t with row := t.row.take t.column, mode := .ground }
    else { t with mode := .ground }

def run (t : Terminal) (bytes : Bytes) : Terminal :=
  bytes.foldl feed t

def isControl (b : UInt8) : Bool :=
  b < 0x20 || b = 0x7F

def Printable (bytes : Bytes) : Prop :=
  ∀ b ∈ bytes, isControl b = false

/-- Printable but for the ends of its lines. -/
def Plain (bytes : Bytes) : Prop :=
  ∀ b ∈ bytes, isControl b = true → b = 0x0A

instance (bytes : Bytes) : Decidable (Printable bytes) :=
  List.decidableBAll (fun b => isControl b = false) bytes

instance (bytes : Bytes) : Decidable (Plain bytes) :=
  List.decidableBAll (fun b => isControl b = true → b = 0x0A) bytes

def between (left right : Bytes) : Terminal :=
  { row := left ++ right, column := left.length }

theorem run_append (t : Terminal) (a b : Bytes) : t.run (a ++ b) = (t.run a).run b :=
  List.foldl_append

theorem printable_nil : Printable [] :=
  fun _ hb => absurd hb List.not_mem_nil

theorem Printable.append {a b : Bytes} (ha : Printable a) (hb : Printable b) :
    Printable (a ++ b) := by
  intro c hc
  rcases List.mem_append.mp hc with hc | hc
  · exact ha c hc
  · exact hb c hc

theorem Printable.sublist {a b : Bytes} (hb : Printable b) (h : a.Sublist b) : Printable a :=
  fun c hc => hb c (h.subset hc)

theorem feed_of_ground {t : Terminal} (hm : t.mode = .ground) {b : UInt8}
    (hb : isControl b = false) : t.feed b = t.put b := by
  have hc : b ≠ 0x0D ∧ b ≠ 0x0A ∧ b ≠ 0x07 ∧ b ≠ 0x1B := by
    refine ⟨?_, ?_, ?_, ?_⟩ <;>
    · rintro rfl
      simp [isControl] at hb
  simp [feed, hm, hc]

theorem feed_between {b : UInt8} (hb : isControl b = false) (left right : Bytes) :
    (between left right).feed b = between (left ++ [b]) (right.drop 1) := by
  have hd : (left ++ right).drop (left.length + 1) = right.drop 1 := by
    rw [List.drop_append]
    simp
  rw [feed_of_ground rfl hb]
  simp [put, between, hd]

theorem run_printable {bytes : Bytes} (h : Printable bytes) (left right : Bytes) :
    (between left right).run bytes = between (left ++ bytes) (right.drop bytes.length) := by
  induction bytes generalizing left right with
  | nil => simp [run]
  | cons b bytes ih =>
    have hb := h b (by simp)
    have hr := ih (fun c hc => h c (by simp [hc])) (left ++ [b]) (right.drop 1)
    rw [run, List.foldl_cons, feed_between hb, ← run, hr]
    simp

theorem run_newline (left right : Bytes) :
    (between left right).run [0x0D, 0x0A] = between [] [] :=
  rfl

theorem run_bell (left right : Bytes) : (between left right).run [0x07] = between left right :=
  rfl

theorem run_erase (left right : Bytes) :
    (between left right).run [0x1B, 0x5B, 0x4B] = between left [] := by
  simp [run, feed, between]

theorem utf8EncodeChar_digit {c : Char} (hc : c.isDigit = true) :
    String.utf8EncodeChar c = [c.toUInt8] ∧ c.toUInt8.toNat = c.toNat ∧
      0x30 ≤ c.toNat ∧ c.toNat ≤ 0x39 := by
  rw [Char.isDigit_iff_toNat] at hc
  have hs : c.utf8Size = 1 := by
    rw [Char.utf8Size_eq_one_iff, UInt32.le_iff_toNat_le]
    exact Nat.le_trans hc.2 (by decide)
  refine ⟨String.utf8EncodeChar_eq_singleton hs, ?_, hc⟩
  rw [Char.toUInt8, UInt32.toNat_toUInt8]
  exact Nat.mod_eq_of_lt (Nat.lt_of_le_of_lt hc.2 (by decide))

theorem run_digits {digits : List Char} (hd : ∀ c ∈ digits, c.isDigit = true) (row : Bytes)
    (column count : Nat) :
    run ⟨row, column, .control count⟩ (digits.flatMap String.utf8EncodeChar) =
      ⟨row, column, .control (Nat.ofDigitChars 10 digits count)⟩ := by
  induction digits generalizing count with
  | nil => rfl
  | cons c digits ih =>
    obtain ⟨he, ht, hl, hu⟩ := utf8EncodeChar_digit (hd c (by simp))
    have hf : feed ⟨row, column, .control count⟩ c.toUInt8 =
        ⟨row, column, .control (10 * count + (c.toNat - 0x30))⟩ := by
      have hb : 0x30 ≤ c.toUInt8 ∧ c.toUInt8 ≤ 0x39 := by
        rw [UInt8.le_iff_toNat_le, UInt8.le_iff_toNat_le, ht]
        exact ⟨hl, hu⟩
      simp [feed, hb, ht]
    rw [List.flatMap_cons, he, run_append, Nat.ofDigitChars_cons]
    exact (congrArg (run · _) hf).trans (ih (fun d hm => hd d (by simp [hm])) _)

theorem run_count (row : Bytes) (column count : Nat) :
    run ⟨row, column, .ground⟩ ([0x1B, 0x5B] ++ Text.utf8 (toString count)) =
      ⟨row, column, .control count⟩ := by
  have hd : ∀ c ∈ Nat.toDigits 10 count, c.isDigit = true :=
    fun c hc => Nat.isDigit_of_mem_toDigits (by decide) (by decide) hc
  have hr := run_digits hd row column 0
  rw [Nat.ofDigitChars_ten_toDigits] at hr
  rw [run_append, Text.utf8, Nat.toString_eq_ofList_toDigits, String.toList_ofList]
  exact hr

theorem run_left (left middle right : Bytes) :
    (between (left ++ middle) right).run (Display.columns middle.length 0x44) =
      between left (middle ++ right) := by
  unfold Display.columns
  split
  · rename_i h
    obtain rfl := List.length_eq_zero_iff.mp h
    simp [run]
  · rw [run_append, between, run_count]
    simp [run, feed, between]

theorem run_right (left middle right : Bytes) :
    (between left (middle ++ right)).run (Display.columns middle.length 0x43) =
      between (left ++ middle) right := by
  unfold Display.columns
  split
  · rename_i h
    obtain rfl := List.length_eq_zero_iff.mp h
    simp [run]
  · rw [run_append, between, run_count]
    simp [run, feed, between]

theorem expandNewlines_printable {bytes : Bytes} (h : Printable bytes) :
    Display.expandNewlines bytes = bytes := by
  have hb : ∀ b ∈ bytes, (if b = 0x0A then [0x0D, 0x0A] else [b]) = [b] := by
    intro b hm
    rw [if_neg]
    rintro rfl
    exact absurd (h _ hm) (by decide)
  rw [Display.expandNewlines, List.flatMap_congr hb, List.flatMap_singleton']

theorem run_expandNewlines {bytes : Bytes} (h : Plain bytes) (left right : Bytes) :
    ∃ left' right', (between left right).run (Display.expandNewlines bytes) =
      between left' right' := by
  induction bytes generalizing left right with
  | nil => exact ⟨left, right, rfl⟩
  | cons b bytes ih =>
    have ih := ih (fun c hc => h c (by simp [hc]))
    rw [Display.expandNewlines, List.flatMap_cons, run_append]
    by_cases hb : b = 0x0A
    · rw [if_pos hb, run_newline]
      exact ih [] []
    · have hc : isControl b = false := by
        cases hc : isControl b with
        | false => rfl
        | true => exact absurd (h b (by simp) hc) hb
      rw [if_neg hb]
      exact (congrArg (run · _) (feed_between hc left right)) ▸ ih (left ++ [b]) (right.drop 1)

end Terminal

end Vty
