import Vty.Input.Queue
import Mathlib.Data.List.Basic

namespace Vty.Input

def Decoded.event? : Decoded → Option Event
  | .event found => some found
  | _ => none

theorem Decoded.eq_of_event? {decoded : Decoded} {found : Event}
    (h : decoded.event? = some found) : decoded = .event found := by
  cases decoded <;> cases h
  rfl

def events (bytes : Bytes) : List Event :=
  ((Queue.ofBytes bytes).decode bytes.length).1.filterMap Decoded.event?

def remainder (bytes : Bytes) : Bytes :=
  ((Queue.ofBytes bytes).decode bytes.length).2.pending

def Stuck (bytes : Bytes) : Prop :=
  ∀ decoded count, scan bytes = some (decoded, count) → decoded = .incomplete

theorem stuck_nil : Stuck [] :=
  nofun

theorem Decoded.ofByte_ne_incomplete (b : UInt8) : ofByte b ≠ .incomplete := by
  grind [ofByte]

theorem Decoded.eq_of_ofByte {b c : UInt8} (h : ofByte b = .event (.insert c)) : b = c := by
  grind [ofByte]

theorem Decoded.ofEscape_ne_incomplete (first second : UInt8) :
    ofEscape first second ≠ .incomplete := by
  unfold ofEscape
  split_ifs <;> simp

/-- What a whole sequence at the head of the bytes is, and how many of them it takes up. -/
inductive Head : Bytes → Decoded → Nat → Prop
  | enter (next : UInt8) (rest : Bytes) :
      Head (cr :: next :: rest) (.event .endOfLine) (if next = lf then 2 else 1)
  | telnet (verb option : UInt8) (rest : Bytes) :
      Head (Telnet.iac :: verb :: option :: rest) (.event (.telnet (.ofCode verb) option)) 3
  | escape (first second : UInt8) (rest : Bytes) :
      Head (esc :: first :: second :: rest) (.ofEscape first second) 3
  | byte {b : UInt8} (hcr : b ≠ cr) (hiac : b ≠ Telnet.iac) (hesc : b ≠ esc) (rest : Bytes) :
      Head (b :: rest) (.ofByte b) 1

theorem scan_cases {bytes : Bytes} {decoded : Decoded} {count : Nat}
    (h : scan bytes = some (decoded, count)) :
    (decoded = .incomplete ∧ count = 0) ∨ Head bytes decoded count := by
  cases bytes with
  | nil => simp [scan] at h
  | cons b rest =>
    simp only [scan, Option.some.injEq] at h
    split_ifs at h with hcr hiac hesc
    · rcases rest with _ | ⟨next, rest⟩ <;> obtain ⟨rfl, rfl⟩ := Prod.mk.inj h
      · exact .inl ⟨rfl, rfl⟩
      · exact .inr (hcr ▸ .enter next rest)
    · rcases rest with _ | ⟨verb, _ | ⟨option, rest⟩⟩ <;> obtain ⟨rfl, rfl⟩ := Prod.mk.inj h
      · exact .inl ⟨rfl, rfl⟩
      · exact .inl ⟨rfl, rfl⟩
      · exact .inr (hiac ▸ .telnet verb option rest)
    · rcases rest with _ | ⟨first, _ | ⟨second, rest⟩⟩ <;> obtain ⟨rfl, rfl⟩ := Prod.mk.inj h
      · exact .inl ⟨rfl, rfl⟩
      · exact .inl ⟨rfl, rfl⟩
      · exact .inr (hesc ▸ .escape first second rest)
    · obtain ⟨rfl, rfl⟩ := Prod.mk.inj h
      exact .inr (.byte hcr hiac hesc rest)

theorem head_of_scan {bytes : Bytes} {decoded : Decoded} {count : Nat}
    (h : scan bytes = some (decoded, count)) (hd : decoded ≠ .incomplete) :
    Head bytes decoded count :=
  (scan_cases h).resolve_left fun hi => hd hi.1

namespace Head

variable {bytes : Bytes} {decoded : Decoded} {count : Nat}

theorem scan_eq (h : Head bytes decoded count) : scan bytes = some (decoded, count) := by
  cases h with
  | enter next rest => rfl
  | telnet verb option rest => rfl
  | escape first second rest => rfl
  | byte hcr hiac hesc rest => simp only [scan, if_neg hcr, if_neg hiac, if_neg hesc]

theorem ne_incomplete (h : Head bytes decoded count) : decoded ≠ .incomplete := by
  cases h with
  | enter next rest => exact Decoded.noConfusion
  | telnet verb option rest => exact Decoded.noConfusion
  | escape first second rest => exact Decoded.ofEscape_ne_incomplete first second
  | byte hcr hiac hesc rest => exact Decoded.ofByte_ne_incomplete _

theorem count_pos (h : Head bytes decoded count) : 0 < count := by
  cases h with
  | enter next rest => split <;> exact Nat.zero_lt_succ _
  | _ => exact Nat.zero_lt_succ _

theorem count_le (h : Head bytes decoded count) : count ≤ bytes.length := by
  cases h with
  | enter next rest => split <;> simp
  | _ => simp

theorem append (h : Head bytes decoded count) (more : Bytes) :
    Head (bytes ++ more) decoded count := by
  cases h with
  | enter next rest => exact .enter next (rest ++ more)
  | telnet verb option rest => exact .telnet verb option (rest ++ more)
  | escape first second rest => exact .escape first second (rest ++ more)
  | byte hcr hiac hesc rest => exact .byte hcr hiac hesc (rest ++ more)

end Head

theorem scan_append {bytes : Bytes} {decoded : Decoded} {count : Nat}
    (h : scan bytes = some (decoded, count)) (hd : decoded ≠ .incomplete) (more : Bytes) :
    scan (bytes ++ more) = some (decoded, count) :=
  ((head_of_scan h hd).append more).scan_eq

theorem scan_count {bytes : Bytes} {decoded : Decoded} {count : Nat}
    (h : scan bytes = some (decoded, count)) :
    count ≤ bytes.length ∧ (0 < count ↔ decoded ≠ .incomplete) := by
  rcases scan_cases h with ⟨rfl, rfl⟩ | hh
  · exact ⟨Nat.zero_le _, iff_of_false (Nat.lt_irrefl 0) (not_not_intro rfl)⟩
  · exact ⟨hh.count_le, iff_of_true hh.count_pos hh.ne_incomplete⟩

def Literal (b : UInt8) : Prop :=
  b ≠ cr ∧ b ≠ Telnet.iac ∧ b ≠ esc ∧ Decoded.ofByte b = .event (.insert b)

theorem literal_of_scan {bytes : Bytes} {b : UInt8} {count : Nat}
    (h : scan bytes = some (.event (.insert b), count)) : Literal b := by
  have hh := head_of_scan h Decoded.noConfusion
  generalize hd : Decoded.event (.insert b) = decoded at hh
  cases hh with
  | enter next rest => simp at hd
  | telnet verb option rest => simp at hd
  | escape first second rest =>
    unfold Decoded.ofEscape at hd
    split_ifs at hd <;> simp at hd
  | @byte c hcr hiac hesc rest =>
    obtain rfl := Decoded.eq_of_ofByte hd.symm
    exact ⟨hcr, hiac, hesc, hd.symm⟩

namespace Queue

theorem size_extend (q : Queue) (bytes : Bytes) : (q.extend bytes).size = q.size + bytes.length := by
  rw [← length_pending, pending_extend, List.length_append, length_pending]

theorem next_eq_some_iff {q queue : Queue} {decoded : Decoded} :
    q.next = some (decoded, queue) ↔
      ∃ count, scan q.pending = some (decoded, count) ∧ q.consume count = queue := by
  simp [next]

theorem next_eq_none_iff {q : Queue} : q.next = none ↔ q.pending = [] := by
  rw [next, Option.map_eq_none_iff, scan_eq_none_iff]

theorem size_next_lt {q queue : Queue} {decoded : Decoded} (h : q.next = some (decoded, queue))
    (hd : decoded ≠ .incomplete) : queue.size < q.size := by
  obtain ⟨count, hs, rfl⟩ := next_eq_some_iff.mp h
  obtain ⟨hl, hp⟩ := scan_count hs
  have hc := hp.mpr hd
  rw [← length_pending, ← length_pending, pending_consume, List.length_drop]
  omega

end Queue

theorem stream_induct {motive : Bytes → Prop} (stuck : ∀ bytes, Stuck bytes → motive bytes)
    (step : ∀ bytes decoded count, scan bytes = some (decoded, count) → decoded ≠ .incomplete →
      motive (bytes.drop count) → motive bytes) (bytes : Bytes) : motive bytes := by
  induction hn : bytes.length using Nat.strongRecOn generalizing bytes with
  | ind n ih =>
    by_cases hs : Stuck bytes
    · exact stuck bytes hs
    · simp only [Stuck, not_forall] at hs
      obtain ⟨decoded, count, h, hd⟩ := hs
      have hc := scan_count h
      have hp := hc.2.mpr hd
      exact step bytes decoded count h hd (ih _ (by rw [List.length_drop]; omega) _ rfl)

theorem Queue.decode_eq (limit limit' : Nat) (q q' : Queue) (hq : q.pending = q'.pending)
    (hl : q.pending.length ≤ limit) (hl' : q.pending.length ≤ limit') :
    (q.decode limit).1 = (q'.decode limit').1 ∧
      (q.decode limit).2.pending = (q'.decode limit').2.pending := by
  induction limit generalizing limit' q q' with
  | zero =>
    have hp : q'.pending = [] := by rw [← hq]; exact List.length_eq_zero_iff.mp (by omega)
    cases limit' <;> simp [decode, next, hq, hp, scan]
  | succ limit ih =>
    cases hs : scan q.pending with
    | none => cases limit' <;> simp [decode, next, ← hq, hs]
    | some found =>
      obtain ⟨decoded, count⟩ := found
      have hc := scan_count hs
      cases limit' with
      | zero =>
        have hp : q.pending = [] := List.length_eq_zero_iff.mp (by omega)
        simp [hp, scan] at hs
      | succ limit' =>
        by_cases hd : decoded = .incomplete
        · subst hd
          simp [decode, next, ← hq, hs, pending_consume]
        · have hp := hc.2.mpr hd
          have hr := ih limit' (q.consume count) (q'.consume count)
            (by rw [pending_consume, pending_consume, hq])
            (by rw [pending_consume, List.length_drop]; omega)
            (by rw [pending_consume, List.length_drop]; omega)
          cases decoded <;> simp_all [decode, next]

theorem pending_ofBytes (bytes : Bytes) : (Queue.ofBytes bytes).pending = bytes := rfl

theorem decode_of_stuck {bytes : Bytes} (h : Stuck bytes) :
    events bytes = [] ∧ remainder bytes = bytes := by
  unfold events remainder
  cases bytes with
  | nil => simp [Queue.decode, pending_ofBytes]
  | cons b rest =>
    cases hs : scan (b :: rest) with
    | none => simp [Queue.decode, Queue.next, pending_ofBytes, hs]
    | some found =>
      obtain ⟨decoded, count⟩ := found
      obtain rfl := h decoded count hs
      have hc : count = 0 := by
        have := (scan_count hs).2
        simpa using this
      simp [Queue.decode, Queue.next, pending_ofBytes, hs, Decoded.event?,
        Queue.pending_consume, hc]

theorem decode_of_scan {bytes : Bytes} {decoded : Decoded} {count : Nat}
    (h : scan bytes = some (decoded, count)) (hd : decoded ≠ .incomplete) :
    events bytes = decoded.event?.toList ++ events (bytes.drop count) ∧
      remainder bytes = remainder (bytes.drop count) := by
  have hc := scan_count h
  have hp := hc.2.mpr hd
  obtain ⟨limit, hl⟩ : ∃ limit, bytes.length = limit + 1 := ⟨bytes.length - 1, by omega⟩
  have hr := Queue.decode_eq limit (bytes.drop count).length ((Queue.ofBytes bytes).consume count)
    (Queue.ofBytes (bytes.drop count)) (Queue.pending_consume ..)
    (by rw [Queue.pending_consume, pending_ofBytes, List.length_drop]; omega)
    (Nat.le_of_eq (by rw [Queue.pending_consume, pending_ofBytes]))
  unfold events remainder
  rw [← hr.1, ← hr.2, hl]
  cases decoded <;>
    simp_all [Queue.decode, Queue.next, pending_ofBytes, Decoded.event?, List.filterMap_cons]

theorem stuck_remainder (bytes : Bytes) : Stuck (remainder bytes) := by
  induction bytes using stream_induct with
  | stuck bytes hs =>
    rw [(decode_of_stuck hs).2]
    exact hs
  | step bytes decoded count h hd ih =>
    rw [(decode_of_scan h hd).2]
    exact ih

theorem decode_append (a b : Bytes) :
    events (a ++ b) = events a ++ events (remainder a ++ b) ∧
      remainder (a ++ b) = remainder (remainder a ++ b) := by
  induction a using stream_induct with
  | stuck a hs => simp [decode_of_stuck hs]
  | step a decoded count h hd ih =>
    have hc := (scan_count h).1
    have ha := decode_of_scan h hd
    have hb := decode_of_scan (scan_append h hd b) hd
    rw [List.drop_append_of_le_length hc] at hb
    rw [hb.1, hb.2, ha.1, ha.2, ih.1, ih.2, List.append_assoc]
    exact ⟨rfl, rfl⟩

end Vty.Input
