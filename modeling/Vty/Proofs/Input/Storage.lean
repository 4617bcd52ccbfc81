import Vty.Proofs.Editor.Zipper
import Vty.Proofs.Input.Tokenization

namespace Vty.Input

/-- Stored bytes and a mark, wherever it may be. Nothing can be read or dropped from a mark behind
their end. -/
structure Storage where
  bytes : Bytes
  mark : Nat
  deriving DecidableEq, Repr

inductive Call where
  | extend (bytes : Bytes)
  | next

def Call.bytes : Call → Bytes
  | .extend bytes => bytes
  | .next => []

namespace Storage

def pending? (s : Storage) : Option Bytes :=
  s.bytes.rest? s.mark

def size? (s : Storage) : Option Nat :=
  difference? s.bytes.length s.mark

def compact? (s : Storage) : Option Storage :=
  if Queue.compactAt ≤ s.mark then s.pending?.map fun kept => ⟨kept, 0⟩ else some s

def extend? (s : Storage) (bytes : Bytes) : Option Storage :=
  s.compact?.map fun s => { s with bytes := s.bytes ++ bytes }

def consume (s : Storage) (count : Nat) : Storage :=
  let mark := min (s.mark + count) s.bytes.length
  if mark = s.bytes.length then ⟨[], 0⟩ else { s with mark }

def next? (s : Storage) : Option (List Token × Storage) :=
  s.pending?.map fun pending =>
    match scan pending with
    | none => ([], s)
    | some (decoded, count) => ([⟨decoded, pending.take count⟩], s.consume count)

def call? (s : Storage) : Call → Option (List Token × Storage)
  | .extend bytes => (s.extend? bytes).map fun s => ([], s)
  | .next => s.next?

def run? (s : Storage) : List Call → Option (List Token × Storage)
  | [] => some ([], s)
  | call :: calls => do
    let (found, s) ← s.call? call
    let (more, s) ← s.run? calls
    some (found ++ more, s)

end Storage

namespace Queue

def call (q : Queue) : Call → List Token × Queue
  | .extend bytes => ([], q.extend bytes)
  | .next =>
    ((scan q.pending).toList.map fun (decoded, count) => ⟨decoded, q.pending.take count⟩,
      (q.next.map Prod.snd).getD q)

def run (q : Queue) : List Call → List Token × Queue
  | [] => ([], q)
  | call :: calls =>
    let (found, q) := q.call call
    let (more, q) := q.run calls
    (found ++ more, q)

def storage (q : Queue) : Storage :=
  ⟨q.stored, q.offset⟩

variable (q : Queue)

theorem pending?_storage : q.storage.pending? = some q.pending :=
  if_pos q.offset_le

theorem size?_storage : q.storage.size? = some q.size :=
  if_pos q.offset_le

theorem compact?_storage : q.storage.compact? = some q.compact.storage := by
  by_cases h : compactAt ≤ q.offset
  · have hc : q.compact = ofBytes q.pending := if_pos h
    rw [hc, Storage.compact?, pending?_storage]
    exact if_pos h
  · have hc : q.compact = q := if_neg h
    rw [hc]
    exact if_neg h

theorem extend?_storage (bytes : Bytes) :
    q.storage.extend? bytes = some (q.extend bytes).storage := by
  rw [Storage.extend?, compact?_storage]
  rfl

theorem consume_storage (count : Nat) : q.storage.consume count = (q.consume count).storage := by
  by_cases h : q.offset + count < q.stored.length
  · have hm : min (q.offset + count) q.stored.length = q.offset + count :=
      Nat.min_eq_left (Nat.le_of_lt h)
    simp only [Storage.consume, storage, consume, dif_pos h, hm, if_neg (Nat.ne_of_lt h)]
  · have hm : min (q.offset + count) q.stored.length = q.stored.length :=
      Nat.min_eq_right (Nat.le_of_not_lt h)
    simp only [Storage.consume, storage, consume, dif_neg h, hm, if_pos]
    rfl

theorem call?_storage (call : Call) :
    q.storage.call? call = some ((q.call call).1, (q.call call).2.storage) := by
  cases call with
  | extend bytes =>
    rw [Storage.call?, extend?_storage]
    rfl
  | next =>
    rw [Storage.call?, Storage.next?, pending?_storage, Option.map_some]
    cases hs : scan q.pending with
    | none => simp [call, next, hs]
    | some found => simp [call, next, hs, consume_storage]

theorem run?_storage (calls : List Call) :
    q.storage.run? calls = some ((q.run calls).1, (q.run calls).2.storage) := by
  induction calls generalizing q with
  | nil => rfl
  | cons call calls ih =>
    rw [Storage.run?, call?_storage]
    simp only [Option.bind_eq_bind, Option.bind_some, ih]
    rfl

structure Tracks (q : Queue) (given consumed : Bytes) : Prop where
  given_eq : given = consumed ++ q.pending
  take_suffix : q.stored.take q.offset <:+ consumed
  stored_eq_nil : q.pending = [] → q.stored = []

variable {q} {given consumed : Bytes} {count : Nat}

namespace Tracks

theorem compact (h : q.Tracks given consumed) : q.compact.Tracks given consumed := by
  by_cases hc : compactAt ≤ q.offset
  · have he : q.compact = ofBytes q.pending := if_pos hc
    rw [he]
    exact ⟨h.given_eq, List.nil_suffix, id⟩
  · have he : q.compact = q := if_neg hc
    rw [he]
    exact h

theorem extend (h : q.Tracks given consumed) (bytes : Bytes) :
    (q.extend bytes).Tracks (given ++ bytes) consumed := by
  refine ⟨?_, ?_, fun hp => ?_⟩
  · rw [pending_extend, ← List.append_assoc, ← h.given_eq]
  · have ht : (q.extend bytes).stored.take (q.extend bytes).offset =
        q.compact.stored.take q.compact.offset :=
      List.take_append_of_le_length q.compact.offset_le
    rw [ht]
    exact h.compact.take_suffix
  · rw [pending_extend, ← pending_compact, List.append_eq_nil_iff] at hp
    exact List.append_eq_nil_iff.mpr ⟨h.compact.stored_eq_nil hp.1, hp.2⟩

theorem consume (h : q.Tracks given consumed) (count : Nat) :
    (q.consume count).Tracks given (consumed ++ q.pending.take count) := by
  have hg : given = consumed ++ q.pending.take count ++ (q.consume count).pending := by
    rw [pending_consume, List.append_assoc, List.take_append_drop]
    exact h.given_eq
  by_cases hl : q.offset + count < q.stored.length
  · have he : q.consume count = ⟨q.stored, q.offset + count, Nat.le_of_lt hl⟩ := dif_pos hl
    refine ⟨hg, ?_, fun hp => ?_⟩
    · have ht : q.stored.take (q.offset + count) = q.stored.take q.offset ++ q.pending.take count :=
        List.take_add
      obtain ⟨front, hf⟩ := h.take_suffix
      rw [he, ht, ← hf, List.append_assoc]
      exact List.suffix_append ..
    · rw [he] at hp
      exact absurd (List.drop_eq_nil_iff.mp hp) (Nat.not_le_of_lt hl)
  -- All that was pending is taken up, and with it goes all that is stored.
  · have he : q.consume count = empty := dif_neg hl
    refine ⟨hg, ?_, fun _ => ?_⟩
    · rw [he]
      exact List.nil_suffix
    · rw [he]
      rfl

theorem call (h : q.Tracks given consumed) (call : Call) :
    (q.call call).2.Tracks (given ++ call.bytes)
      (consumed ++ (q.call call).1.flatMap Token.bytes) := by
  cases call with
  | extend bytes => simpa [Queue.call, Call.bytes] using h.extend bytes
  | next =>
    rw [Call.bytes, List.append_nil]
    cases hs : scan q.pending with
    | none => simpa [Queue.call, next, hs] using h
    | some found => simpa [Queue.call, next, hs] using h.consume found.2

theorem run (h : q.Tracks given consumed) (calls : List Call) :
    (q.run calls).2.Tracks (given ++ calls.flatMap Call.bytes)
      (consumed ++ (q.run calls).1.flatMap Token.bytes) := by
  induction calls generalizing q given consumed with
  | nil => simpa [Queue.run] using h
  | cons call calls ih =>
    have hr := ih (h.call call)
    rw [List.append_assoc, List.append_assoc] at hr
    rw [Queue.run, List.flatMap_cons, List.flatMap_append]
    exact hr

end Tracks

theorem tracks_empty : empty.Tracks [] [] :=
  ⟨rfl, List.nil_suffix, id⟩

theorem offset_extend_lt (q : Queue) (bytes : Bytes) : (q.extend bytes).offset < compactAt := by
  change q.compact.offset < compactAt
  unfold compact
  split
  · exact Nat.zero_lt_succ _
  · exact Nat.lt_of_not_le ‹_›

/-- Whatever calls are made on a new queue, none fails, the bytes given are those consumed and then
those pending, no more are consumed than are pending, and few of those consumed are kept. -/
theorem run_fifo (calls : List Call) :
    let q := (empty.run calls).2
    let consumed := (empty.run calls).1.flatMap Token.bytes
    Storage.run? ⟨[], 0⟩ calls = some ((empty.run calls).1, ⟨q.stored, q.offset⟩) ∧
      q.offset ≤ q.stored.length ∧
      Storage.pending? ⟨q.stored, q.offset⟩ = some q.pending ∧
      Storage.size? ⟨q.stored, q.offset⟩ = some q.size ∧
      calls.flatMap Call.bytes = consumed ++ q.pending ∧
      (∀ decoded count, scan q.pending = some (decoded, count) → count ≤ q.size) ∧
      q.stored.take q.offset <:+ consumed ∧
      (∀ bytes, (q.extend bytes).offset < 4096) ∧
      (q.pending = [] ↔ q.stored = []) := by
  intro q consumed
  have h : q.Tracks (calls.flatMap Call.bytes) consumed := tracks_empty.run calls
  have hn (hs : q.stored = []) : q.pending = [] := by
    rw [pending, hs, List.drop_nil]
  refine ⟨run?_storage empty calls, q.offset_le, pending?_storage q, size?_storage q, h.given_eq,
    fun decoded count hs => ?_, h.take_suffix, offset_extend_lt q, h.stored_eq_nil, hn⟩
  rw [← length_pending]
  exact (scan_count hs).1

example : Storage.pending? ⟨[0x61], 2⟩ = none := rfl

end Queue

end Vty.Input
