import Vty.Input.Event

namespace Vty.Input

/-- Received bytes; the first `offset` of those stored have been consumed. -/
structure Queue where
  stored : Bytes
  offset : Nat
  offset_le : offset ≤ stored.length
  deriving DecidableEq, Repr

namespace Queue

def ofBytes (bytes : Bytes) : Queue :=
  ⟨bytes, 0, Nat.zero_le _⟩

def empty : Queue :=
  ofBytes []

def compactAt : Nat := 4096

def pending (q : Queue) : Bytes :=
  q.stored.drop q.offset

def size (q : Queue) : Nat :=
  q.stored.length - q.offset

def isEmpty (q : Queue) : Bool :=
  q.size = 0

def compact (q : Queue) : Queue :=
  if compactAt ≤ q.offset then ofBytes q.pending else q

def extend (q : Queue) (bytes : Bytes) : Queue :=
  { q.compact with
    stored := q.compact.stored ++ bytes
    offset_le := by have := q.compact.offset_le; simp; omega }

def consume (q : Queue) (count : Nat) : Queue :=
  if h : q.offset + count < q.stored.length then
    { q with offset := q.offset + count, offset_le := by omega }
  else empty

def next (q : Queue) : Option (Decoded × Queue) :=
  (scan q.pending).map fun (decoded, count) => (decoded, q.consume count)

def decode : Nat → Queue → List Decoded × Queue
  | 0, q => ([], q)
  | limit + 1, q =>
    match q.next with
    | none => ([], q)
    | some (.incomplete, q) => ([.incomplete], q)
    | some (decoded, q) =>
      let (more, q) := decode limit q
      (decoded :: more, q)

theorem pending_compact (q : Queue) : q.compact.pending = q.pending := by
  unfold compact
  split <;> simp [pending, ofBytes]

theorem pending_extend (q : Queue) (bytes : Bytes) :
    (q.extend bytes).pending = q.pending ++ bytes := by
  rw [← pending_compact q]
  simp [extend, pending, List.drop_append_of_le_length q.compact.offset_le]

theorem pending_consume (q : Queue) (count : Nat) :
    (q.consume count).pending = q.pending.drop count := by
  unfold consume
  split
  · simp [pending]
  · simp [pending, empty, ofBytes]; omega

theorem length_pending (q : Queue) : q.pending.length = q.size := by
  simp [pending, size]

end Queue

end Vty.Input
