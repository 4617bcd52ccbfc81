import Vty.Text.Utf8

namespace Vty

inductive Arrival where
  | data (bytes : Bytes)
  | failure (reason : String)
  deriving DecidableEq, Repr

namespace Arrival

def size : Arrival → Nat
  | .data bytes => bytes.length
  | .failure _ => 0

end Arrival

/-- On a terminal in raw mode Enter arrives as a lone CR. It becomes LF, which ends a line at once;
a CR with an LF behind it stays. -/
def enterToLineFeed : Bytes → Bytes
  | [] => []
  | b :: rest =>
    (if b = 0x0D ∧ rest.head? ≠ some 0x0A then 0x0A else b) :: enterToLineFeed rest

theorem length_enterToLineFeed (bytes : Bytes) :
    (enterToLineFeed bytes).length = bytes.length := by
  induction bytes with
  | nil => rfl
  | cons b rest ih => simp [enterToLineFeed, ih]

structure InputChannel where
  handle : Int
  arrivals : List Arrival := []
  rawTerminal : Bool := false
  release : Except String Unit := .ok ()

namespace InputChannel

def read (c : InputChannel) (limit : Nat) : Except String Bytes × InputChannel :=
  match c.arrivals with
  | [] => (.ok [], c)
  | .failure reason :: rest => (.error reason, { c with arrivals := rest })
  | .data bytes :: rest =>
    let taken := bytes.take limit
    let kept := bytes.drop limit
    (.ok (if c.rawTerminal then enterToLineFeed taken else taken),
      { c with arrivals := if kept = [] then rest else .data kept :: rest })

def unread (c : InputChannel) : Nat :=
  c.arrivals.foldr (fun a n => a.size + n) 0

def receive (c : InputChannel) (arrival : Arrival) : InputChannel :=
  { c with arrivals := c.arrivals ++ [arrival] }

end InputChannel

/-- A channel that keeps what was written to it. Its attempts to write and to flush are counted, so
that it may fail, or take only a part, at any of them. -/
structure OutputChannel where
  handle : Int
  accept : (attempts taken offered : Nat) → Except String Nat := fun _ _ offered => .ok offered
  flush : (attempts : Nat) → Except String Unit := fun _ => .ok ()
  release : Except String Unit := .ok ()
  attempts : Nat := 0
  taken : Nat := 0
  /-- The bytes taken, the latest first. -/
  trail : Bytes := []

namespace OutputChannel

def written (c : OutputChannel) : Bytes :=
  c.trail.reverse

def keep (c : OutputChannel) (bytes : Bytes) : OutputChannel :=
  { c with taken := c.taken + bytes.length, trail := bytes.reverse ++ c.trail }

theorem written_keep (c : OutputChannel) (bytes : Bytes) :
    (c.keep bytes).written = c.written ++ bytes := by
  simp [written, keep]

def write : (fuel : Nat) → Bytes → OutputChannel → Except String Unit × OutputChannel
  | 0, _, c => (.ok (), c)
  | _, [], c => (.ok (), c)
  | fuel + 1, bytes, c =>
    let after := { c with attempts := c.attempts + 1 }
    match c.accept c.attempts c.taken bytes.length with
    | .error reason => (.error reason, after)
    | .ok 0 => (.error "failed to write whole buffer", after)
    | .ok count => write fuel (bytes.drop count) (after.keep (bytes.take count))

def send (c : OutputChannel) (bytes : Bytes) : Except String Unit × OutputChannel :=
  match write bytes.length bytes c with
  | (.error reason, c) => (.error reason, c)
  | (.ok (), c) => (c.flush c.attempts, { c with attempts := c.attempts + 1 })

def acceptWithin (limit burst : Option Nat) : (attempts taken offered : Nat) → Except String Nat :=
  fun _ taken offered =>
    let offered := min offered (burst.getD offered)
    match limit with
    | none => .ok offered
    | some limit => if limit ≤ taken then .error "write refused" else .ok (min offered (limit - taken))

end OutputChannel

end Vty
