import Vty.Host
import Vty.Proofs.Session.Attendance
import Vty.Proofs.Table

namespace Vty

structure Session.Unread (s t : Session) : Prop where
  closed : t.closed = true
  queue : t.queue = s.queue
  input : ∃ arrivals, t.input = s.input.map fun c => { c with arrivals := c.arrivals ++ arrivals }

namespace Session.Unread

variable {s t u : Session}

theorem refl (h : s.closed = true) : s.Unread s :=
  ⟨h, rfl, [], by simp⟩

theorem trans (h : s.Unread t) (h' : t.Unread u) : s.Unread u := by
  obtain ⟨arrivals, hi⟩ := h.input
  obtain ⟨more, hi'⟩ := h'.input
  refine ⟨h'.closed, h'.queue.trans h.queue, arrivals ++ more, ?_⟩
  rw [hi', hi, Option.map_map]
  simp only [Function.comp_def, List.append_assoc]

end Session.Unread

/-- What time may make of a session: one that has closed is left unread or forgotten, and no other
is forgotten. -/
def Session.Passes : Option Session → Option Session → Prop
  | none, after => after = none
  | some s, none => s.closed = true
  | some s, some t => s.closed = true → s.Unread t

theorem Session.Passes.refl : (found : Option Session) → Passes found found
  | none => rfl
  | some _ => Unread.refl

theorem Session.passes_insert {sessions : Table Nat Session} {other : Nat} {s t : Session}
    (hf : Table.find? other sessions = some s) (h : s.closed = true → s.Unread t) (id : Nat) :
    Passes (Table.find? id sessions) (Table.find? id (Table.insert other t sessions)) := by
  rw [Table.find?_insert]
  split
  · rename_i hx
    rw [hx, hf]
    exact h
  · exact .refl _

namespace Host

open Session (Effect)

inductive Turn where
  | connect (endpoint : Endpoint)
  | receive (id : Nat) (arrival : Arrival)
  | serve (id : Nat)
  | sweep
  | flush

def take (h : Host) : Turn → Host
  | .connect endpoint => h.connect endpoint
  | .receive id arrival => h.receive id arrival
  | .serve id => h.serve id
  | .sweep => h.sweep
  | .flush => h.flush.2

def play (h : Host) (turns : List Turn) : Host :=
  turns.foldl take h

structure Sound (h : Host) : Prop where
  sorted : h.sessions.Sorted
  known : h.daemon.sessions.Sorted
  waiting : h.registry.handlers.Sorted
  mem_known (id : Nat) : id ∈ h.daemon.sessions.keys ↔ id ∈ h.sessions.keys
  mem_waiting (id : Nat) : id ∈ h.registry.handlers.keys ↔
    ∃ s, Table.find? id h.sessions = some s ∧ s.closed = false
  own {id s} (hf : Table.find? id h.sessions = some s) : s.id = id ∧ s.effects = []
  fresh {id} (hm : id ∈ h.sessions.keys) : id ≤ h.registry.lastId

variable {h : Host} {id : Nat} {s t : Session}

theorem foldl_apply_aside {effects : List Effect} (ha : ∀ effect ∈ effects, effect.Aside)
    (h : Host) : ∃ quit, effects.foldl apply h = { h with quit } := by
  induction effects generalizing h with
  | nil => exact ⟨h.quit, rfl⟩
  | cons effect effects ih =>
    rw [List.forall_mem_cons] at ha
    obtain ⟨quit, he⟩ := ih ha.2 (h.apply effect)
    rw [List.foldl_cons, he]
    cases effect with
    | registered => exact ha.1.elim
    | unregistered => exact ha.1.elim
    | _ => exact ⟨quit, rfl⟩

theorem connect_eq (h : Host) (e : Endpoint) :
    ∃ s, s.id = h.registry.lastId + 1 ∧ s.closed = false ∧ s.effects = [] ∧
      s.input = some e.input ∧
      h.connect e =
        { h with
          registry :=
            { handlers := Table.insert (h.registry.lastId + 1) e.input.handle h.registry.handlers
              lastId := h.registry.lastId + 1 }
          sessions := Table.insert (h.registry.lastId + 1) s h.sessions
          daemon := h.daemon.sessionOpened (h.registry.lastId + 1) s.connection s.peer } := by
  obtain ⟨_, _, -, hs⟩ :=
    Session.start_eq (h.registry.lastId + 1) e h.config.name h.config.session
  refine ⟨{ Session.start (h.registry.lastId + 1) e h.config.name h.config.session with
    effects := [] }, ?_⟩
  unfold connect Poll.Registry.allocate
  dsimp only
  rw [hs]
  exact ⟨rfl, rfl, rfl, rfl, rfl⟩

theorem serve_of_none (hf : Table.find? id h.sessions = none) : h.serve id = h := by
  unfold serve
  rw [hf]

theorem serve_of_closed (hf : Table.find? id h.sessions = some s) (hi : s.id = id)
    (he : s.effects = []) (hc : s.closed = true) :
    h.serve id = { h with sessions := Table.insert id s h.sessions } := by
  subst hi
  have hs : { s with effects := [] } = s := by rw [← he]
  unfold serve
  rw [hf]
  dsimp only
  rw [Interpreter.readable_of_closed hc, update, he, List.foldl_nil, hs]

theorem readable_daemon (s : Session) (d : Daemon) : (interpreter.readable s d).2 = d :=
  (Interpreter.readable_attended (Daemon.ends_grammar (· = d)) s rfl).2.1

theorem serve_of_open (hf : Table.find? id h.sessions = some s) (hi : s.id = id)
    (he : s.effects = []) (ho : s.closed = false) :
    ∃ t quit, t.id = id ∧ t.effects = [] ∧
      h.serve id =
        { h with
          registry := if t.closed then h.registry.unregister id else h.registry
          sessions := Table.insert id t h.sessions
          quit } := by
  subst hi
  have hs := Interpreter.changes_readable Daemon.grammar s h.daemon
  have hi := hs.id_eq
  have hd := readable_daemon s h.daemon
  have ht := hs.effects ho
  unfold serve
  rw [hf]
  dsimp only
  rw [hd]
  unfold interpreter
  generalize ((Interpreter.ofGrammar Daemon.grammar).readable s h.daemon).1 = t at hi ht ⊢
  refine ⟨{ t with effects := [] }, ?_⟩
  unfold update
  cases hc : t.closed with
  | false =>
    refine ⟨h.quit, hi, rfl, ?_⟩
    rw [ht.1 hc, he, hi]
    rfl
  | true =>
    obtain ⟨rest, hr, ha⟩ := ht.2 hc
    obtain ⟨quit, hq⟩ := foldl_apply_aside ha (h.apply (.unregistered s.id))
    refine ⟨quit, hi, rfl, ?_⟩
    rw [hr, he, List.nil_append, List.foldl_cons, hq, hi]
    rfl

theorem receive_of_some (hf : Table.find? id h.sessions = some s) (arrival : Arrival) :
    h.receive id arrival =
      { h with sessions := Table.insert id (s.receive arrival) h.sessions } := by
  unfold receive
  rw [hf]

theorem receive_of_none (hf : Table.find? id h.sessions = none) (arrival : Arrival) :
    h.receive id arrival = h := by
  unfold receive
  rw [hf]

theorem sessions_foldl_sessionClosed (ids : List Nat) (d : Daemon) :
    (ids.foldl Daemon.sessionClosed d).sessions =
      d.sessions.filter fun entry => entry.1 ∉ ids := by
  induction ids generalizing d with
  | nil => simp
  | cons id ids ih =>
    rw [List.foldl_cons, ih, Daemon.sessionClosed, Table.erase, List.filter_filter]
    apply List.filter_congr
    intro entry _
    simp [Bool.and_comm]

theorem find?_flush (h : Host) (id : Nat) :
    Table.find? id h.flush.2.sessions = (Table.find? id h.sessions).map Session.flushed :=
  Table.find?_map Session.flushed

namespace Sound

theorem find?_sweep (hs : h.Sound) (id : Nat) :
    Table.find? id h.sweep.sessions = (Table.find? id h.sessions).filter fun s => !s.closed :=
  Table.find?_filter hs.sorted.nodup fun s => !s.closed

theorem mem_closed (hs : h.Sound) :
    id ∈ (h.sessions.filter fun entry => entry.2.closed).map Prod.fst ↔
      ∃ s, Table.find? id h.sessions = some s ∧ s.closed = true := by
  simp [Table.find?_eq_some_iff hs.sorted.nodup]

theorem init (config : Config) : Sound { config } where
  sorted := .nil
  known := .nil
  waiting := .nil
  mem_known _ := Iff.rfl
  mem_waiting _ := by simp [Table.keys, Table.find?]
  own := nofun
  fresh hm := by cases hm

theorem connect (hs : h.Sound) (e : Endpoint) : (h.connect e).Sound := by
  obtain ⟨s, hi, ho, he, -, hc⟩ := connect_eq h e
  have hn : h.registry.lastId + 1 ∉ h.sessions.keys := by
    intro hm
    have hl := hs.fresh hm
    omega
  rw [hc]
  constructor
  · exact Table.sorted_insert hs.sorted _ _
  · exact Table.sorted_insert hs.known _ _
  · exact Table.sorted_insert hs.waiting _ _
  · intro id
    dsimp only [Daemon.sessionOpened]
    rw [Table.mem_keys_insert, Table.mem_keys_insert, hs.mem_known]
  · intro id
    rw [Table.mem_keys_insert, Table.find?_insert, hs.mem_waiting]
    by_cases hx : id = h.registry.lastId + 1
    · simp [hx, ho]
    · simp [hx]
  · intro id t hf
    rw [Table.find?_insert] at hf
    split at hf
    · rename_i hx
      obtain rfl := Option.some.inj hf
      exact ⟨hi.trans hx.symm, he⟩
    · exact hs.own hf
  · intro id hm
    rw [Table.mem_keys_insert] at hm
    rcases hm with rfl | hm
    · exact Nat.le_refl _
    · exact Nat.le_succ_of_le (hs.fresh hm)

theorem replace (hs : h.Sound) (hf : Table.find? id h.sessions = some s)
    (ht : t.id = id ∧ t.effects = []) (hc : t.closed = false → s.closed = false)
    {handlers : Table Nat Int} (hw : handlers.Sorted)
    (hk : ∀ other, other ∈ handlers.keys ↔
      other ∈ h.registry.handlers.keys ∧ (other = id → t.closed = false)) (quit : Bool) :
    Sound
      { h with
        registry := { h.registry with handlers }
        sessions := Table.insert id t h.sessions
        quit } := by
  have hm : id ∈ h.sessions.keys := Table.mem_keys_iff_find?.mpr ⟨s, hf⟩
  have hi (other : Nat) :
      other ∈ (Table.insert id t h.sessions).keys ↔ other ∈ h.sessions.keys := by
    rw [Table.mem_keys_insert, or_iff_right_iff_imp]
    rintro rfl
    exact hm
  constructor
  · exact Table.sorted_insert hs.sorted _ _
  · exact hs.known
  · exact hw
  · intro other
    exact (hs.mem_known other).trans (hi other).symm
  · intro other
    dsimp only
    rw [hk, hs.mem_waiting, Table.find?_insert]
    by_cases hx : other = id
    · subst hx
      simp only [hf, if_true, Option.some.injEq, exists_eq_left', forall_const]
      exact ⟨And.right, fun ho => ⟨hc ho, ho⟩⟩
    · simp [hx]
  · intro other u hu
    rw [Table.find?_insert] at hu
    split at hu
    · rename_i hx
      obtain rfl := Option.some.inj hu
      exact ⟨ht.1.trans hx.symm, ht.2⟩
    · exact hs.own hu
  · intro other hm
    exact hs.fresh ((hi other).mp hm)

theorem refresh (hs : h.Sound) (hf : Table.find? id h.sessions = some s)
    (ht : t.id = id ∧ t.effects = []) (hc : t.closed = s.closed) :
    Sound { h with sessions := Table.insert id t h.sessions } := by
  refine hs.replace hf ht hc.symm.trans hs.waiting (fun other => ?_) h.quit
  refine ⟨fun hm => ⟨hm, ?_⟩, And.left⟩
  rintro rfl
  obtain ⟨s', hf', ho⟩ := (hs.mem_waiting other).mp hm
  obtain rfl := Option.some.inj (hf.symm.trans hf')
  exact hc.trans ho

theorem receive (hs : h.Sound) (id : Nat) (arrival : Arrival) : (h.receive id arrival).Sound := by
  cases hf : Table.find? id h.sessions with
  | none =>
    rw [receive_of_none hf]
    exact hs
  | some s =>
    rw [receive_of_some hf]
    exact hs.refresh hf (hs.own hf : s.id = id ∧ s.effects = []) rfl

theorem serve (hs : h.Sound) (id : Nat) : (h.serve id).Sound := by
  cases hf : Table.find? id h.sessions with
  | none =>
    rw [serve_of_none hf]
    exact hs
  | some s =>
    obtain ⟨hi, he⟩ := hs.own hf
    cases hc : s.closed with
    | true =>
      rw [serve_of_closed hf hi he hc]
      exact hs.refresh hf ⟨hi, he⟩ rfl
    | false =>
      obtain ⟨t, quit, hi, he, ht⟩ := serve_of_open hf hi he hc
      rw [ht]
      cases hz : t.closed with
      | false =>
        refine hs.replace hf ⟨hi, he⟩ (fun _ => hc) hs.waiting (fun other => ?_) quit
        rw [hz]
        simp
      | true =>
        have hw : (Table.erase id h.registry.handlers).Sorted :=
          hs.waiting.sublist List.filter_sublist
        refine hs.replace hf ⟨hi, he⟩ (fun _ => hc) hw (fun other => ?_) quit
        rw [hz, Table.mem_keys_erase, and_comm]
        simp

theorem sweep (hs : h.Sound) : h.sweep.Sound := by
  have hk (id : Nat) : id ∈ h.sweep.sessions.keys ↔
      ∃ s, Table.find? id h.sessions = some s ∧ s.closed = false := by
    rw [Table.mem_keys_iff_find?]
    simp [hs.find?_sweep, Option.filter_eq_some_iff]
  constructor
  · exact hs.sorted.sublist List.filter_sublist
  · unfold Host.sweep
    dsimp only
    rw [sessions_foldl_sessionClosed]
    exact hs.known.sublist List.filter_sublist
  · exact hs.waiting
  · intro id
    rw [hk]
    unfold Host.sweep
    dsimp only
    rw [sessions_foldl_sessionClosed, Table.keys_filter _ (fun id => decide (id ∉ _)),
      List.mem_filter, hs.mem_known, decide_eq_true_iff, hs.mem_closed, Table.mem_keys_iff_find?]
    constructor
    · rintro ⟨⟨s, hf⟩, hn⟩
      exact ⟨s, hf, Bool.eq_false_iff.mpr fun hc => hn ⟨s, hf, hc⟩⟩
    · rintro ⟨s, hf, ho⟩
      refine ⟨⟨s, hf⟩, ?_⟩
      rintro ⟨t, ht, hc⟩
      obtain rfl := Option.some.inj (hf.symm.trans ht)
      exact absurd (ho.symm.trans hc) Bool.false_ne_true
  · intro id
    rw [hs.find?_sweep]
    refine (hs.mem_waiting id).trans ?_
    simp [Option.filter_eq_some_iff]
  · intro id s hf
    rw [hs.find?_sweep, Option.filter_eq_some_iff] at hf
    exact hs.own hf.1
  · intro id hm
    obtain ⟨s, hf, -⟩ := (hk id).mp hm
    exact hs.fresh (Table.mem_keys_iff_find?.mpr ⟨s, hf⟩)

theorem flush (hs : h.Sound) : h.flush.2.Sound := by
  have hk : h.flush.2.sessions.keys = h.sessions.keys := by
    simp [Host.flush, Table.keys]
  constructor
  · unfold Table.Sorted
    rw [hk]
    exact hs.sorted
  · exact hs.known
  · exact hs.waiting
  · intro id
    rw [hk]
    exact hs.mem_known id
  · intro id
    rw [find?_flush]
    refine (hs.mem_waiting id).trans ?_
    simp [Session.flushed]
  · intro id s hs'
    rw [find?_flush, Option.map_eq_some_iff] at hs'
    obtain ⟨t, ht, rfl⟩ := hs'
    exact (hs.own ht : t.id = id ∧ t.effects = [])
  · intro id hm
    rw [hk] at hm
    exact hs.fresh hm

theorem take (hs : h.Sound) (turn : Turn) : (h.take turn).Sound := by
  cases turn with
  | connect endpoint => exact hs.connect endpoint
  | receive id arrival => exact hs.receive id arrival
  | serve id => exact hs.serve id
  | sweep => exact hs.sweep
  | flush => exact hs.flush

theorem play (hs : h.Sound) (turns : List Turn) : (h.play turns).Sound := by
  induction turns generalizing h with
  | nil => exact hs
  | cons turn turns ih => exact ih (hs.take turn)

theorem fate (hs : h.Sound) (turn : Turn) (id : Nat) :
    (∃ e t, turn = .connect e ∧ id = h.registry.lastId + 1 ∧
      Table.find? id (h.take turn).sessions = some t ∧ t.closed = false) ∨
    Session.Passes (Table.find? id h.sessions) (Table.find? id (h.take turn).sessions) := by
  cases turn with
  | connect e =>
    obtain ⟨t, -, ho, -, -, hc⟩ := connect_eq h e
    simp only [Host.take, hc, Table.find?_insert]
    split
    · rename_i hx
      exact .inl ⟨e, t, rfl, hx, rfl, ho⟩
    · exact .inr (.refl _)
  | receive other arrival =>
    right
    cases hf : Table.find? other h.sessions with
    | none =>
      rw [Host.take, receive_of_none hf]
      exact .refl _
    | some s =>
      rw [Host.take, receive_of_some hf]
      have hu (hc : s.closed = true) : s.Unread (s.receive arrival) := ⟨hc, rfl, [arrival], rfl⟩
      exact Session.passes_insert hf hu id
  | serve other =>
    right
    cases hf : Table.find? other h.sessions with
    | none =>
      rw [Host.take, serve_of_none hf]
      exact .refl _
    | some s =>
      obtain ⟨hi, he⟩ := hs.own hf
      cases hc : s.closed with
      | true =>
        rw [Host.take, serve_of_closed hf hi he hc]
        exact Session.passes_insert hf .refl id
      | false =>
        obtain ⟨t, quit, -, -, ht⟩ := serve_of_open hf hi he hc
        rw [Host.take, ht]
        exact Session.passes_insert hf (fun hn => absurd (hc.symm.trans hn) Bool.false_ne_true) id
  | sweep =>
    right
    rw [Host.take, hs.find?_sweep]
    cases Table.find? id h.sessions with
    | none => rfl
    | some s =>
      rw [Option.filter_some]
      split
      · exact .refl (some s)
      · rename_i hc
        rw [Bool.not_eq_true', Bool.not_eq_false] at hc
        exact hc
  | flush =>
    right
    rw [Host.take, find?_flush]
    cases Table.find? id h.sessions with
    | none => rfl
    | some s => exact fun hc => ⟨hc, rfl, (Session.Unread.refl hc).input⟩

end Sound

end Host

end Vty
