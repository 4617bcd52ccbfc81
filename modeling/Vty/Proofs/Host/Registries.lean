import Vty.Console
import Vty.Proofs.Host.Turns

namespace Vty.Host

/-- What the daemon does between waits: it accepts a connection, or serves the sessions that are
said to be ready and forgets those that have closed. Meanwhile input arrives. -/
inductive Move where
  | connect (endpoint : Endpoint)
  | receive (id : Nat) (arrival : Arrival)
  | dispatch (ready : List Nat)

def Move.turns : Move → List Turn
  | .connect endpoint => [.connect endpoint]
  | .receive id arrival => [.receive id arrival]
  | .dispatch ready => ready.map .serve ++ [.sweep]

def act (h : Host) : Move → Host
  | .connect endpoint => h.connect endpoint
  | .receive id arrival => h.receive id arrival
  | .dispatch ready => h.dispatch ready

def Opened (h : Host) (turns : List Turn) (id : Nat) : Prop :=
  ∃ before endpoint, before ++ [.connect endpoint] <+: turns ∧
    id = (h.play before).registry.lastId + 1

def Ended (h : Host) (turns : List Turn) (id : Nat) : Prop :=
  ∃ before s, before <+: turns ∧ Table.find? id (h.play before).sessions = some s ∧
    s.closed = true

variable {h : Host} {turns : List Turn} {turn : Turn} {id : Nat} {s t : Session}

theorem play_append (h : Host) (before after : List Turn) :
    h.play (before ++ after) = (h.play before).play after :=
  List.foldl_append

theorem play_concat (h : Host) (turns : List Turn) (turn : Turn) :
    h.play (turns ++ [turn]) = (h.play turns).take turn :=
  play_append h turns [turn]

theorem play_turns (h : Host) (move : Move) : h.play move.turns = h.act move := by
  cases move with
  | dispatch ready =>
    rw [Move.turns, play_append]
    exact congrArg sweep List.foldl_map
  | _ => rfl

theorem play_moves (h : Host) (moves : List Move) :
    h.play (moves.flatMap Move.turns) = moves.foldl act h := by
  induction moves generalizing h with
  | nil => rfl
  | cons move moves ih =>
    rw [List.flatMap_cons, play_append, play_turns, ih]
    rfl

theorem opened_concat : h.Opened (turns ++ [turn]) id ↔
    h.Opened turns id ∨
      ∃ e, turn = .connect e ∧ id = (h.play turns).registry.lastId + 1 := by
  constructor
  · rintro ⟨before, e, hp, rfl⟩
    rcases List.prefix_concat_iff.mp hp with he | hp
    · obtain ⟨rfl, ht⟩ := List.append_inj' he rfl
      obtain rfl := List.singleton_inj.mp ht
      exact .inr ⟨e, rfl, rfl⟩
    · exact .inl ⟨before, e, hp, rfl⟩
  · rintro (⟨before, e, hp, rfl⟩ | ⟨e, rfl, rfl⟩)
    · exact ⟨before, e, hp.trans (List.prefix_append ..), rfl⟩
    · exact ⟨turns, e, List.prefix_rfl, rfl⟩

theorem ended_concat : h.Ended (turns ++ [turn]) id ↔
    h.Ended turns id ∨
      ∃ s, Table.find? id ((h.play turns).take turn).sessions = some s ∧ s.closed = true := by
  constructor
  · rintro ⟨before, s, hp, hf, hc⟩
    rcases List.prefix_concat_iff.mp hp with rfl | hp
    · rw [play_concat] at hf
      exact .inr ⟨s, hf, hc⟩
    · exact .inl ⟨before, s, hp, hf, hc⟩
  · rintro (⟨before, s, hp, hf, hc⟩ | ⟨s, hf, hc⟩)
    · exact ⟨before, s, hp.trans (List.prefix_append ..), hf, hc⟩
    · rw [← play_concat] at hf
      exact ⟨_, s, List.prefix_rfl, hf, hc⟩

theorem connect_find? (h : Host) (e : Endpoint) :
    (h.connect e).registry.lastId = h.registry.lastId + 1 ∧
      ∃ s, Table.find? (h.registry.lastId + 1) (h.connect e).sessions = some s ∧
        s.id = h.registry.lastId + 1 ∧ s.closed = false ∧ s.input = some e.input := by
  obtain ⟨s, hi, ho, -, hin, hc⟩ := connect_eq h e
  rw [hc]
  refine ⟨rfl, s, ?_, hi, ho, hin⟩
  rw [Table.find?_insert, if_pos rfl]

namespace Sound

theorem lastId_le_take (hs : h.Sound) (turn : Turn) :
    h.registry.lastId ≤ (h.take turn).registry.lastId := by
  cases turn with
  | connect e =>
    rw [Host.take, (connect_find? h e).1]
    exact Nat.le_succ _
  | receive id arrival =>
    rw [Host.take]
    unfold Host.receive
    split <;> exact Nat.le_refl _
  | serve id =>
    rw [Host.take]
    cases hf : Table.find? id h.sessions with
    | none => rw [serve_of_none hf]
    | some s =>
      obtain ⟨hi, he⟩ := hs.own hf
      cases hc : s.closed with
      | true => rw [serve_of_closed hf hi he hc]
      | false =>
        obtain ⟨t, quit, -, -, ht⟩ := serve_of_open hf hi he hc
        rw [ht]
        dsimp only
        split <;> exact Nat.le_refl _
  | sweep => exact Nat.le_refl _
  | flush => exact Nat.le_refl _

theorem absent_play (hs : h.Sound) (hf : Table.find? id h.sessions = none)
    (hl : id ≤ h.registry.lastId) (turns : List Turn) :
    Table.find? id (h.play turns).sessions = none := by
  induction turns generalizing h with
  | nil => exact hf
  | cons turn turns ih =>
    refine ih (hs.take turn) ?_ (hl.trans (hs.lastId_le_take turn))
    rcases hs.fate turn id with ⟨e, t, rfl, hi, -⟩ | hp
    · omega
    · rw [hf] at hp
      exact hp

theorem unread_play (hs : h.Sound) (hf : Table.find? id h.sessions = some s)
    (hc : s.closed = true) {turns : List Turn}
    (ht : Table.find? id (h.play turns).sessions = some t) : s.Unread t := by
  induction turns generalizing h s with
  | nil =>
    obtain rfl := Option.some.inj (hf.symm.trans ht)
    exact .refl hc
  | cons turn turns ih =>
    have hl := hs.fresh (Table.mem_keys_iff_find?.mpr ⟨s, hf⟩)
    rcases hs.fate turn id with ⟨e, t, rfl, hi, -⟩ | hp
    · omega
    · rw [hf] at hp
      cases hn : Table.find? id (h.take turn).sessions with
      | none =>
        have hz := (hs.take turn).absent_play hn (hl.trans (hs.lastId_le_take turn)) turns
        exact absurd (hz.symm.trans ht) nofun
      | some u =>
        rw [hn] at hp
        have hu : s.Unread u := hp hc
        exact hu.trans (ih (hs.take turn) hn hu.closed ht)

end Sound

structure Accounted (h : Host) (turns : List Turn) : Prop where
  le {id : Nat} (ho : h.Opened turns id) : id ≤ (h.play turns).registry.lastId
  opened {id : Nat} {s : Session} (hf : Table.find? id (h.play turns).sessions = some s) :
    h.Opened turns id
  begun {id : Nat} (he : h.Ended turns id) : h.Opened turns id
  ended {id : Nat} {s : Session} (hf : Table.find? id (h.play turns).sessions = some s)
    (he : h.Ended turns id) : s.closed = true
  present {id : Nat} (ho : h.Opened turns id) (hn : ¬h.Ended turns id) :
    ∃ s, Table.find? id (h.play turns).sessions = some s

namespace Accounted

theorem nil (hs : h.sessions = []) : h.Accounted [] := by
  have hf (id : Nat) : Table.find? id (h.play []).sessions = none := by
    unfold play
    rw [List.foldl_nil, hs]
    rfl
  have ho (id : Nat) : ¬h.Opened [] id := by
    rintro ⟨before, e, hp, -⟩
    simp at hp
  constructor
  · intro id h
    exact absurd h (ho id)
  · intro id s h
    exact absurd ((hf id).symm.trans h) nofun
  · rintro id ⟨before, s, hp, h, -⟩
    obtain rfl := List.prefix_nil.mp hp
    exact absurd ((hf id).symm.trans h) nofun
  · intro id s h
    exact absurd ((hf id).symm.trans h) nofun
  · intro id h
    exact absurd h (ho id)

theorem concat (hs : h.Sound) (ha : h.Accounted turns) (turn : Turn) :
    h.Accounted (turns ++ [turn]) := by
  have hg := hs.play turns
  have hopened {id : Nat} {s : Session}
      (hf : Table.find? id ((h.play turns).take turn).sessions = some s) :
      h.Opened (turns ++ [turn]) id := by
    apply opened_concat.mpr
    rcases hg.fate turn id with ⟨e, -, rfl, hi, -⟩ | hp
    · exact .inr ⟨e, rfl, hi⟩
    · rw [hf] at hp
      cases hu : Table.find? id (h.play turns).sessions with
      | none =>
        rw [hu] at hp
        cases hp
      | some u => exact .inl (ha.opened hu)
  constructor
  · intro id ho
    rw [play_concat]
    rcases opened_concat.mp ho with ho | ⟨e, rfl, rfl⟩
    · exact (ha.le ho).trans (hg.lastId_le_take turn)
    · exact (connect_find? (h.play turns) e).1.ge
  · intro id s hf
    rw [play_concat] at hf
    exact hopened hf
  · intro id he
    rcases ended_concat.mp he with he | ⟨s, hf, -⟩
    · exact opened_concat.mpr (.inl (ha.begun he))
    · exact hopened hf
  · intro id s hf he
    rw [play_concat] at hf
    rcases ended_concat.mp he with hb | ⟨t, ht, hc⟩
    · rcases hg.fate turn id with ⟨e, t, rfl, hi, -⟩ | hp
      · have hl := ha.le (ha.begun hb)
        omega
      · rw [hf] at hp
        cases hu : Table.find? id (h.play turns).sessions with
        | none =>
          rw [hu] at hp
          cases hp
        | some u =>
          rw [hu] at hp
          have hr : u.Unread s := hp (ha.ended hu hb)
          exact hr.closed
    · obtain rfl := Option.some.inj (hf.symm.trans ht)
      exact hc
  · intro id ho hn
    rw [play_concat]
    rw [ended_concat, not_or] at hn
    rcases opened_concat.mp ho with ho | ⟨e, rfl, rfl⟩
    · obtain ⟨u, hu⟩ := ha.present ho hn.1
      have hc : ¬u.closed = true := fun hc => hn.1 ⟨turns, u, List.prefix_rfl, hu, hc⟩
      rcases hg.fate turn id with ⟨e, t, rfl, -, ht, -⟩ | hp
      · exact ⟨t, ht⟩
      · rw [hu] at hp
        cases ht : Table.find? id ((h.play turns).take turn).sessions with
        | none =>
          rw [ht] at hp
          exact absurd hp hc
        | some t => exact ⟨t, rfl⟩
    · obtain ⟨-, t, ht, -⟩ := connect_find? (h.play turns) e
      exact ⟨t, ht⟩

theorem play (hs : h.Sound) (he : h.sessions = []) (turns : List Turn) : h.Accounted turns := by
  induction turns using List.reverseRecOn with
  | nil => exact nil he
  | append_singleton turns turn ih => exact concat hs ih turn

end Accounted

def Swept (h : Host) : Prop :=
  ∀ id s, Table.find? id h.sessions = some s → s.closed = false

theorem Swept.act (hs : h.Sound) (hw : h.Swept) (move : Move) : (h.act move).Swept := by
  cases move with
  | connect e =>
    obtain ⟨t, -, ho, -, -, hc⟩ := connect_eq h e
    intro id s hf
    simp only [Host.act, hc, Table.find?_insert] at hf
    split at hf
    · rw [← Option.some.inj hf, ho]
    · exact hw id s hf
  | receive other arrival =>
    intro id s hf
    cases ht : Table.find? other h.sessions with
    | none =>
      rw [Host.act, receive_of_none ht] at hf
      exact hw id s hf
    | some t =>
      simp only [Host.act, receive_of_some ht, Table.find?_insert] at hf
      split at hf
      · obtain rfl := Option.some.inj hf
        exact hw other t ht
      · exact hw id s hf
  | dispatch ready =>
    have hp := hs.play (ready.map .serve)
    rw [Host.play, List.foldl_map] at hp
    intro id s hf
    have hf := (hp.find?_sweep id).symm.trans hf
    rw [Option.filter_eq_some_iff] at hf
    simpa using hf.2

theorem Swept.moves (hs : h.Sound) (hw : h.Swept) (moves : List Move) :
    (moves.foldl Host.act h).Swept := by
  induction moves generalizing h with
  | nil => exact hw
  | cons move moves ih =>
    have ha : (h.act move).Sound := by
      rw [← play_turns]
      exact hs.play move.turns
    exact ih ha (hw.act hs move)

/-- Between rounds the three tables have the identifiers of the sessions that have been opened and
have not ended. None is given out twice, no closed session is read from, and actions run for
sessions that are listed. -/
theorem registries_agree (config : Config) (moves : List Move) :
    let start : Host := { config }
    let turns := moves.flatMap Move.turns
    let h := moves.foldl act start
    h = start.play turns ∧
    (h.daemon.sessions.keys = h.sessions.keys ∧ h.registry.handlers.keys = h.sessions.keys ∧
      ∀ id, id ∈ h.sessions.keys ↔ start.Opened turns id ∧ ¬start.Ended turns id) ∧
    (∀ endpoint,
      let id := h.registry.lastId + 1
      ¬start.Opened turns id ∧
        ∃ s, Table.find? id (h.connect endpoint).sessions = some s ∧ s.id = id ∧
          s.closed = false ∧ s.input = some endpoint.input) ∧
    (∀ before after id s t, Table.find? id (start.play before).sessions = some s →
      s.closed = true → Table.find? id (start.play (before ++ after)).sessions = some t →
        s.Unread t) ∧
    ∀ before id s, Table.find? id (start.play before).sessions = some s →
      let d := (start.play before).daemon
      let p := interpreter.attended.readable s (d, [])
      (p.1, p.2.1) = interpreter.readable s d ∧
        ∀ call ∈ p.2.2, call.1 = id ∧ call.1 ∈ call.2.sessions.keys := by
  intro start turns h
  have hs : start.Sound := .init config
  have hh : start.play turns = h := play_moves start moves
  have ha : start.Accounted turns := .play hs rfl turns
  have hg := hh ▸ hs.play turns
  have hw : h.Swept := Swept.moves hs (by rintro id s ⟨⟩) moves
  refine ⟨hh.symm, ⟨?_, ?_, ?_⟩, ?_, ?_, ?_⟩
  · exact hg.known.keys_eq hg.sorted hg.mem_known
  · apply hg.waiting.keys_eq hg.sorted
    intro id
    rw [hg.mem_waiting, Table.mem_keys_iff_find?]
    exact ⟨fun ⟨s, hf, _⟩ => ⟨s, hf⟩, fun ⟨s, hf⟩ => ⟨s, hf, hw id s hf⟩⟩
  · intro id
    rw [Table.mem_keys_iff_find?]
    constructor
    · rintro ⟨s, hf⟩
      rw [← hh] at hf
      refine ⟨ha.opened hf, fun he => ?_⟩
      exact absurd ((hw id s (hh ▸ hf)).symm.trans (ha.ended hf he)) Bool.false_ne_true
    · rintro ⟨ho, hn⟩
      rw [← hh]
      exact ha.present ho hn
  · intro e id
    refine ⟨fun ho => ?_, (connect_find? h e).2⟩
    have hl := ha.le ho
    rw [hh] at hl
    exact Nat.not_succ_le_self _ hl
  · intro before after id s t hf hc ht
    rw [play_append] at ht
    exact (hs.play before).unread_play hf hc ht
  · intro before id s hf d p
    have hb := hs.play before
    have hm : id ∈ d.sessions.keys :=
      (hb.mem_known id).mpr (Table.mem_keys_iff_find?.mpr ⟨s, hf⟩)
    have hg := Daemon.ends_grammar fun d => id ∈ d.sessions.keys
    obtain ⟨hp, -, hc⟩ := Interpreter.readable_attended hg s hm
    refine ⟨hp, ?_⟩
    intro call hcall
    obtain ⟨hi, hk⟩ := hc call hcall
    rw [(hb.own hf).1] at hi
    rw [hi]
    exact ⟨rfl, hk⟩

def passerby : Endpoint where
  connection := .network
  input := { handle := 6 }
  output := { handle := 6 }
  peer := "10.0.0.8:4000"

def visits : List Move :=
  [.connect Console.endpoint, .connect Daemon.leaver,
    .receive 1 (.data (Text.utf8 "show sessions\n")), .dispatch [9, 2, 1, 2], .connect passerby,
    .receive 2 (.data [0x3F]), .dispatch [2, 3, 3]]

def serving : Host :=
  play { config := {} } ((visits.flatMap Move.turns).take 5)

theorem registries_agree_visits :
    (visits.foldl act { config := {} }).sessions.keys = [1] ∧
      (visits.foldl act { config := {} }).daemon.sessions.keys = [1] ∧
      (visits.foldl act { config := {} }).registry.handlers.keys = [1] ∧
      Opened { config := {} } (visits.flatMap Move.turns) 2 ∧
      Ended { config := {} } (visits.flatMap Move.turns) 2 ∧
      (Table.find? 1 serving.sessions).map (fun s =>
        (interpreter.attended.readable s (serving.daemon, [])).2.2.map fun call =>
          (call.1, call.2.sessions.keys)) = some [(1, [1, 2])] := by
  obtain ⟨-, ⟨hd, hr, hk⟩, -⟩ := registries_agree {} visits
  have hs : (visits.foldl act { config := {} }).sessions.keys = [1] := by decide +kernel
  have ho : Opened { config := {} } (visits.flatMap Move.turns) 2 :=
    ⟨[.connect Console.endpoint], Daemon.leaver, ⟨_, rfl⟩, rfl⟩
  refine ⟨hs, hd.trans hs, hr.trans hs, ho, ?_, by decide +kernel⟩
  by_contra hn
  have hm := (hk 2).mpr ⟨ho, hn⟩
  rw [hs] at hm
  exact absurd hm (by decide)

end Vty.Host
