import Vty.Proofs.Input.Stream
import Vty.Proofs.Session.Alike

namespace Vty

open Grammar (Node)

def InputChannel.gives (c : InputChannel) (limit : Nat) (arrivals : List Arrival) :
    Except String Bytes :=
  ({ c with arrivals }.read limit).1

theorem InputChannel.drained_read (c : InputChannel) (limit : Nat) :
    (c.read limit).2.drained = c.drained := by
  unfold read
  split <;> rfl

namespace Session

def offer (s : Session) (arrivals : List Arrival) : Session :=
  { s with input := s.input.map fun c => { c with arrivals } }

/-- With these arrivals the session reads these bytes, as long as it can read. -/
def Reads (s : Session) (offers : List (List Arrival)) (reads : List Bytes) : Prop :=
  ∀ c, s.input = some c → offers.map (c.gives s.chunk) = reads.map .ok

theorem alike_offer (s : Session) (arrivals : List Arrival) : Alike s (s.offer arrivals) :=
  ⟨s.queue, s.notices, _, by simp [Option.map_map]; rfl, rfl⟩

theorem Alike.chunk_eq {s t : Session} (h : Alike s t) : s.chunk = t.chunk := by
  obtain ⟨_, _, _, _, rfl⟩ := h
  rfl

theorem Alike.input_eq_some {s t : Session} (h : Alike s t) {c : InputChannel}
    (hc : s.input = some c) : ∃ c', t.input = some c' ∧ c'.drained = c.drained := by
  obtain ⟨_, _, input, hi, rfl⟩ := h
  simpa [hc] using hi

theorem Reads.alike {s t : Session} (h : Alike s t) {offers : List (List Arrival)}
    {reads : List Bytes} (hr : s.Reads offers reads) : t.Reads offers reads := by
  intro c hc
  obtain ⟨c', hc', hd⟩ := h.symm.input_eq_some hc
  have hg : c.drained.gives t.chunk = c'.drained.gives s.chunk := by rw [h.chunk_eq, hd]
  exact (congrArg (List.map · offers) hg).trans (hr c' hc')

theorem Reads.steps {s t : Session} (h : Steps s t) (ho : t.closed = false)
    {offers : List (List Arrival)} {reads : List Bytes} (hr : s.Reads offers reads) :
    t.Reads offers reads := by
  intro c hc
  rw [h.keeps.2.1]
  exact hr c ((h.keeps.2.2 ho).2 ▸ hc)

theorem Reads.cons {s : Session} {c : InputChannel} (hc : s.input = some c)
    {arrivals : List Arrival} {offers : List (List Arrival)} {reads : List Bytes}
    (hr : s.Reads (arrivals :: offers) reads) :
    ∃ bytes rest, reads = bytes :: rest ∧ c.gives s.chunk arrivals = .ok bytes ∧
      s.Reads offers rest := by
  have hm := hr c hc
  cases reads with
  | nil => simp at hm
  | cons bytes rest =>
    simp only [List.map_cons, List.cons.injEq] at hm
    refine ⟨bytes, rest, rfl, hm.1, fun c' hc' => ?_⟩
    obtain rfl : c = c' := Option.some.inj (hc.symm.trans hc')
    exact hm.2

end Session

namespace Interpreter

open Session (Alike)

variable {α σ H : Type} {i : Interpreter α σ}

/-- Reads once for each entry, when its arrivals are what waits on the input. -/
def deliver (i : Interpreter α σ) : List (List Arrival) → Session → σ → Session × σ
  | [], s, state => (s, state)
  | arrivals :: rest, s, state =>
    i.deliver rest (i.readable (s.offer arrivals) state).1
      (i.readable (s.offer arrivals) state).2

def handleAll (i : Interpreter α σ) : List Input.Event → Session → σ → Session × σ
  | [], s, state => (s, state)
  | event :: rest, s, state =>
    if s.closed then (s, state)
    else i.handleAll rest (i.handle event s state).1 (i.handle event s state).2

theorem handleAll_of_closed {s : Session} (hc : s.closed = true) (events : List Input.Event)
    (state : σ) : i.handleAll events s state = (s, state) := by
  cases events <;> simp [handleAll, hc]

theorem open_of_handleAll {events : List Input.Event} {s : Session} {state : σ}
    (h : (i.handleAll events s state).1.closed = false) : s.closed = false := by
  by_contra hc
  rw [Bool.not_eq_false] at hc
  rw [handleAll_of_closed hc, hc] at h
  cases h

theorem handleAll_append (before after : List Input.Event) (s : Session) (state : σ) :
    i.handleAll (before ++ after) s state =
      i.handleAll after (i.handleAll before s state).1 (i.handleAll before s state).2 := by
  induction before generalizing s state with
  | nil => rfl
  | cons event before ih =>
    simp only [List.cons_append, handleAll]
    split
    · rw [handleAll_of_closed ‹_›]
    · exact ih _ _

theorem steps_handleAll (ho : i.Outward) (events : List Input.Event) (s : Session) (state : σ) :
    Session.Steps s (i.handleAll events s state).1 := by
  induction events generalizing s state with
  | nil => exact .refl
  | cons event events ih =>
    simp only [handleAll]
    split
    · exact .refl
    · exact (steps_handle ho event s state).trans (ih _ _)

theorem drain_of_stuck {s : Session} (hs : Input.Stuck s.queue.pending) (fuel : Nat)
    (state : σ) : i.drain fuel s state = (s, state) := by
  cases fuel with
  | zero => rfl
  | succ fuel =>
    unfold drain
    split
    · rfl
    · cases hn : Input.scan s.queue.pending with
      | none => simp only [Input.Queue.next, hn, Option.map_none]
      | some found =>
        obtain ⟨decoded, count⟩ := found
        obtain rfl := hs decoded count hn
        simp only [Input.Queue.next, hn, Option.map_some]

theorem drain_event {s : Session} (ho : s.closed = false) {event : Input.Event} {count : Nat}
    (hs : Input.scan s.queue.pending = some (.event event, count)) (fuel : Nat) (state : σ) :
    i.drain (fuel + 1) s state =
      i.drain fuel (i.handle event { s with queue := s.queue.consume count } state).1
        (i.handle event { s with queue := s.queue.consume count } state).2 := by
  rw [drain, if_neg (Bool.eq_false_iff.mp ho)]
  simp only [Input.Queue.next, hs, Option.map_some]

theorem drain_skip {s : Session} (ho : s.closed = false) {decoded : Input.Decoded} {count : Nat}
    (hs : Input.scan s.queue.pending = some (decoded, count)) (hd : decoded ≠ .incomplete)
    (he : decoded.event? = none) (fuel : Nat) (state : σ) :
    i.drain (fuel + 1) s state =
      i.drain fuel { s with
        queue := s.queue.consume count, notices := s.notices ++ decoded.notice?.toList } state := by
  rw [drain, if_neg (Bool.eq_false_iff.mp ho)]
  simp only [Input.Queue.next, hs, Option.map_some]
  cases decoded with
  | incomplete => exact absurd rfl hd
  | event event => cases he
  | nul => rfl
  | escape first second => rfl

theorem drain_agree (ho : i.Outward) (hu : i.Uniform) (fuel : Nat) {s t : Session} (state : σ)
    (hf : s.queue.size ≤ fuel) (h : Alike s t) :
    Agree (i.drain fuel s state) (i.handleAll (Input.events s.queue.pending) t state) ∧
      ((i.drain fuel s state).1.closed = false →
        (i.drain fuel s state).1.queue.pending = Input.remainder s.queue.pending) := by
  induction fuel generalizing s t state with
  | zero =>
    have hp : s.queue.pending = [] := List.length_eq_zero_iff.mp (by
      rw [Input.Queue.length_pending]; omega)
    rw [hp]
    exact ⟨⟨h, rfl⟩, fun _ => hp⟩
  | succ fuel ih =>
    by_cases hs : Input.Stuck s.queue.pending
    · rw [drain_of_stuck hs, (Input.decode_of_stuck hs).1, (Input.decode_of_stuck hs).2]
      exact ⟨⟨h, rfl⟩, fun _ => rfl⟩
    by_cases hc : s.closed = true
    · rw [handleAll_of_closed (h.closed_eq ▸ hc), drain, if_pos hc, hc]
      refine ⟨⟨h, rfl⟩, ?_⟩
      rintro ⟨⟩
    rw [Bool.not_eq_true] at hc
    simp only [Input.Stuck, not_forall] at hs
    obtain ⟨decoded, count, hs, hi⟩ := hs
    have hd := Input.decode_of_scan hs hi
    have hp := (Input.scan_count hs).2.mpr hi
    have hl : (s.queue.consume count).size ≤ fuel := by
      rw [← Input.Queue.length_pending] at hf ⊢
      rw [Input.Queue.pending_consume, List.length_drop]
      omega
    have ha : Alike { s with queue := s.queue.consume count } t :=
      (Alike.queued s _).symm.trans h
    rw [hd.1, hd.2, ← Input.Queue.pending_consume]
    cases he : decoded.event? with
    | none =>
      rw [drain_skip hc hs hi he]
      exact ih state hl (ha.symm.trans (.noted _ _)).symm
    | some event =>
      obtain rfl : decoded = .event event := Input.Decoded.eq_of_event? he
      have hh := handle_agree hu ha event state
      have hk := (steps_handle ho event { s with queue := s.queue.consume count } state).keeps.1
      have hr := ih (i.handle event { s with queue := s.queue.consume count } state).2
        (by rw [hk]; exact hl) hh.1
      rw [hk] at hr
      rw [drain_event hc hs, Option.toList_some, List.singleton_append, handleAll,
        if_neg (Bool.eq_false_iff.mp (h.closed_eq ▸ hc)), ← hh.2]
      exact hr

theorem deliver_of_closed (offers : List (List Arrival)) {s : Session}
    (hc : s.closed = true ∨ s.input = none) (state : σ) :
    Agree (i.deliver offers s state) (s, state) ∧
      (i.deliver offers s state).1.queue = s.queue := by
  induction offers generalizing s with
  | nil => exact ⟨⟨.refl s, rfl⟩, rfl⟩
  | cons arrivals offers ih =>
    have ho : (s.offer arrivals).closed = true ∨ (s.offer arrivals).input = none := by
      simpa [Session.offer] using hc
    have hr : i.readable (s.offer arrivals) state = (s.offer arrivals, state) := by
      unfold readable
      rcases ho with ho | ho
      · rw [ho]
      · rw [ho]
        cases (s.offer arrivals).closed <;> rfl
    have ht := ih ho
    simp only [deliver, hr]
    exact ⟨⟨ht.1.1.trans (s.alike_offer arrivals).symm, ht.1.2⟩, ht.2⟩

theorem readable_agree (ho : i.Outward) (hu : i.Uniform) {s t : Session} (state : σ)
    (h : Alike s t) {c : InputChannel} (hin : s.input = some c) {arrivals : List Arrival}
    {bytes : Bytes} (hg : c.gives s.chunk arrivals = .ok bytes) (hb : bytes ≠ [])
    (hc : s.closed = false) :
    Agree (i.readable (s.offer arrivals) state)
      (i.handleAll (Input.events (s.queue.pending ++ bytes)) t state) ∧
      ((i.readable (s.offer arrivals) state).1.closed = false →
        (i.readable (s.offer arrivals) state).1.queue.pending =
          Input.remainder (s.queue.pending ++ bytes)) := by
  obtain ⟨rest, hr⟩ : ∃ rest, ({ c with arrivals }.read s.chunk) = (.ok bytes, rest) :=
    ⟨_, Prod.ext hg rfl⟩
  obtain ⟨b, bytes, rfl⟩ := List.exists_cons_of_ne_nil hb
  have hd := InputChannel.drained_read { c with arrivals } s.chunk
  rw [hr] at hd
  have hq : i.readable (s.offer arrivals) state =
      i.processInput { s with input := some rest, queue := s.queue.extend (b :: bytes) } state := by
    unfold readable
    simp only [Session.offer, hc, hin, Option.map_some, hr]
  have ha : Alike { s with input := some rest, queue := s.queue.extend (b :: bytes) } s :=
    ⟨s.queue, s.notices, s.input, by rw [hin]; exact congrArg some hd.symm, rfl⟩
  rw [hq, ← Input.Queue.pending_extend]
  exact drain_agree ho hu _ state (Nat.le_add_right _ _) (ha.trans h)

theorem closed_deliver (offers : List (List Arrival)) {s : Session} (hc : s.closed = true)
    (state : σ) : (i.deliver offers s state).1.closed = true :=
  (deliver_of_closed offers (.inl hc) state).1.1.closed_eq.trans hc

theorem open_of_deliver {offers : List (List Arrival)} {s : Session} {state : σ}
    (h : (i.deliver offers s state).1.closed = false) : s.closed = false := by
  by_contra hc
  rw [Bool.not_eq_false] at hc
  rw [closed_deliver offers hc] at h
  cases h

theorem readable_silent {s : Session} (hc : s.closed = false) {c : InputChannel}
    (hin : s.input = some c) {arrivals : List Arrival}
    (hg : ∀ bytes, c.gives s.chunk arrivals = .ok bytes → bytes = []) (state : σ) :
    (i.readable (s.offer arrivals) state).1.closed = true ∧
      (i.readable (s.offer arrivals) state).1.written = s.written ∧
      (i.readable (s.offer arrivals) state).2 = state := by
  have ho : (s.offer arrivals).input = some { c with arrivals } := congrArg (Option.map _) hin
  have hopen : (s.offer arrivals).closed = false := hc
  have hr : ({ c with arrivals }.read (s.offer arrivals).chunk).1 = c.gives s.chunk arrivals := rfl
  rw [readable_eq, Session.intake_of_open hopen ho, hr]
  match hm : c.gives s.chunk arrivals with
  | .ok (byte :: bytes) => cases hg _ hm
  | .ok [] => exact ⟨Session.closed_close _, Session.written_close _, rfl⟩
  | .error reason => exact ⟨Session.closed_close _, Session.written_close _, rfl⟩

theorem readable_reads (ho : i.Outward) (hu : i.Uniform) {s : Session} (state : σ)
    {c : InputChannel} (hin : s.input = some c) {arrivals : List Arrival} {bytes : Bytes}
    (hg : c.gives s.chunk arrivals = .ok bytes) (hb : bytes ≠ []) (hc : s.closed = false)
    (hopen : (i.readable (s.offer arrivals) state).1.closed = false)
    {offers : List (List Arrival)} {reads : List Bytes} (hr : s.Reads offers reads) :
    (i.readable (s.offer arrivals) state).1.Reads offers reads ∧
      (i.readable (s.offer arrivals) state).1.input.isSome := by
  have ha := (readable_agree ho hu state (.refl s) hin hg hb hc).1.1.symm
  have hk := steps_handleAll ho (Input.events (s.queue.pending ++ bytes)) s state
  have hu := ha.closed_eq.trans hopen
  obtain ⟨c', hc', -⟩ := ha.input_eq_some ((hk.keeps.2.2 hu).2.trans hin)
  exact ⟨(hr.steps hk hu).alike ha, Option.isSome_iff_exists.mpr ⟨c', hc'⟩⟩

theorem deliver_agree (ho : i.Outward) (hu : i.Uniform) {offers : List (List Arrival)}
    {reads : List Bytes} {s t : Session} (state : σ) (h : Alike s t) (hr : s.Reads offers reads)
    (hi : s.closed = false → s.input.isSome) (hb : [] ∉ reads)
    (hs : reads = [] → Input.Stuck s.queue.pending) :
    Agree (i.deliver offers s state)
      (i.handleAll (Input.events (s.queue.pending ++ reads.flatten)) t state) ∧
      ((i.deliver offers s state).1.closed = false →
        (i.deliver offers s state).1.queue.pending =
          Input.remainder (s.queue.pending ++ reads.flatten)) := by
  induction offers generalizing reads s t state with
  | nil =>
    by_cases hc : s.closed = true
    · rw [handleAll_of_closed (h.closed_eq ▸ hc), deliver, hc]
      exact ⟨⟨h, rfl⟩, nofun⟩
    obtain ⟨c, hin⟩ := Option.isSome_iff_exists.mp (hi (by simpa using hc))
    obtain rfl : reads = [] := by simpa using hr c hin
    have hd := Input.decode_of_stuck (hs rfl)
    rw [List.flatten_nil, List.append_nil, hd.1, hd.2]
    exact ⟨⟨h, rfl⟩, fun _ => rfl⟩
  | cons arrivals offers ih =>
    by_cases hc : s.closed = true
    · have hd := deliver_of_closed (i := i) (arrivals :: offers) (.inl hc) state
      rw [handleAll_of_closed (h.closed_eq ▸ hc), closed_deliver _ hc]
      exact ⟨hd.1.trans ⟨h, rfl⟩, nofun⟩
    have hopen : s.closed = false := by simpa using hc
    obtain ⟨c, hin⟩ := Option.isSome_iff_exists.mp (hi hopen)
    obtain ⟨bytes, reads, rfl, hg, hr⟩ := hr.cons hin
    rw [List.mem_cons, not_or] at hb
    have hd := readable_agree ho hu state h hin hg (Ne.symm hb.1) hopen
    have hcut := Input.decode_append (s.queue.pending ++ bytes) reads.flatten
    rw [List.flatten_cons, ← List.append_assoc, hcut.1, hcut.2, handleAll_append, ← hd.1.2, deliver]
    by_cases hc' : (i.readable (s.offer arrivals) state).1.closed = true
    · have hr := deliver_of_closed (i := i) offers (.inl hc')
        (i.readable (s.offer arrivals) state).2
      rw [handleAll_of_closed (hd.1.1.closed_eq ▸ hc'), closed_deliver _ hc']
      exact ⟨hr.1.trans ⟨hd.1.1, rfl⟩, nofun⟩
    · rw [Bool.not_eq_true] at hc'
      have hr' := readable_reads ho hu state hin hg (Ne.symm hb.1) hopen hc' hr
      rw [← hd.2 hc']
      refine ih _ hd.1.1 hr'.1 (fun _ => hr'.2) hb.2 fun _ => ?_
      rw [hd.2 hc']
      exact Input.stuck_remainder _

theorem deliver_agree_events (ho : i.Outward) (hu : i.Uniform) {offers : List (List Arrival)}
    {reads : List Bytes} {s : Session} (state : σ) (hi : s.input.isSome)
    (hq : s.queue.pending = []) (hr : s.Reads offers reads) (hb : [] ∉ reads) :
    Agree (i.deliver offers s state) (i.handleAll (Input.events reads.flatten) s state) := by
  have hs : Input.Stuck s.queue.pending := hq ▸ Input.stuck_nil
  have hd := (deliver_agree ho hu state (.refl s) hr (fun _ => hi) hb fun _ => hs).1
  rw [hq, List.nil_append] at hd
  exact hd

theorem nil_notMem_of_open (ho : i.Outward) (hu : i.Uniform) {offers : List (List Arrival)}
    {reads : List Bytes} {s : Session} (state : σ) (hr : s.Reads offers reads)
    (hi : s.input.isSome) (hopen : (i.deliver offers s state).1.closed = false) : [] ∉ reads := by
  induction offers generalizing reads s state with
  | nil =>
    obtain ⟨c, hin⟩ := Option.isSome_iff_exists.mp hi
    obtain rfl : reads = [] := by simpa using hr c hin
    exact List.not_mem_nil
  | cons arrivals offers ih =>
    obtain ⟨c, hin⟩ := Option.isSome_iff_exists.mp hi
    obtain ⟨bytes, reads, rfl, hg, hr⟩ := hr.cons hin
    have hc := open_of_deliver hopen
    rw [deliver] at hopen
    have hc' := open_of_deliver hopen
    have hb : bytes ≠ [] := by
      rintro rfl
      have hs := readable_silent (i := i) hc hin
        (fun bytes hm => (Except.ok.inj (hg.symm.trans hm)).symm) state
      exact absurd (hs.1.symm.trans hc') nofun
    have hr' := readable_reads ho hu state hin hg hb hc hc' hr
    rw [List.mem_cons, not_or]
    exact ⟨hb.symm, ih _ hr'.1 hr'.2 hopen⟩

theorem deliver_cut (ho : i.Outward) (hu : i.Uniform) (s : Session) (state : σ)
    {offers offers' : List (List Arrival)} {reads reads' : List Bytes}
    (hr : s.Reads offers reads) (hr' : s.Reads offers' reads') (hb : [] ∉ reads)
    (hb' : [] ∉ reads') (hf : reads.flatten = reads'.flatten) :
    Agree (i.deliver offers s state) (i.deliver offers' s state) ∧
      ((i.deliver offers s state).1.closed = false →
        (i.deliver offers s state).1.queue.pending =
          (i.deliver offers' s state).1.queue.pending) := by
  by_cases hc : s.closed = true ∨ s.input = none
  · have hd := deliver_of_closed (i := i) offers hc state
    have hd' := deliver_of_closed (i := i) offers' hc state
    exact ⟨hd.1.trans hd'.1.symm, fun _ => by rw [hd.2, hd'.2]⟩
  rw [not_or] at hc
  obtain ⟨c, hi⟩ := Option.ne_none_iff_exists'.mp hc.2
  have hsome : s.closed = false → s.input.isSome := fun _ => by rw [hi]; rfl
  have hnil {reads : List Bytes} (hb : [] ∉ reads) (h : reads.flatten = []) : reads = [] := by
    rw [List.flatten_eq_nil_iff] at h
    exact List.eq_nil_iff_forall_not_mem.mpr fun bytes hm => hb (h bytes hm ▸ hm)
  by_cases hn : reads = []
  · have hn' : reads' = [] := hnil hb' (by rw [← hf, hn, List.flatten_nil])
    subst hn hn'
    have ho : offers = [] := by simpa using hr c hi
    have ho' : offers' = [] := by simpa using hr' c hi
    rw [ho, ho']
    exact ⟨⟨.refl _, rfl⟩, fun _ => rfl⟩
  · have hn' : reads' ≠ [] := fun h => hn (hnil hb (by rw [hf, h, List.flatten_nil]))
    have hd := deliver_agree ho hu state (.refl s) hr hsome hb fun h => absurd h hn
    have hd' := deliver_agree ho hu state (.refl s) hr' hsome hb' fun h => absurd h hn'
    rw [← hf] at hd'
    have ha := hd.1.trans hd'.1.symm
    exact ⟨ha, fun hopen => (hd.2 hopen).trans (hd'.2 (ha.1.closed_eq.symm.trans hopen)).symm⟩

/-- How the bytes were cut into reads leaves no trace: not on the session, not on the handler, not
on the host and not in the output. -/
theorem deliver_flatten {grammar : Node (Action H)}
    (hg : grammar.Within fun request => request.reenters = false) (s : Session) (handler : H)
    {offers offers' : List (List Arrival)} {reads reads' : List Bytes}
    (hr : s.Reads offers reads) (hr' : s.Reads offers' reads') (hb : [] ∉ reads)
    (hb' : [] ∉ reads') (hf : reads.flatten = reads'.flatten) :
    let r := (ofGrammar grammar).deliver offers s handler
    let r' := (ofGrammar grammar).deliver offers' s handler
    r.1.closed = r'.1.closed ∧ r.1.editor = r'.1.editor ∧ r.1.negotiated = r'.1.negotiated ∧
      r.1.name = r'.1.name ∧ r.2 = r'.2 ∧ r.1.effects = r'.1.effects ∧
      r.1.written = r'.1.written ∧
      (r.1.closed = false → r.1.queue.pending = r'.1.queue.pending) := by
  have hd := deliver_cut (outward_ofGrammar hg) (uniform_ofGrammar hg) s handler hr hr' hb hb' hf
  obtain ⟨⟨⟨_, _, _, -, ha⟩, hh⟩, hq⟩ := hd
  dsimp only
  rw [ha] at hq ⊢
  exact ⟨rfl, rfl, rfl, rfl, hh, rfl, rfl, hq⟩

end Interpreter

namespace Daemon

def typed : Session :=
  .start 1 (.terminal { handle := 0 } { handle := 1 }) "rift"

def halves : List Bytes :=
  [[0x68, 0x0D], [0x0A, 0x78, 0x1B], [0x5B, 0x44]]

theorem deliver_flatten_halves :
    (grammar.Within fun request => request.reenters = false) ∧
      typed.Reads (halves.map fun bytes => [.data bytes]) halves ∧
      typed.Reads [[.data halves.flatten]] [halves.flatten] ∧
      [] ∉ halves ∧ [] ∉ [halves.flatten] ∧ halves.flatten = [halves.flatten].flatten ∧
      let i := Interpreter.ofGrammar grammar
      let r := i.deliver (halves.map fun bytes => [.data bytes]) typed {}
      let r' := i.deliver [[.data halves.flatten]] typed {}
      r.1.closed = r'.1.closed ∧ r.1.editor = r'.1.editor ∧ r.1.written = r'.1.written ∧
        r'.1.editor.buffer = [0x78] ∧ r'.1.editor.cursor = 0 := by
  have hg : grammar.Within fun request => request.reenters = false :=
    within_grammar (fun _ => rfl) (fun _ => rfl) rfl rfl
  have hr : typed.Reads (halves.map fun bytes => [.data bytes]) halves := by
    rintro c ⟨⟩
    rfl
  have hr' : typed.Reads [[.data halves.flatten]] [halves.flatten] := by
    rintro c ⟨⟩
    rfl
  have hb : [] ∉ halves := by decide
  have hb' : [] ∉ [halves.flatten] := by decide
  have hf := Interpreter.deliver_flatten hg typed {} hr hr' hb hb' rfl
  exact ⟨hg, hr, hr', hb, hb', rfl, hf.1, hf.2.1, hf.2.2.2.2.2.2.1, rfl, rfl⟩

end Daemon

end Vty
