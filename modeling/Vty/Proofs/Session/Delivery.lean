import Vty.Proofs.Session.Reading

namespace Vty

def Input.heard : List (Except String Bytes) → Bytes
  | .ok (byte :: bytes) :: rest => byte :: bytes ++ heard rest
  | _ => []

namespace Session

variable {s t : Session}

def heard (s : Session) (offers : List (List Arrival)) : Bytes :=
  match s.input with
  | some c => Input.heard (offers.map (c.gives s.chunk))
  | none => []

theorem Alike.heard_eq (h : Alike s t) (offers : List (List Arrival)) :
    s.heard offers = t.heard offers := by
  obtain ⟨_, _, input, hi, rfl⟩ := h
  cases hs : s.input with
  | none =>
    rw [hs, Option.map_none, Option.map_eq_none_iff] at hi
    simp only [heard, hs, hi]
  | some c =>
    rw [hs, Option.map_some, Option.map_eq_some_iff] at hi
    obtain ⟨c', rfl, hd⟩ := hi
    have hg : c.drained.gives s.chunk = c'.drained.gives s.chunk := by rw [hd]
    simp only [heard, hs]
    exact congrArg (fun gives => Input.heard (offers.map gives)) hg

theorem Steps.heard_eq (h : Steps s t) (ho : t.closed = false) (offers : List (List Arrival)) :
    t.heard offers = s.heard offers := by
  obtain ⟨-, hc, hi⟩ := h.keeps
  simp only [heard, hc, (hi ho).2]

theorem heard_cons {c : InputChannel} (hin : s.input = some c) {arrivals : List Arrival}
    {byte : UInt8} {bytes : Bytes} (hg : c.gives s.chunk arrivals = .ok (byte :: bytes))
    (offers : List (List Arrival)) :
    s.heard (arrivals :: offers) = byte :: bytes ++ s.heard offers := by
  simp only [heard, hin, List.map_cons, hg, Input.heard]

theorem exists_reads (hi : s.input.isSome) (offers : List (List Arrival)) :
    ∃ front back reads, offers = front ++ back ∧ s.Reads front reads ∧ [] ∉ reads ∧
      reads.flatten = s.heard offers ∧ s.heard back = [] := by
  obtain ⟨c, hin⟩ := Option.isSome_iff_exists.mp hi
  -- the first read that gives nothing leaves all the rest to `back`
  have hz {offers : List (List Arrival)} (hh : s.heard offers = []) :
      ∃ front back reads, offers = front ++ back ∧ s.Reads front reads ∧ [] ∉ reads ∧
        reads.flatten = s.heard offers ∧ s.heard back = [] :=
    ⟨[], offers, [], rfl, fun _ _ => rfl, List.not_mem_nil, hh.symm, hh⟩
  induction offers with
  | nil => exact hz (by simp only [heard, hin, List.map_nil, Input.heard])
  | cons arrivals offers ih =>
    match hg : c.gives s.chunk arrivals with
    | .ok (byte :: bytes) =>
      obtain ⟨front, back, reads, rfl, hr, hb, hf, hs⟩ := ih
      refine ⟨arrivals :: front, back, (byte :: bytes) :: reads, rfl, ?_, ?_, ?_, hs⟩
      · intro c' hc'
        obtain rfl : c = c' := Option.some.inj (hin.symm.trans hc')
        rw [List.map_cons, List.map_cons, hg, hr c hin]
      · rw [List.mem_cons, not_or]
        exact ⟨nofun, hb⟩
      · rw [List.flatten_cons, hf, heard_cons hin hg]
    | .ok [] => exact hz (by simp only [heard, hin, List.map_cons, hg, Input.heard])
    | .error reason => exact hz (by simp only [heard, hin, List.map_cons, hg, Input.heard])

end Session

namespace Interpreter

open Session (Alike)

variable {α σ : Type} {i : Interpreter α σ} {s t : Session}

theorem deliver_append (front back : List (List Arrival)) (s : Session) (state : σ) :
    i.deliver (front ++ back) s state =
      i.deliver back (i.deliver front s state).1 (i.deliver front s state).2 := by
  induction front generalizing s state with
  | nil => rfl
  | cons arrivals front ih => exact ih _ _

theorem deliver_silent {offers : List (List Arrival)} (hh : s.closed = false → s.heard offers = [])
    (state : σ) :
    (i.deliver offers s state).1.written = s.written ∧ (i.deliver offers s state).2 = state := by
  have hd {s : Session} (hc : s.closed = true ∨ s.input = none) (offers : List (List Arrival)) :
      (i.deliver offers s state).1.written = s.written ∧ (i.deliver offers s state).2 = state :=
    have ha := (deliver_of_closed (i := i) offers hc state).1
    ⟨ha.1.written_eq, ha.2⟩
  by_cases hc : s.closed = true ∨ s.input = none
  · exact hd hc offers
  rw [not_or, Bool.not_eq_true] at hc
  obtain ⟨c, hin⟩ := Option.ne_none_iff_exists'.mp hc.2
  cases offers with
  | nil => exact ⟨rfl, rfl⟩
  | cons arrivals offers =>
    have hg : ∀ bytes, c.gives s.chunk arrivals = .ok bytes → bytes = [] := by
      rintro (_ | ⟨byte, bytes⟩) hg
      · rfl
      · rw [Session.heard_cons hin hg] at hh
        cases hh hc.1
    obtain ⟨hclosed, hw, hs⟩ := readable_silent (i := i) hc.1 hin hg state
    have hr := hd (.inl hclosed) offers
    rw [deliver, hs]
    exact ⟨hr.1.trans hw, hr.2⟩

/-- What comes of the input is what comes of the events of all that was read, but that its end
closes the session. -/
theorem deliver_heard (ho : i.Outward) (hu : i.Uniform) (hi : s.input.isSome)
    (hs : Input.Stuck s.queue.pending) (offers : List (List Arrival)) (state : σ) :
    let r := i.handleAll (Input.events (s.queue.pending ++ s.heard offers)) s state
    (i.deliver offers s state).1.written = r.1.written ∧ (i.deliver offers s state).2 = r.2 := by
  obtain ⟨front, back, reads, rfl, hr, hb, hf, hn⟩ := Session.exists_reads hi offers
  obtain ⟨ha, hd⟩ := (deliver_agree ho hu state (.refl s) hr (fun _ => hi) hb fun _ => hs).1
  have hk := steps_handleAll ho (Input.events (s.queue.pending ++ reads.flatten)) s state
  -- unless `front` has closed the session, it reads from the same channel as before
  have hq : (i.deliver front s state).1.closed = false →
      (i.deliver front s state).1.heard back = [] := by
    intro hopen
    rw [ha.heard_eq, hk.heard_eq (ha.closed_eq.symm.trans hopen), hn]
  have hq := deliver_silent (i := i) hq (i.deliver front s state).2
  rw [deliver_append, ← hf]
  exact ⟨hq.1.trans ha.written_eq, hq.2.trans hd⟩

end Interpreter

end Vty
