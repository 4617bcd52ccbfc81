import Vty.Proofs.Editor.Alphabet
import Vty.Proofs.Session.Endurance
import Vty.Proofs.Session.Hushed
import Vty.Proofs.Session.Negotiation

namespace Vty

open Grammar (Node)

namespace Input

inductive Terminator where
  | lf
  | crLf
  | crNul
  deriving DecidableEq, Repr

def Terminator.bytes : Terminator → Bytes
  | .lf => [Input.lf]
  | .crLf => [cr, Input.lf]
  | .crNul => [cr, 0x00]

def stream (lines : List (Bytes × Terminator)) : Bytes :=
  lines.flatMap fun line => line.1 ++ line.2.bytes

def keys (lines : List Bytes) : List Event :=
  lines.flatMap fun line => line.map Event.insert ++ [.endOfLine]

variable {b : UInt8} {line : Bytes}

theorem decode_literal (h : Literal b) (rest : Bytes) :
    events (b :: rest) = .insert b :: events rest ∧ remainder (b :: rest) = remainder rest := by
  have hs : scan (b :: rest) = some (.event (.insert b), 1) := by
    simp only [scan, if_neg h.1, if_neg h.2.1, if_neg h.2.2.1, h.2.2.2]
  have hn : Decoded.event (.insert b) ≠ .incomplete := by simp
  exact decode_of_scan hs hn

theorem decode_terminator (terminator : Terminator) (rest : Bytes) :
    events (terminator.bytes ++ rest) = .endOfLine :: events rest ∧
      remainder (terminator.bytes ++ rest) = remainder rest := by
  cases terminator with
  | lf =>
    have hs : scan (lf :: rest) = some (.event .endOfLine, 1) := rfl
    exact decode_of_scan hs nofun
  | crLf =>
    have hs : scan (cr :: lf :: rest) = some (.event .endOfLine, 2) := rfl
    exact decode_of_scan hs nofun
  | crNul =>
    have hs : scan (cr :: 0x00 :: rest) = some (.event .endOfLine, 1) := rfl
    have hn : scan (0x00 :: rest) = some (.nul, 1) := rfl
    have hd := decode_of_scan hs nofun
    have hr := decode_of_scan hn nofun
    exact ⟨hd.1.trans (congrArg _ hr.1), hd.2.trans hr.2⟩

theorem decode_line (h : Bytes.Over Literal line) (terminator : Terminator) (rest : Bytes) :
    events (line ++ (terminator.bytes ++ rest)) =
        line.map Event.insert ++ .endOfLine :: events rest ∧
      remainder (line ++ (terminator.bytes ++ rest)) = remainder rest := by
  induction line with
  | nil => exact decode_terminator terminator rest
  | cons b line ih =>
    have hd := decode_literal (h b List.mem_cons_self) (line ++ (terminator.bytes ++ rest))
    have hl := ih fun c hc => h c (List.mem_cons_of_mem b hc)
    rw [List.cons_append, hd.1, hd.2, hl.1]
    exact ⟨rfl, hl.2⟩

theorem decode_stream {lines : List (Bytes × Terminator)}
    (h : ∀ line ∈ lines, Bytes.Over Literal line.1) :
    events (stream lines) = keys (lines.map Prod.fst) ∧ remainder (stream lines) = [] := by
  induction lines with
  | nil => exact decode_of_stuck stuck_nil
  | cons line lines ih =>
    rw [List.forall_mem_cons] at h
    have hl := decode_line h.1 line.2 (stream lines)
    have hs := ih h.2
    have hc : stream (line :: lines) = line.1 ++ (line.2.bytes ++ stream lines) := by
      simp [stream]
    rw [hc, hl.1, hl.2, hs.1, hs.2]
    simp [keys]

theorem heard_ok {reads : List Bytes} (h : [] ∉ reads) :
    heard (reads.map .ok) = reads.flatten := by
  induction reads with
  | nil => rfl
  | cons bytes reads ih =>
    rw [List.mem_cons, not_or] at h
    obtain ⟨b, bytes, rfl⟩ := List.exists_cons_of_ne_nil (Ne.symm h.1)
    rw [List.map_cons, heard, ih h.2, List.flatten_cons]

end Input

namespace Session

variable {s : Session}

theorem Reads.heard_eq {offers : List (List Arrival)} {reads : List Bytes}
    (h : s.Reads offers reads) (hi : s.input.isSome) (hb : [] ∉ reads) :
    s.heard offers = reads.flatten := by
  obtain ⟨c, hc⟩ := Option.isSome_iff_exists.mp hi
  simp only [heard, hc]
  rw [h c hc, Input.heard_ok hb]

def typed (s : Session) (line : Bytes) : Session :=
  line.foldl (fun s byte => s.edit (s.editor.insert byte)) s

theorem closed_typed (s : Session) (line : Bytes) : (s.typed line).closed = s.closed := by
  induction line generalizing s with
  | nil => rfl
  | cons byte line ih => exact ih _

end Session

namespace Interpreter

open Input (Terminator)

variable {α σ H : Type} {i : Interpreter α σ} {s : Session}

def enter (i : Interpreter α σ) (line : Bytes) (s : Session) (state : σ) : Session × σ :=
  i.completeLine (s.typed line) state

def enterAll (i : Interpreter α σ) : List Bytes → Session → σ → Session × σ
  | [], s, state => (s, state)
  | line :: rest, s, state =>
    i.enterAll rest (i.enter line s state).1 (i.enter line s state).2

theorem handleAll_typed (ho : s.closed = false) (line : Bytes) (state : σ) :
    i.handleAll (line.map .insert) s state = (s.typed line, state) := by
  induction line generalizing s with
  | nil => rfl
  | cons byte line ih =>
    rw [List.map_cons, handleAll, if_neg (Bool.eq_false_iff.mp ho)]
    exact ih ho

theorem completed_typed (ho : s.closed = false) (hb : s.editor.buffer.length ≤ s.editor.cursor)
    (line : Bytes) (state : σ) :
    i.completed (line.map .insert ++ [.endOfLine]) s state = [s.editor.buffer ++ line] := by
  induction line generalizing s with
  | nil => simp [completed, trace, ho]
  | cons byte line ih =>
    have he : (s.edit (s.editor.insert byte)).editor =
        { buffer := s.editor.buffer ++ [byte], cursor := s.editor.cursor + 1,
          history := s.editor.history.stopBrowsing } := by
      show (s.editor.insert byte).1 = _
      rw [Editor.insert, if_pos hb]
    have hd : (s.edit (s.editor.insert byte)).editor.buffer.length ≤
        (s.edit (s.editor.insert byte)).editor.cursor := by
      simpa [he] using hb
    have hc : (s.edit (s.editor.insert byte)).closed = false := ho
    have hr := ih hc hd
    rw [he, List.append_assoc, List.singleton_append] at hr
    rw [← hr, List.map_cons, List.cons_append, completed, trace, if_neg (Bool.eq_false_iff.mp ho),
      List.filter_cons_of_neg (by simp)]
    rfl

theorem handleAll_enter (ho : s.closed = false) (line : Bytes) (state : σ) :
    i.handleAll (line.map .insert ++ [.endOfLine]) s state = i.enter line s state := by
  have hc : (s.typed line).closed = false := (s.closed_typed line).trans ho
  rw [handleAll_append, handleAll_typed ho, handleAll, if_neg (Bool.eq_false_iff.mp hc)]
  rfl

theorem line_enter (hl : i.Keeps Session.line) (line : Bytes) (s : Session) (state : σ) :
    (i.enter line s state).1.line = ([], 0) := by
  unfold enter
  rw [completeLine_eq]
  calc _ = _ := Session.line_promptAgain _ _
    _ = _ := kept_answer Session.apart_line hl ..
    _ = _ := Session.line_entered _

theorem closed_enter (hc : i.Keeps Session.closed) (line : Bytes) (s : Session) (state : σ) :
    (i.enter line s state).1.closed = s.closed :=
  (closed_handle hc .endOfLine (s.typed line) state).trans (s.closed_typed line)

theorem handleAll_keys (hc : i.Keeps Session.closed) (hl : i.Keeps Session.line)
    (lines : List Bytes) (ho : s.closed = false) (hb : s.editor.buffer = []) (state : σ) :
    i.handleAll (Input.keys lines) s state = i.enterAll lines s state ∧
      i.completed (Input.keys lines) s state = lines ∧
      (i.enterAll lines s state).1.closed = false ∧
      (i.enterAll lines s state).1.editor.buffer = [] := by
  induction lines generalizing s state with
  | nil => exact ⟨rfl, rfl, ho, hb⟩
  | cons line lines ih =>
    have ho' := (closed_enter hc line s state).trans ho
    have hb' : (i.enter line s state).1.editor.buffer = [] :=
      congrArg Prod.fst (line_enter hl line s state)
    have hk : Input.keys (line :: lines) =
        line.map .insert ++ [.endOfLine] ++ Input.keys lines := List.flatMap_cons
    have hr := ih ho' hb' (i.enter line s state).2
    have hd : s.editor.buffer.length ≤ s.editor.cursor := by simp [hb]
    rw [hk, handleAll_append, completed_append, handleAll_enter ho, completed_typed ho hd, hb,
      List.nil_append, List.singleton_append, hr.2.1]
    exact ⟨hr.1, rfl, hr.2.2⟩

theorem deliver_stream (ho : i.Outward) (hu : i.Uniform) (hc : i.Keeps Session.closed)
    (hl : i.Keeps Session.line) (hopen : s.closed = false) (hi : s.input.isSome)
    (hq : s.queue.pending = []) (he : s.editor.buffer = []) (state : σ)
    {lines : List (Bytes × Terminator)} (hb : ∀ line ∈ lines, Bytes.Over Input.Literal line.1)
    {offers : List (List Arrival)} {reads : List Bytes} (hr : s.Reads offers reads)
    (hn : [] ∉ reads) (hf : reads.flatten = Input.stream lines) :
    let p := i.deliver offers s state
    Agree p (i.enterAll (lines.map Prod.fst) s state) ∧
      i.lines offers s state = lines.map Prod.fst ∧
      p.1.closed = false ∧ p.1.queue.pending = [] ∧ p.1.editor.buffer = [] := by
  intro p
  have hs : Input.Stuck s.queue.pending := hq ▸ Input.stuck_nil
  have hd := deliver_agree ho hu state (.refl s) hr (fun _ => hi) hn fun _ => hs
  have hk := handleAll_keys hc hl (lines.map Prod.fst) hopen he state
  have hw := Input.decode_stream hb
  rw [hq, List.nil_append, hf, hw.1, hw.2, hk.1] at hd
  have hopen' : p.1.closed = false := hd.1.1.closed_eq.trans hk.2.2.1
  refine ⟨hd.1, ?_, hopen', hd.2 hopen', ?_⟩
  · rw [Interpreter.lines, hr.heard_eq hi hn, hf, hw.1]
    exact hk.2.1
  · exact (congrArg (fun v : View => v.editor.buffer) hd.1.1.view_eq).trans hk.2.2.2

/-- Whatever ends the lines, and however they are cut into reads, each is completed once and in its
turn, and comes to what it comes to with any other ends. -/
theorem deliver_terminated {grammar : Node (Action H)}
    (hg : grammar.Within fun request => request.reenters = false)
    (hl : grammar.Within fun request => request.lasting = true) (hopen : s.closed = false)
    (hi : s.input.isSome) (hq : s.queue.pending = []) (he : s.editor.buffer = []) (handler : H)
    {lines : List (Bytes × Terminator)} (hb : ∀ line ∈ lines, Bytes.Over Input.Literal line.1)
    {offers : List (List Arrival)} {reads : List Bytes} (hr : s.Reads offers reads)
    (hn : [] ∉ reads) (hf : reads.flatten = Input.stream lines) :
    let i := (ofGrammar grammar).logged
    let p := i.deliver offers s (handler, [])
    (ofGrammar grammar).deliver offers s handler = (p.1, p.2.1) ∧
      i.lines offers s (handler, []) = lines.map Prod.fst ∧
      Agree p (i.enterAll (lines.map Prod.fst) s (handler, [])) ∧
      p.1.closed = false ∧ p.1.queue.pending = [] ∧ p.1.editor.buffer = [] ∧
      ∀ (lines' : List (Bytes × Terminator)) offers' reads',
        lines'.map Prod.fst = lines.map Prod.fst → s.Reads offers' reads' → [] ∉ reads' →
        reads'.flatten = Input.stream lines' →
        let q := i.deliver offers' s (handler, [])
        i.lines offers' s (handler, []) = lines.map Prod.fst ∧
          p.1.editor.history = q.1.editor.history ∧ p.1.view = q.1.view ∧ p.2 = q.2 ∧
          p.1.effects = q.1.effects ∧ p.1.written = q.1.written := by
  intro i p
  have hd {lines' : List (Bytes × Terminator)}
      (hb : ∀ line ∈ lines', Bytes.Over Input.Literal line.1) {offers : List (List Arrival)}
      {reads : List Bytes} (hr : s.Reads offers reads) (hn : [] ∉ reads)
      (hf : reads.flatten = Input.stream lines') :=
    deliver_stream (outward_logged (outward_ofGrammar hg)) (uniform_logged (uniform_ofGrammar hg))
      (keeps_logged (keeps_closed hl)) (keeps_logged (keeps_line hg)) hopen hi hq he (handler, [])
      hb hr hn hf
  obtain ⟨ha, hc, hrest⟩ := hd hb hr hn hf
  refine ⟨deliver_logged (thrifty_ofGrammar grammar) .., hc, ha, hrest.1, hrest.2.1, hrest.2.2, ?_⟩
  intro lines' offers' reads' hm hr' hn' hf' q
  have hb' : ∀ line ∈ lines', Bytes.Over Input.Literal line.1 := by
    intro line hline
    obtain ⟨other, ho, heq⟩ := List.mem_map.mp (hm ▸ List.mem_map_of_mem hline)
    rw [← heq]
    exact hb other ho
  obtain ⟨ha', hc', -⟩ := hd hb' hr' hn' hf'
  rw [hm] at ha' hc'
  have hpq : Agree p q := ha.trans ha'.symm
  exact ⟨hc', congrArg (fun v : View => v.editor.history) hpq.1.view_eq, hpq.1.view_eq, hpq.2,
    hpq.1.effects_eq, hpq.1.written_eq⟩

end Interpreter

instance : DecidablePred Input.Literal :=
  fun _ => inferInstanceAs (Decidable (_ ∧ _ ∧ _ ∧ _))

instance (P : UInt8 → Prop) [DecidablePred P] (bytes : Bytes) : Decidable (Bytes.Over P bytes) :=
  List.decidableBAll P bytes

namespace Script

theorem within_repeats {allowed : Request → Prop} (hp : ∀ message, allowed (.print message)) :
    repeats.Within allowed := by
  apply Node.within_ofList
  rw [List.forall_mem_singleton]
  exact within_action hp (by simp) _

def mixture : List (Bytes × Input.Terminator) :=
  [(Text.utf8 "ho", .crNul), ([], .lf), (Text.utf8 "x", .crLf), ([], .crNul), (Text.utf8 "b", .lf)]

def pieces : List Bytes :=
  [Text.utf8 "ho\r", [0x00, 0x0A], Text.utf8 "x\r", [0x0A, 0x0D], [0x00] ++ Text.utf8 "b\n"]

def plain : Bytes :=
  Text.utf8 "ho\n\nx\n\nb\n"

theorem deliver_terminated_mixture :
    (repeats.Within fun request => request.reenters = false) ∧
      (repeats.Within fun request => request.lasting = true) ∧
      Daemon.typed.closed = false ∧ Daemon.typed.input.isSome ∧
      Daemon.typed.queue.pending = [] ∧ Daemon.typed.editor.buffer = [] ∧
      (∀ line ∈ mixture, Bytes.Over Input.Literal line.1) ∧
      Daemon.typed.Reads (pieces.map fun bytes => [.data bytes]) pieces ∧ [] ∉ pieces ∧
      pieces.flatten = Input.stream mixture ∧
      let i := (Interpreter.ofGrammar repeats).logged
      let p := i.deliver (pieces.map fun bytes => [.data bytes]) Daemon.typed ({}, [])
      let q := i.deliver [[.data plain]] Daemon.typed ({}, [])
      i.lines (pieces.map fun bytes => [.data bytes]) Daemon.typed ({}, []) =
          [Text.utf8 "ho", [], Text.utf8 "x", [], Text.utf8 "b"] ∧
        p.1.editor.history = q.1.editor.history ∧ p.2 = q.2 ∧
        q.2.1.calls =
          [("repeat", [("word", "ho")]), ("repeat", [("word", "x")]), ("repeat", [("word", "b")])] := by
  have hg : repeats.Within fun request => request.reenters = false :=
    within_repeats fun _ => rfl
  have hl : repeats.Within fun request => request.lasting = true :=
    within_repeats fun _ => rfl
  have hb : ∀ line ∈ mixture, Bytes.Over Input.Literal line.1 := by decide +kernel
  have hr : Daemon.typed.Reads (pieces.map fun bytes => [.data bytes]) pieces := by
    rintro c ⟨⟩
    rfl
  have hr' : Daemon.typed.Reads [[.data plain]] [plain] := by
    rintro c ⟨⟩
    rfl
  have hn : [] ∉ pieces := by decide
  have hf : pieces.flatten = Input.stream mixture := by decide +kernel
  have hopen : Daemon.typed.closed = false := by decide +kernel
  have hq : Daemon.typed.queue.pending = [] := by decide +kernel
  have he : Daemon.typed.editor.buffer = [] := by decide +kernel
  obtain ⟨-, hc, -, -, -, -, hother⟩ :=
    Interpreter.deliver_terminated hg hl hopen rfl hq he ({} : Ledger) hb hr hn hf
  obtain ⟨-, hh, -, hs, -⟩ := hother (mixture.map fun line => (line.1, .lf)) _ [plain]
    (by decide +kernel) hr' (by decide) (by decide +kernel)
  exact ⟨hg, hl, hopen, rfl, hq, he, hb, hr, hn, hf, hc, hh, hs, by decide +kernel⟩

end Script

end Vty
