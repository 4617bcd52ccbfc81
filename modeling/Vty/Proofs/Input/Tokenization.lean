import Vty.Proofs.Input.Stream

namespace Vty.Input

structure Token where
  decoded : Decoded
  bytes : Bytes
  deriving DecidableEq, Repr

def Token.isWhole (token : Token) : Bool :=
  token.decoded ≠ .incomplete

/-- From the head of `bytes` on these tokens are found one after the other, up to bytes of which
nothing more can be decoded. -/
inductive Cut : (bytes : Bytes) → List Token → (left : Bytes) → Prop
  | stuck {bytes : Bytes} (h : Stuck bytes) : Cut bytes [] bytes
  | token {bytes left : Bytes} {decoded : Decoded} {count : Nat} {tokens : List Token}
      (h : scan bytes = some (decoded, count)) (hd : decoded ≠ .incomplete)
      (rest : Cut (bytes.drop count) tokens left) :
      Cut bytes (⟨decoded, bytes.take count⟩ :: tokens) left

theorem scan_count_le {bytes : Bytes} {decoded : Decoded} {count : Nat}
    (h : scan bytes = some (decoded, count)) : count ≤ 3 := by
  unfold scan at h
  grind

theorem Stuck.forms {bytes : Bytes} (h : Stuck bytes) :
    bytes ∈ [[], [cr], [esc], [Telnet.iac]] ∨ ∃ b, bytes = [esc, b] ∨ bytes = [Telnet.iac, b] := by
  cases bytes with
  | nil => simp
  | cons b rest =>
    obtain ⟨⟨decoded, count⟩, hs⟩ := Option.ne_none_iff_exists'.mp
      (scan_eq_none_iff.not.mpr (List.cons_ne_nil b rest))
    have hd := h _ _ hs
    simp only [scan, Option.some.injEq] at hs
    split_ifs at hs with hcr hiac hesc
    · cases rest <;> simp_all
    · rcases rest with _ | ⟨_, _ | ⟨_, rest⟩⟩ <;> simp_all
    · rcases rest with _ | ⟨first, _ | ⟨second, rest⟩⟩
      · simp [hesc]
      · simp [hesc]
      · exact absurd ((congrArg Prod.fst hs).trans hd) (Decoded.ofEscape_ne_incomplete first second)
    · exact absurd ((congrArg Prod.fst hs).trans hd) (Decoded.ofByte_ne_incomplete b)

namespace Cut

variable {a b left left' : Bytes} {tokens tokens' more : List Token}

theorem unique (h : Cut a tokens left) (h' : Cut a tokens' left') :
    tokens = tokens' ∧ left = left' := by
  induction h generalizing tokens' left' with
  | stuck hs =>
    cases h' with
    | stuck => exact ⟨rfl, rfl⟩
    | token h hd => exact absurd (hs _ _ h) hd
  | token h hd _ ih =>
    cases h' with
    | stuck hs => exact absurd (hs _ _ h) hd
    | token h' _ rest =>
      obtain ⟨rfl, rfl⟩ := Prod.mk.inj (Option.some.inj (h.symm.trans h'))
      obtain ⟨rfl, rfl⟩ := ih rest
      exact ⟨rfl, rfl⟩

theorem append (h : Cut a tokens left) (h' : Cut (left ++ b) more left') :
    Cut (a ++ b) (tokens ++ more) left' := by
  induction h with
  | stuck => exact h'
  | @token bytes left decoded count tokens h hd _ ih =>
    have hc := (scan_count h).1
    have hr := ih h'
    rw [← List.drop_append_of_le_length hc] at hr
    rw [List.cons_append, ← List.take_append_of_le_length hc]
    exact .token (scan_append h hd b) hd hr

theorem stuck_left (h : Cut a tokens left) : Stuck left := by
  induction h with
  | stuck hs => exact hs
  | token _ _ _ ih => exact ih

theorem flatMap_append (h : Cut a tokens left) : tokens.flatMap Token.bytes ++ left = a := by
  induction h with
  | stuck => rfl
  | @token bytes left decoded count tokens _ _ _ ih =>
    rw [List.flatMap_cons, List.append_assoc, ih]
    exact List.take_append_drop count bytes

theorem length_bytes (h : Cut a tokens left) {token : Token} (ht : token ∈ tokens) :
    1 ≤ token.bytes.length ∧ token.bytes.length ≤ 3 := by
  induction h with
  | stuck => cases ht
  | token h hd _ ih =>
    rcases List.mem_cons.mp ht with rfl | ht
    · obtain ⟨hl, hp⟩ := scan_count h
      rw [List.length_take_of_le hl]
      exact ⟨hp.mpr hd, scan_count_le h⟩
    · exact ih ht

end Cut

namespace Queue

def tokens (q : Queue) : List Token × Queue :=
  match h : q.next with
  | none => ([], q)
  | some (decoded, rest) =>
    let token : Token := ⟨decoded, q.pending.take (q.size - rest.size)⟩
    if hd : decoded = .incomplete then ([token], rest)
    else
      have := size_next_lt h hd
      (token :: rest.tokens.1, rest.tokens.2)
termination_by q.size

def feed (q : Queue) : List Bytes → List Token × Queue
  | [] => ([], q)
  | chunk :: chunks =>
    let first := (q.extend chunk).tokens
    let more := first.2.feed chunks
    (first.1 ++ more.1, more.2)

variable {q rest : Queue} {decoded : Decoded} {count : Nat}

theorem tokens_of_none (h : q.next = none) : q.tokens = ([], q) := by
  rw [tokens]
  split
  · rfl
  · rename_i hn
    cases h.symm.trans hn

theorem tokens_of_next (h : q.next = some (decoded, rest)) :
    q.tokens =
      (⟨decoded, q.pending.take (q.size - rest.size)⟩ ::
          if decoded = .incomplete then [] else rest.tokens.1,
        if decoded = .incomplete then rest else rest.tokens.2) := by
  rw [tokens]
  split
  · rename_i hn
    cases h.symm.trans hn
  · rename_i hn
    obtain ⟨rfl, rfl⟩ := Prod.mk.inj (Option.some.inj (h.symm.trans hn))
    split <;> simp_all

theorem decode_eq_tokens {limit : Nat} (h : q.size ≤ limit) :
    q.decode limit = (q.tokens.1.map Token.decoded, q.tokens.2) := by
  induction limit generalizing q with
  | zero =>
    have hp : q.pending = [] := List.length_eq_zero_iff.mp (by rw [length_pending]; omega)
    rw [decode, tokens_of_none (next_eq_none_iff.mpr hp)]
    rfl
  | succ limit ih =>
    cases hn : q.next with
    | none =>
      rw [decode, hn, tokens_of_none hn]
      rfl
    | some found =>
      obtain ⟨decoded, rest⟩ := found
      rw [decode, hn, tokens_of_next hn]
      by_cases hd : decoded = .incomplete
      · simp [hd]
      · have hl := size_next_lt hn hd
        have hr := ih (q := rest) (by omega)
        cases decoded <;> simp_all

theorem taken_consume (h : count ≤ q.pending.length) :
    q.size - (q.consume count).size = count := by
  rw [← length_pending, ← length_pending, pending_consume, List.length_drop]
  omega

theorem tokens_of_stuck (h : Stuck q.pending) :
    (∀ token ∈ q.tokens.1, token = ⟨.incomplete, []⟩) ∧ q.tokens.2.pending = q.pending := by
  cases hn : q.next with
  | none => simp [tokens_of_none hn]
  | some found =>
    obtain ⟨count, hs, hr⟩ := next_eq_some_iff.mp hn
    have hd := h _ _ hs
    have hc := scan_count hs
    have hz : count = 0 := by simpa [hd] using hc.2
    simp [tokens_of_next hn, hd, ← hr, hz, pending_consume, taken_consume]

theorem tokens_of_scan (h : scan q.pending = some (decoded, count)) (hd : decoded ≠ .incomplete) :
    q.tokens = (⟨decoded, q.pending.take count⟩ :: (q.consume count).tokens.1,
      (q.consume count).tokens.2) := by
  rw [tokens_of_next (next_eq_some_iff.mpr ⟨count, h, rfl⟩), taken_consume (scan_count h).1,
    if_neg hd, if_neg hd]

theorem cut_tokens (q : Queue) :
    Cut q.pending (q.tokens.1.filter Token.isWhole) q.tokens.2.pending := by
  induction hp : q.pending using stream_induct generalizing q with
  | stuck bytes hs =>
    subst hp
    obtain ⟨ht, hl⟩ := tokens_of_stuck hs
    have hf : q.tokens.1.filter Token.isWhole = [] := by
      rw [List.filter_eq_nil_iff]
      intro token hm
      rw [ht token hm]
      decide
    rw [hf, hl]
    exact .stuck hs
  | step bytes decoded count h hd ih =>
    subst hp
    have hr := ih (q.consume count) (pending_consume ..)
    rw [tokens_of_scan h hd, List.filter_cons_of_pos (by simpa [Token.isWhole] using hd)]
    exact .token h hd hr

theorem bytes_of_mem_tokens (q : Queue) {token : Token} (ht : token ∈ q.tokens.1)
    (hi : token.isWhole = false) : token.bytes = [] := by
  induction hp : q.pending using stream_induct generalizing q with
  | stuck bytes hs =>
    subst hp
    rw [(tokens_of_stuck hs).1 token ht]
  | step bytes decoded count h hd ih =>
    subst hp
    rw [tokens_of_scan h hd] at ht
    rcases List.mem_cons.mp ht with rfl | ht
    · simp [Token.isWhole, hd] at hi
    · exact ih (q.consume count) ht (pending_consume ..)

theorem cut_feed (q : Queue) (hs : Stuck q.pending) (chunks : List Bytes) :
    Cut (q.pending ++ chunks.flatten) ((q.feed chunks).1.filter Token.isWhole)
      (q.feed chunks).2.pending := by
  induction chunks generalizing q with
  | nil =>
    rw [List.flatten_nil, List.append_nil]
    exact .stuck hs
  | cons chunk chunks ih =>
    have hc := cut_tokens (q.extend chunk)
    rw [pending_extend] at hc
    rw [List.flatten_cons, ← List.append_assoc, feed, List.filter_append]
    exact hc.append (ih _ hc.stuck_left)

theorem bytes_of_mem_feed (q : Queue) (chunks : List Bytes) {token : Token}
    (ht : token ∈ (q.feed chunks).1) (hi : token.isWhole = false) : token.bytes = [] := by
  induction chunks generalizing q with
  | nil => cases ht
  | cons chunk chunks ih =>
    rcases List.mem_append.mp ht with ht | ht
    · exact bytes_of_mem_tokens _ ht hi
    · exact ih _ ht

end Queue

theorem flatMap_filter_isWhole {tokens : List Token}
    (h : ∀ token ∈ tokens, token.isWhole = false → token.bytes = []) :
    (tokens.filter Token.isWhole).flatMap Token.bytes = tokens.flatMap Token.bytes := by
  induction tokens with
  | nil => rfl
  | cons token tokens ih =>
    rw [List.forall_mem_cons] at h
    rw [List.flatMap_cons, ← ih h.2]
    cases hw : token.isWhole with
    | true => rw [List.filter_cons_of_pos hw, List.flatMap_cons]
    | false =>
      rw [List.filter_cons_of_neg (by simp [hw]), h.1 hw]
      rfl

/-- However the input is cut into chunks, decoding loses nothing of it and finds the same. -/
theorem Queue.feed_flatten (chunks : List Bytes) :
    let fed := Queue.empty.feed chunks
    let whole := Queue.empty.feed [chunks.flatten]
    (∀ token ∈ fed.1,
        if token.decoded = .incomplete then token.bytes = []
        else token.bytes.length ∈ [1, 2, 3]) ∧
      fed.1.flatMap Token.bytes ++ fed.2.pending = chunks.flatten ∧
      (fed.2.pending ∈ [[], [cr], [esc], [Telnet.iac]] ∨
        ∃ b, fed.2.pending = [esc, b] ∨ fed.2.pending = [Telnet.iac, b]) ∧
      fed.1.filter Token.isWhole = whole.1.filter Token.isWhole ∧
      fed.2.pending = whole.2.pending := by
  intro fed whole
  have hs : Stuck Queue.empty.pending := by simp [Stuck, Queue.empty, pending_ofBytes, scan]
  have hf : Cut chunks.flatten (fed.1.filter Token.isWhole) fed.2.pending :=
    cut_feed .empty hs chunks
  have hw : Cut [chunks.flatten].flatten (whole.1.filter Token.isWhole) whole.2.pending :=
    cut_feed .empty hs [chunks.flatten]
  have hi : ∀ token ∈ fed.1, token.isWhole = false → token.bytes = [] :=
    fun token ht => bytes_of_mem_feed .empty chunks ht
  refine ⟨fun token ht => ?_, ?_, hf.stuck_left.forms, ?_⟩
  · split_ifs with hd
    · exact hi token ht (by simp [Token.isWhole, hd])
    · have hw : token.isWhole = true := by simpa [Token.isWhole] using hd
      have hl := hf.length_bytes (List.mem_filter.mpr ⟨ht, hw⟩)
      simp only [List.mem_cons, List.not_mem_nil, or_false]
      omega
  · rw [← flatMap_filter_isWhole hi]
    exact hf.flatMap_append
  · rw [List.flatten_singleton] at hw
    exact hf.unique hw

end Vty.Input
