import Vty.Channel
import Vty.Proofs.Input.Tokenization
import Mathlib.Data.List.Forall2

namespace Vty.Input

def Turned (b turned : UInt8) : Prop :=
  turned = b ∨ b = cr ∧ turned = lf

inductive Event.Turned : Event → Event → Prop
  | same (found : Event) : Turned found found
  | telnet {verb verb' option option' : UInt8} (hv : Input.Turned verb verb')
      (ho : Input.Turned option option') :
      Turned (.telnet (.ofCode verb) option) (.telnet (.ofCode verb') option')

theorem getElem?_enterToLineFeed (bytes : Bytes) (i : Nat) :
    (enterToLineFeed bytes)[i]? =
      bytes[i]?.map fun b => if b = cr ∧ bytes[i + 1]? ≠ some lf then lf else b := by
  induction bytes generalizing i with
  | nil => rfl
  | cons b rest ih =>
    cases i with
    | zero => simp [enterToLineFeed, List.head?_eq_getElem?, cr, lf]
    | succ i => simpa [enterToLineFeed] using ih i

theorem drop_enterToLineFeed (bytes : Bytes) (count : Nat) :
    enterToLineFeed (bytes.drop count) = (enterToLineFeed bytes).drop count := by
  induction bytes generalizing count with
  | nil => simp [enterToLineFeed]
  | cons b rest ih =>
    cases count with
    | zero => rfl
    | succ count => exact ih count

theorem enterToLineFeed_cons (b : UInt8) (rest : Bytes) :
    ∃ turned, Turned b turned ∧ enterToLineFeed (b :: rest) = turned :: enterToLineFeed rest := by
  refine ⟨_, ?_, rfl⟩
  split
  · exact .inr ⟨And.left ‹_›, rfl⟩
  · exact .inl rfl

theorem enterToLineFeed_of_ne {b : UInt8} (h : b ≠ cr) (rest : Bytes) :
    enterToLineFeed (b :: rest) = b :: enterToLineFeed rest := by
  rw [enterToLineFeed, if_neg fun hb => h hb.1]

theorem forall₂_enterToLineFeed (bytes : Bytes) :
    List.Forall₂ Turned bytes (enterToLineFeed bytes) := by
  induction bytes with
  | nil => exact .nil
  | cons b rest ih =>
    obtain ⟨turned, ht, he⟩ := enterToLineFeed_cons b rest
    rw [he]
    exact .cons ht ih

theorem cr_enterToLineFeed (bytes : Bytes) (i : Nat) (h : (enterToLineFeed bytes)[i]? = some cr) :
    (enterToLineFeed bytes)[i + 1]? = some lf := by
  rw [getElem?_enterToLineFeed, Option.map_eq_some_iff] at h
  obtain ⟨b, -, hb⟩ := h
  split at hb
  · exact absurd hb (by decide)
  · subst hb
    have hn : bytes[i + 1]? = some lf := by simp_all
    rw [getElem?_enterToLineFeed, hn]
    rfl

theorem Turned.ofEscape {first first' second second' : UInt8} (hf : Turned first first')
    (hs : Turned second second') :
    (Decoded.ofEscape first second).event? = (Decoded.ofEscape first' second').event? := by
  rcases hf with rfl | ⟨rfl, rfl⟩
  · rcases hs with rfl | ⟨rfl, rfl⟩
    · rfl
    · unfold Decoded.ofEscape
      split <;> rfl
  · rfl

theorem Head.exists_turned {bytes : Bytes} {decoded : Decoded} {count : Nat}
    (h : Head bytes decoded count) :
    ∃ turned, Head (enterToLineFeed bytes) turned count ∧
      List.Forall₂ Event.Turned decoded.event?.toList turned.event?.toList := by
  cases h with
  | enter next rest =>
    by_cases hn : next = lf
    · subst hn
      exact ⟨_, .enter lf _, .cons (.same _) .nil⟩
    · have he : enterToLineFeed (cr :: next :: rest) =
          lf :: enterToLineFeed (next :: rest) := by
        rw [enterToLineFeed, if_pos ⟨rfl, fun hl => hn (Option.some.inj hl)⟩]
        rfl
      rw [he, if_neg hn]
      exact ⟨_, .byte (by decide) (by decide) (by decide) _, .cons (.same _) .nil⟩
  | telnet verb option rest =>
    obtain ⟨verb', hv, he⟩ := enterToLineFeed_cons verb (option :: rest)
    obtain ⟨option', ho, he'⟩ := enterToLineFeed_cons option rest
    rw [enterToLineFeed_of_ne (by decide), he, he']
    exact ⟨_, .telnet verb' option' _, .cons (.telnet hv ho) .nil⟩
  | escape first second rest =>
    obtain ⟨first', hf, he⟩ := enterToLineFeed_cons first (second :: rest)
    obtain ⟨second', hs, he'⟩ := enterToLineFeed_cons second rest
    rw [enterToLineFeed_of_ne (by decide), he, he', hf.ofEscape hs]
    exact ⟨_, .escape first' second' _, List.forall₂_same.mpr fun found _ => .same found⟩
  | byte hcr hiac hesc rest =>
    rw [enterToLineFeed_of_ne hcr]
    exact ⟨_, .byte hcr hiac hesc _, List.forall₂_same.mpr fun found _ => .same found⟩

theorem tokens_extend_empty (bytes : Bytes) :
    ((Queue.empty.extend bytes).tokens.1.filterMap fun token => token.decoded.event?) =
        events bytes ∧
      (Queue.empty.extend bytes).tokens.2.pending = remainder bytes := by
  have he : Queue.empty.extend bytes = Queue.ofBytes bytes := rfl
  have hl : (Queue.ofBytes bytes).size ≤ bytes.length := Nat.sub_le ..
  rw [he, events, remainder, Queue.decode_eq_tokens hl, List.filterMap_map]
  exact ⟨rfl, rfl⟩

theorem remainder_of_head {bytes : Bytes} {decoded : Decoded} {count : Nat}
    (h : Head bytes decoded count) : remainder bytes = remainder (bytes.drop count) :=
  (decode_of_scan h.scan_eq h.ne_incomplete).2

theorem remainder_eq_cr_iff {bytes : Bytes} :
    remainder bytes = [cr] ↔
      ∃ front, bytes = front ++ [cr] ∧ (remainder front = [] ∨ remainder front = [cr]) := by
  constructor
  · intro h
    have hc := (Queue.cut_tokens (Queue.empty.extend bytes)).flatMap_append
    rw [(tokens_extend_empty bytes).2, h] at hc
    refine ⟨_, hc.symm, ?_⟩
    generalize List.flatMap _ _ = front at hc
    have hr : remainder (remainder front ++ [cr]) = [cr] := by
      rw [← (decode_append front [cr]).2, hc]
      exact h
    rcases (stuck_remainder front).forms with hm | ⟨b, he | he⟩
    · simp only [List.mem_cons, List.not_mem_nil, or_false] at hm
      rcases hm with he | he | he | he
      · exact .inl he
      · exact .inr he
      · rw [he] at hr
        exact absurd hr (by decide)
      · rw [he] at hr
        exact absurd hr (by decide)
    · rw [he] at hr
      have hn : remainder [] = [cr] := (remainder_of_head (.escape b cr [])).symm.trans hr
      exact absurd hn (by decide)
    · rw [he] at hr
      have hn : remainder [] = [cr] := (remainder_of_head (.telnet b cr [])).symm.trans hr
      exact absurd hn (by decide)
  · rintro ⟨front, rfl, he | he⟩
    · rw [(decode_append front [cr]).2, he]
      rfl
    · rw [(decode_append front [cr]).2, he]
      rfl

theorem stuck_of_scan {bytes : Bytes} (h : scan bytes = some (.incomplete, 0)) : Stuck bytes := by
  intro decoded count hs
  rw [h] at hs
  cases hs
  rfl

theorem stuck_enterToLineFeed {bytes : Bytes} (hs : Stuck bytes) (hn : bytes ≠ [cr]) :
    Stuck (enterToLineFeed bytes) := by
  rcases hs.forms with hm | ⟨b, rfl | rfl⟩
  · simp only [List.mem_cons, List.not_mem_nil, or_false] at hm
    rcases hm with rfl | rfl | rfl | rfl
    · exact stuck_nil
    · exact absurd rfl hn
    · exact stuck_of_scan rfl
    · exact stuck_of_scan rfl
  · rw [enterToLineFeed_of_ne (by decide)]
    exact stuck_of_scan rfl
  · rw [enterToLineFeed_of_ne (by decide)]
    exact stuck_of_scan rfl

theorem decode_enterToLineFeed (bytes : Bytes) :
    (∃ turned, List.Forall₂ Event.Turned (events bytes) turned ∧
      events (enterToLineFeed bytes) =
        turned ++ if remainder bytes = [cr] then [.endOfLine] else []) ∧
      remainder (enterToLineFeed bytes) =
        if remainder bytes = [cr] then [] else enterToLineFeed (remainder bytes) := by
  -- Both are decoded side by side: at each step as many bytes are taken up of the one as of the
  -- other, and what is left of them is turned as a whole.
  induction bytes using stream_induct with
  | stuck bytes hs =>
    have ha := decode_of_stuck hs
    rw [ha.1, ha.2]
    by_cases hc : bytes = [cr]
    · subst hc
      exact ⟨⟨[], .nil, rfl⟩, rfl⟩
    · have hb := decode_of_stuck (stuck_enterToLineFeed hs hc)
      rw [hb.1, hb.2, if_neg hc, if_neg hc]
      exact ⟨⟨[], .nil, rfl⟩, rfl⟩
  | step bytes decoded count h hd ih =>
    have hh := head_of_scan h hd
    obtain ⟨found, ht, hf⟩ := hh.exists_turned
    obtain ⟨⟨turned, hr, he⟩, hl⟩ := ih
    rw [drop_enterToLineFeed] at he hl
    have ha := decode_of_scan h hd
    have hb := decode_of_scan ht.scan_eq ht.ne_incomplete
    rw [ha.1, ha.2, hb.1, hb.2, he, hl]
    exact ⟨⟨_, List.rel_append hf hr, (List.append_assoc ..).symm⟩, rfl⟩

/-- With CR turned into LF where no LF follows, the same is decoded, but that a lone CR at the end
of a chunk ends the line at once. -/
theorem enterToLineFeed_decoded (chunk : Bytes) :
    let turned := enterToLineFeed chunk
    let found (bytes : Bytes) : List Event :=
      (Queue.empty.extend bytes).tokens.1.filterMap fun token => token.decoded.event?
    let left (bytes : Bytes) : Bytes := (Queue.empty.extend bytes).tokens.2.pending
    turned.length = chunk.length ∧
      List.Forall₂ Turned chunk turned ∧
      (∀ i : Nat, turned[i]? = some cr → turned[i + 1]? = some lf) ∧
      (∃ alike, List.Forall₂ Event.Turned (found chunk) alike ∧
        found turned = alike ++ if left chunk = [cr] then [.endOfLine] else []) ∧
      left turned = (if left chunk = [cr] then [] else enterToLineFeed (left chunk)) ∧
      (left chunk = [cr] ↔
        ∃ front, chunk = front ++ [cr] ∧ (left front = [] ∨ left front = [cr])) := by
  intro turned found left
  have hf (bytes : Bytes) : found bytes = events bytes := (tokens_extend_empty bytes).1
  have hl (bytes : Bytes) : left bytes = remainder bytes := (tokens_extend_empty bytes).2
  have hd := decode_enterToLineFeed chunk
  simp only [hf, hl]
  exact ⟨length_enterToLineFeed chunk, forall₂_enterToLineFeed chunk, cr_enterToLineFeed chunk,
    hd.1, hd.2, remainder_eq_cr_iff⟩

example : enterToLineFeed [0x61, cr, cr, 0x62, cr, lf] = [0x61, lf, lf, 0x62, cr, lf] := by decide

end Vty.Input
