import Vty.Proofs.Grammar.Acceptance
import Vty.Proofs.Grammar.Reach

namespace Vty.Grammar

variable {α : Type}

theorem Key.not_lt_finish (key : Key) : ¬ key < .finish := by
  rw [lt_iff]
  rintro (h | ⟨-, h⟩)
  · have ht : key.text < "" := h
    rw [String.lt_iff_toList_lt] at ht
    exact List.not_lt_nil _ ht
  · exact Nat.not_lt_zero _ h

namespace Children

def EndsInAction (children : Children α) : Prop :=
  ∀ child, (.finish, child) ∈ children → ∃ a, child = .action a

theorem eq_finish_cons {children : Children α} (h : children.Sorted) {child : Node α}
    (hm : (.finish, child) ∈ children) : ∃ rest, children = (.finish, child) :: rest := by
  cases children with
  | nil => exact absurd hm List.not_mem_nil
  | cons first rest =>
    refine ⟨rest, ?_⟩
    rcases List.mem_cons.mp hm with rfl | hr
    · rfl
    · have hp := List.rel_of_pairwise_cons (R := (· < ·)) h (mem_keys.mpr ⟨child, hr⟩)
      exact absurd hp (Key.not_lt_finish _)

theorem endsInAction_ofList {entries : List (Key × Node α)}
    (h : ∀ child, (.finish, child) ∈ entries → ∃ a, child = .action a) :
    (ofList entries).EndsInAction :=
  fun child hm => h child (mem_of_mem_ofList hm)

theorem contains_finish_iff {children : Children α} :
    Table.contains .finish children = true ↔ ∃ child, (.finish, child) ∈ children := by
  simp [Table.contains]

end Children

namespace Node

/-- The answers to one line in the two modes, side by side. -/
inductive Answers (root : Node α) (tokens : List String) :
    (execute help : Except Fault (Outcome α)) → Prop
  | fault {fault : Fault} : (∀ name usage, fault ≠ .missingValue name usage) →
      Answers root tokens (.error fault) (.error fault)
  | valueless {segments : List Segment} {children : Children α} {token name : String} :
      root.Reaches segments (.branch children) → tokens = Segment.tokens segments ++ [token] →
      Answers root tokens (.error (.missingValue name []))
        (.error (.missingValue name
          [Text.spaced (Segment.words segments) ++ name ++ " <" ++ name ++ ">"]))
  | action {a : α} {parameters : Parameters} {normalized : String} :
      Answers root tokens (.ok (.execute a parameters normalized)) (.ok (.help [normalized]))
  | branch {segments : List Segment} {children : Children α} {a : α} {parameters : Parameters}
      {normalized : String} {more : List String} :
      root.Reaches segments (.branch children) → tokens = Segment.tokens segments →
      completionsBelow (Text.spaced (Segment.words segments)) children = normalized :: more →
      Answers root tokens (.ok (.execute a parameters normalized))
        (.ok (.help (completionsHeader :: normalized :: more)))

theorem answers_conclude {root target : Node α} {segments : List Segment}
    (hr : root.Reaches segments target) (ho : target.Ordered)
    (hf : target.Everywhere Children.EndsInAction) :
    root.Answers (Segment.tokens segments)
      (target.conclude .execute (({} : Progress).after segments))
      (target.conclude .help (({} : Progress).after segments)) := by
  have hn : (({} : Progress).after segments).normalized = Text.spaced (Segment.words segments) :=
    String.empty_append
  cases target with
  | action a => exact .action
  | branch children =>
    by_cases hc : Table.contains .finish children = true
    · obtain ⟨child, hm⟩ := Children.contains_finish_iff.mp hc
      obtain ⟨a, rfl⟩ := hf.here child hm
      obtain ⟨rest, rfl⟩ := Children.eq_finish_cons ho.here hm
      have hs : (branch ((.finish, .action a) :: rest)).settled = .action a :=
        settled_branch ho.here.nodup hm
      have hl : ∀ lead, completionsBelow lead ((.finish, .action a) :: rest) =
          Text.trimEnd lead :: completionsBelow lead rest := by
        intro lead
        rw [completionsBelow, completions, Key.help, String.append_empty, List.singleton_append]
      simp only [conclude, hs, hc, if_true, hl]
      refine .branch hr rfl ?_
      rw [← hn, hl]
    · have hs : settledEnd children = none := by
        cases he : settledEnd children with
        | none => rfl
        | some node =>
          obtain ⟨child, hm, -⟩ := settledEnd_eq_some he
          exact absurd (Children.contains_finish_iff.mpr ⟨child, hm⟩) hc
      simp only [conclude, settled, hs, Option.getD_none, if_neg hc]
      apply Answers.fault
      rintro _ _ ⟨⟩

theorem answers_read {root : Node α} (ho : root.Ordered)
    (hf : root.Everywhere Children.EndsInAction) (tokens : List String) :
    root.Answers tokens (root.read .execute tokens {}) (root.read .help tokens {}) := by
  obtain ⟨segments, target, rest, hr, hs, rfl⟩ := exists_reaches ho tokens
  rw [read_of_reaches hr ho, read_of_reaches hr ho]
  cases hs with
  | ended =>
    rw [List.append_nil]
    exact answers_conclude hr (ho.reached hr) (hf.reached hr)
  | extra =>
    apply Answers.fault
    rintro _ _ ⟨⟩
  | @valueless children token name child hc =>
    have hn : (({} : Progress).after segments).normalized =
        Text.spaced (Segment.words segments) := String.empty_append
    simp only [read, hc, hn]
    exact .valueless hr rfl
  | several rest hc =>
    simp only [read, hc]
    apply Answers.fault
    rintro _ _ ⟨⟩
  | unknown rest hc =>
    simp only [read, hc]
    apply Answers.fault
    rintro _ _ ⟨⟩

namespace Answers

variable {root : Node α} {tokens : List String} {execute help : Except Fault (Outcome α)}

theorem fault_iff (h : root.Answers tokens execute help) {fault : Fault}
    (hv : ∀ name usage, fault ≠ .missingValue name usage) :
    execute = .error fault ↔ help = .error fault := by
  cases h with
  | fault => exact Iff.rfl
  | valueless =>
    constructor <;>
    · rintro ⟨⟩
      exact absurd rfl (hv _ _)
  | action => simp
  | branch => simp

theorem missingValue_iff (h : root.Answers tokens execute help) (name : String) :
    (∃ usage, execute = .error (.missingValue name usage)) ↔
      ∃ usage, help = .error (.missingValue name usage) := by
  cases h with
  | fault => exact Iff.rfl
  | valueless => simp
  | action => simp
  | branch => simp

theorem usage (h : root.Answers tokens execute help) {name : String} {usage : List String}
    (he : execute = .error (.missingValue name usage)) :
    usage = [] ∧ ∃ segments children token, root.Reaches segments (.branch children) ∧
      tokens = Segment.tokens segments ++ [token] ∧
      help = .error (.missingValue name
        [Text.spaced (Segment.words segments) ++ name ++ " <" ++ name ++ ">"]) := by
  cases h with
  | fault hv =>
    obtain rfl := Except.error.inj he
    exact absurd rfl (hv _ _)
  | valueless hr ht =>
    obtain ⟨rfl, rfl⟩ := Fault.missingValue.inj (Except.error.inj he)
    exact ⟨rfl, _, _, _, hr, ht, rfl⟩
  | action => cases he
  | branch => cases he

theorem execute_iff (h : root.Answers tokens execute help) (normalized : String) :
    (∃ a parameters, execute = .ok (.execute a parameters normalized)) ↔
      help = .ok (.help [normalized]) ∨
      ∃ segments children more, root.Reaches segments (.branch children) ∧
        tokens = Segment.tokens segments ∧
        completionsBelow (Text.spaced (Segment.words segments)) children = normalized :: more ∧
        help = .ok (.help (completionsHeader :: normalized :: more)) := by
  cases h with
  | fault => simp
  | valueless => simp
  | action => simp
  | @branch segments children _ _ first more hr ht hl =>
    constructor
    · rintro ⟨a, parameters, he⟩
      obtain ⟨-, -, rfl⟩ := Outcome.execute.inj (Except.ok.inj he)
      exact .inr ⟨segments, children, more, hr, ht, hl, rfl⟩
    · rintro (he | ⟨_, _, _, _, _, _, he⟩)
      · simp at he
      · have hn := List.cons.inj (Outcome.help.inj (Except.ok.inj he))
        obtain ⟨rfl, -⟩ := List.cons.inj hn.2
        exact ⟨_, _, rfl⟩

end Answers

/-- Help goes as far as running a command does: it stops at the same faults, and where a command
would run it lists that command first. -/
theorem parse_modes_agree (root : Node α) (ho : root.Ordered)
    (hf : root.Everywhere Children.EndsInAction) (line : String) (hl : Text.tokens line ≠ []) :
    (∀ fault, (∀ name usage, fault ≠ .missingValue name usage) →
      (root.parse line .execute = .error fault ↔ root.parse line .help = .error fault)) ∧
    (∀ name, (∃ usage, root.parse line .execute = .error (.missingValue name usage)) ↔
      ∃ usage, root.parse line .help = .error (.missingValue name usage)) ∧
    (∀ name usage, root.parse line .execute = .error (.missingValue name usage) →
      usage = [] ∧ ∃ segments children token, root.Reaches segments (.branch children) ∧
        Text.tokens line = Segment.tokens segments ++ [token] ∧
        root.parse line .help = .error (.missingValue name
          [Text.spaced (Segment.words segments) ++ name ++ " <" ++ name ++ ">"])) ∧
    ∀ normalized,
      (∃ a parameters, root.parse line .execute = .ok (.execute a parameters normalized)) ↔
        root.parse line .help = .ok (.help [normalized]) ∨
        ∃ segments children more, root.Reaches segments (.branch children) ∧
          Text.tokens line = Segment.tokens segments ∧
          completionsBelow (Text.spaced (Segment.words segments)) children = normalized :: more ∧
          root.parse line .help = .ok (.help (completionsHeader :: normalized :: more)) := by
  have h := answers_read ho hf (Text.tokens line)
  rw [parse_of_tokens_ne_nil root hl, parse_of_tokens_ne_nil root hl]
  exact ⟨fun _ => h.fault_iff, h.missingValue_iff, fun _ _ => h.usage, h.execute_iff⟩

def clearing : Node Nat :=
  ofList [(.keyword "clear", ofList [(.finish, .action 0), (.keyword "counters", .action 1)]),
    (.keyword "set", ofList [(.parameter "value", .action 2)])]

theorem clearing_plain : clearing.Ordered ∧ clearing.Everywhere Children.EndsInAction := by
  have ho (n : Nat) : (action n).Ordered := .action n
  have he (n : Nat) : (action n).Everywhere Children.EndsInAction := .action n
  constructor
  · refine ordered_ofList ?_
    simp only [List.forall_mem_cons, List.not_mem_nil, false_imp_iff, implies_true, and_true]
    constructor <;> exact ordered_ofList (by simp [ho])
  · refine everywhere_ofList (Children.endsInAction_ofList (by simp)) ?_
    simp only [List.forall_mem_cons, List.not_mem_nil, false_imp_iff, implies_true, and_true]
    constructor <;> exact everywhere_ofList (Children.endsInAction_ofList (by simp)) (by simp [he])

theorem parse_modes_agree_clear :
    clearing.Ordered ∧ clearing.Everywhere Children.EndsInAction ∧ Text.tokens "cl" ≠ [] ∧
      clearing.parse "cl" .help =
        .ok (.help [completionsHeader, "clear", "clear counters"]) ∧
      ∃ segments children more, clearing.Reaches segments (.branch children) ∧
        Text.tokens "cl" = Segment.tokens segments ∧
        completionsBelow (Text.spaced (Segment.words segments)) children = "clear" :: more := by
  obtain ⟨ho, he⟩ := clearing_plain
  have hl : Text.tokens "cl" ≠ [] := by decide
  have hh : clearing.parse "cl" .help =
      .ok (.help [completionsHeader, "clear", "clear counters"]) := rfl
  refine ⟨ho, he, hl, hh, ?_⟩
  rcases ((parse_modes_agree clearing ho he "cl" hl).2.2.2 "clear").mp ⟨0, [], rfl⟩ with
    hs | ⟨segments, children, more, hr, ht, hc, -⟩
  · simp [hh] at hs
  · exact ⟨segments, children, more, hr, ht, hc⟩

end Node

end Vty.Grammar
