import Vty.Poll
import Vty.Proofs.Table
import Mathlib.Data.List.Induction

namespace Vty.Poll

inductive Call where
  | register (id : Nat) (handle : Int)
  | unregister (id : Nat)
  deriving DecidableEq, Repr

namespace Call

def id : Call → Nat
  | .register id _ | .unregister id => id

def handle? : Call → Option Int
  | .register _ handle => some handle
  | .unregister _ => none

end Call

def waitsOn (id : Nat) (calls : List Call) : Option Int :=
  (calls.reverse.find? fun call => call.id = id).bind Call.handle?

/-- Each descriptor is answered for by its own state, and a negative one is passed over. -/
structure Answers (poll : List Int → List Events) (state : Int → Events) : Prop where
  each (handles : List Int) : poll handles = handles.map state
  negative {handle : Int} (h : handle < 0) : state handle = {}

namespace Registry

variable {poll : List Int → List Events} {state : Int → Events}

def take (r : Registry) : Call → Registry
  | .register id handle => r.register id handle
  | .unregister id => r.unregister id

def run (calls : List Call) : Registry :=
  calls.foldl take {}

theorem run_concat (calls : List Call) (call : Call) :
    run (calls ++ [call]) = (run calls).take call :=
  List.foldl_append

theorem find?_take (r : Registry) (call : Call) (id : Nat) :
    Table.find? id (r.take call).handlers =
      if call.id = id then call.handle? else Table.find? id r.handlers := by
  cases call with
  | register other handle =>
    rw [take, register, Table.find?_insert]
    exact if_congr eq_comm rfl rfl
  | unregister other =>
    rw [take, unregister, Table.find?_erase]
    exact if_congr eq_comm rfl rfl

theorem find?_run (calls : List Call) (id : Nat) :
    Table.find? id (run calls).handlers = waitsOn id calls := by
  induction calls using List.reverseRecOn with
  | nil => rfl
  | append_singleton calls call ih =>
    rw [run_concat, find?_take, ih, waitsOn, waitsOn, List.reverse_concat, List.find?_cons]
    by_cases h : call.id = id <;> simp [h]

theorem sorted_run (calls : List Call) : (run calls).handlers.Sorted := by
  induction calls using List.reverseRecOn with
  | nil => exact List.Pairwise.nil
  | append_singleton calls call ih =>
    rw [run_concat]
    cases call with
    | register id handle => exact Table.sorted_insert ih id handle
    | unregister id => exact ih.sublist List.filter_sublist

theorem mem_handlers_run {calls : List Call} {id : Nat} {handle : Int} :
    (id, handle) ∈ (run calls).handlers ↔ waitsOn id calls = some handle := by
  rw [← find?_run, Table.find?_eq_some_iff (sorted_run calls).nodup]

theorem wait_eq (hp : Answers poll state) (r : Registry) (extra : List Int) :
    r.wait extra poll =
      { sessions := (r.handlers.filter fun entry => (state entry.2).readable).map Prod.fst
        extra := extra.filter fun handle => (state handle).readable } := by
  have hl : (r.handlers.map fun entry => state entry.2).length = r.handlers.length :=
    List.length_map _
  unfold wait descriptors
  rw [hp.each, List.map_append, List.map_map]
  dsimp only [Function.comp_def]
  rw [List.take_left' hl, List.drop_left' hl, List.zip_map', List.filter_map, List.map_map]
  congr 1
  nth_rewrite 1 [← List.map_id extra]
  rw [List.zip_map', List.filter_map, List.map_map]
  exact List.map_id _

theorem nonneg_of_readable (hp : Answers poll state) {handle : Int}
    (h : (state handle).readable = true) : 0 ≤ handle := by
  by_contra hn
  rw [hp.negative (by omega)] at h
  cases h

section

variable {calls : List Call} {extra : List Int} {id : Nat} {handle : Int}

theorem mem_sessions_wait (hp : Answers poll state) :
    id ∈ ((run calls).wait extra poll).sessions ↔
      ∃ handle, waitsOn id calls = some handle ∧ (state handle).readable = true := by
  rw [wait_eq hp, List.mem_map]
  constructor
  · rintro ⟨⟨_, handle⟩, hm, rfl⟩
    obtain ⟨hm, hr⟩ := List.mem_filter.mp hm
    exact ⟨handle, mem_handlers_run.mp hm, hr⟩
  · rintro ⟨handle, hw, hr⟩
    exact ⟨(id, handle), List.mem_filter.mpr ⟨mem_handlers_run.mpr hw, hr⟩, rfl⟩

theorem mem_sessions_of_waitsOn (hp : Answers poll state) (hw : waitsOn id calls = some handle) :
    id ∈ ((run calls).wait extra poll).sessions ↔ (state handle).readable = true := by
  simp [mem_sessions_wait hp, hw]

theorem sorted_sessions_wait (hp : Answers poll state) :
    ((run calls).wait extra poll).sessions.Pairwise (· < ·) := by
  rw [wait_eq hp]
  exact (sorted_run calls).sublist List.filter_sublist

theorem extra_wait (hp : Answers poll state) (r : Registry) (extra : List Int) :
    (r.wait extra poll).extra =
      extra.filter fun handle => 0 ≤ handle ∧ (state handle).readable = true := by
  rw [wait_eq hp]
  apply List.filter_congr
  intro handle _
  cases hr : (state handle).readable with
  | false => simp
  | true => simp [nonneg_of_readable hp hr]

theorem mem_extra_wait (hp : Answers poll state) (r : Registry) (hm : handle ∈ extra) :
    handle ∈ (r.wait extra poll).extra ↔ (state handle).readable = true := by
  simp [wait_eq hp, hm]

end

/-- Every party is told of its own readiness: a session by what it said last, any other handle by
its place, and neither by what the others wait on. -/
theorem wait_attributed (hp : Answers poll state) (calls : List Call) (extra : List Int) :
    let ready := (run calls).wait extra poll
    (∀ id, id ∈ ready.sessions ↔
      ∃ handle, 0 ≤ handle ∧ waitsOn id calls = some handle ∧ (state handle).readable = true) ∧
    ready.sessions.Pairwise (· < ·) ∧
    ready.extra = extra.filter (fun handle => 0 ≤ handle ∧ (state handle).readable = true) ∧
    (∀ id handle, waitsOn id calls = some handle →
      (∀ other, waitsOn other calls = some handle →
        (id ∈ ready.sessions ↔ other ∈ ready.sessions)) ∧
      (handle ∈ extra → (id ∈ ready.sessions ↔ handle ∈ ready.extra))) := by
  intro ready
  refine ⟨fun id => ?_, sorted_sessions_wait hp, extra_wait hp (run calls) extra, ?_⟩
  · rw [mem_sessions_wait hp]
    constructor
    · rintro ⟨handle, hw, hr⟩
      exact ⟨handle, nonneg_of_readable hp hr, hw, hr⟩
    · rintro ⟨handle, -, hw, hr⟩
      exact ⟨handle, hw, hr⟩
  · intro id handle hw
    constructor
    · intro other ho
      rw [mem_sessions_of_waitsOn hp hw, mem_sessions_of_waitsOn hp ho]
    · intro hm
      rw [mem_sessions_of_waitsOn hp hw, mem_extra_wait hp (run calls) hm]

end Registry

namespace Pipe

def state (pipes : List Pipe) : Int → Events
  | .ofNat n => (pipes[n]?.map events).getD {}
  | .negSucc _ => {}

theorem answers_poll (pipes : List Pipe) : Answers (poll pipes) (state pipes) where
  each _ := rfl
  negative {handle} h := by
    cases handle with
    | ofNat n => exact absurd h (by simp)
    | negSucc n => rfl

def several : List Pipe :=
  [{ unread := [0x78] }, {}, { writable := false }]

def comings : List Call :=
  [.register 3 0, .register 1 0, .register 2 (-1), .register 4 2, .unregister 4, .register 5 1,
    .register 5 2, .register 6 0, .register 6 1]

theorem wait_attributed_several :
    Answers (poll several) (state several) ∧
      let ready := (Registry.run comings).wait [2, -7, 1, 0, 2] (poll several)
      3 ∈ ready.sessions ∧ 4 ∉ ready.sessions ∧ 6 ∉ ready.sessions ∧
        ready.sessions = [1, 3, 5] ∧ ready.extra = [2, 0, 2] := by
  have hp := answers_poll several
  obtain ⟨hs, -, he, hw⟩ := Registry.wait_attributed hp comings [2, -7, 1, 0, 2]
  refine ⟨hp, ?_, ?_, ?_, by decide, he.trans (by decide)⟩
  · exact ((hw 3 0 rfl).1 1 rfl).mpr (by decide)
  · rw [hs]
    rintro ⟨handle, -, ⟨⟩, -⟩
  · rw [hs]
    rintro ⟨handle, -, ⟨⟩, hr⟩
    exact absurd hr (by decide)

end Pipe

end Vty.Poll
