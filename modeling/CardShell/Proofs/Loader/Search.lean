import CardShell.Proofs.Loader.Header
import CardShell.Proofs.Loader.Reliable

/-!
The search for a program, from a card whose driver never fails. The candidates are judged by what the
card and RAM held at the start, for those that are passed over leave no trace.
-/

set_option autoImplicit false

namespace CardShell

/-- `m'` is `m` with `data` laid in from an address on. -/
structure Memory.Laid (m : Memory) (address : Nat) (data : Bytes) (m' : Memory) : Prop where
  base : m'.base = m.base
  size : m'.size = m.size
  byte : ∀ a, m'.byte? a =
    if address ≤ a ∧ a < address + data.size then data.toList[a - address]? else m.byte? a

def Executor.calls : Executor → List Call
  | recorder calls _ _ => calls
  | absent => []

namespace Machine

/-- Whether the search ends with a candidate. -/
def settles (m : Machine) (stage : Text × Nat) : Bool :=
  match m.verdict stage.1 stage.2 with
  | .ok _ => true
  | .error e => e = .overlappingSystem

end Machine

namespace Shell

open CardShell.Action

variable {m : Machine} {data : Bytes} {address : Nat}

theorem Filled.laid {m' : Machine} (h : Filled data (address - m.memory.base) 0 data.size m m')
    (ha : Admitted m address data.size) : m.memory.Laid address data m'.memory := by
  refine ⟨h.base, h.size, fun a => ?_⟩
  have hbase := ha.base_le
  have hend := ha.le_end
  by_cases hin : address ≤ a ∧ a < address + data.size
  · rw [if_pos hin]
    unfold Memory.byte?
    rw [h.base, h.size, if_pos (by omega), h.cell, if_pos (by omega), Bytes.byteAt_eq]
    have hi : a - m.memory.base - (address - m.memory.base) = a - address := by omega
    rw [hi, List.getElem?_eq_getElem (by rw [Bytes.length_toList]; omega)]
    rfl
  · rw [if_neg hin]
    exact h.byte?_eq (fun _ => hbase) hin

theorem readable_of_verdict {path : Text} (hv : m.verdict path address = .ok data) :
    m.drive.volume.readable path = .ok data := by
  unfold Machine.verdict at hv
  cases hr : m.drive.volume.readable path with
  | error e =>
    rw [hr] at hv
    cases hv
  | ok data' =>
    rw [hr] at hv
    simp only at hv
    cases href : m.refusal? address data'.size with
    | some e =>
      rw [href] at hv
      cases hv
    | none =>
      rw [href] at hv
      cases hv
      rfl

theorem load_of_verdict (hd : m.drive.Reliable) {path : Text} (hv : m.verdict path address = .ok data) :
    ∃ m', load path address 0 m = .ok data.size m' ∧ m'.executor = m.executor ∧
      m.memory.Laid address data m'.memory := by
  have hload := load_of_reliable hd path address
  rw [hv] at hload
  obtain ⟨m', hx, _⟩ := hload
  obtain ⟨n, _, hf, _, hok⟩ := load_spec path address 0 m
  obtain ⟨rfl, hadm, _, _⟩ := hok _ _ hx
  have hfile := Volume.fileAt?_of_readable (readable_of_verdict hv)
  have hlen : m.drive.volume.loadLength path 0 = data.size := by
    unfold Volume.loadLength
    rw [hfile]
    rfl
  rw [after_ok hx, hfile, Option.getD_some] at hf
  rw [hlen] at hadm
  exact ⟨m', hx, hf.executor, hf.laid hadm⟩

/-- The verdict is what a load comes to. -/
theorem load_by_verdict (hd : m.drive.Reliable) (path : Text) (address : Nat) :
    match m.verdict path address with
    | .ok data => ∃ m', load path address 0 m = .ok data.size m'
    | .error e => ∃ m', load path address 0 m = .error (.failed e) m' := by
  have hload := load_of_reliable hd path address
  cases hv : m.verdict path address with
  | ok data =>
    rw [hv] at hload
    obtain ⟨m', hx, _⟩ := hload
    exact ⟨m', hx⟩
  | error e =>
    rw [hv] at hload
    obtain ⟨d, _, hx⟩ := hload
    exact ⟨_, hx⟩

theorem calls_invoke (mode : ExecMode) (address : Nat) (params : Text) (m : Machine) :
    ∃ called, called.length ≤ 1 ∧ (∀ c ∈ called, ∃ mode, c = .run mode address params) ∧
      ((invoke mode address params).after m).executor.calls = m.executor.calls ++ called := by
  rw [after_invoke]
  cases hx : m.executor with
  | absent =>
    refine ⟨[], Nat.zero_le _, fun c hc => absurd hc List.not_mem_nil, ?_⟩
    unfold executor on
    rw [after_zoom, hx]
    rfl
  | recorder calls status refusal =>
    refine ⟨[.run mode address params], Nat.le_refl _, fun c hc => ⟨mode, List.mem_singleton.mp hc⟩, ?_⟩
    rw [after_call _ hx]
    rfl

/-- An image is called at most once, with its address and the parameters. -/
theorem calls_runImage (address : Nat) (params : Text) (m : Machine) :
    ∃ called, called.length ≤ 1 ∧ (∀ c ∈ called, ∃ mode, c = .run mode address params) ∧
      ((runImage address params).after m).executor.calls = m.executor.calls ++ called := by
  have hidle : ∃ called : List Call, called.length ≤ 1 ∧
      (∀ c ∈ called, ∃ mode, c = .run mode address params) ∧
      m.executor.calls = m.executor.calls ++ called :=
    ⟨[], Nat.zero_le _, fun c hc => absurd hc List.not_mem_nil, (List.append_nil _).symm⟩
  unfold runImage
  cases hn : m.memory.tailLength address with
  | error e =>
    rw [after_bind_error (askMemory_error hn)]
    exact hidle
  | ok count =>
    rw [after_bind_ok (askMemory_ok hn), after_bind_ok (get_apply m)]
    cases ExecMode.detect (m.memory.tail? address count) with
    | none => exact hidle
    | some mode => exact calls_invoke mode address params m

theorem memory_runImage (address : Nat) (params : Text) (m : Machine) :
    ((runImage address params).after m).memory = m.memory :=
  keeps_runImage (P := fun m' => m'.memory = m.memory) (fun _ _ h => h) address params m rfl

theorem verdict_of_alike {d : Drive} (h : m.drive.Alike d) (path : Text) (address : Nat) :
    { m with drive := d }.verdict path address = m.verdict path address := by
  unfold Machine.verdict
  rw [h.readable]
  rfl

theorem settles_of_alike {d : Drive} (h : m.drive.Alike d) :
    { m with drive := d }.settles = m.settles := by
  funext stage
  unfold Machine.settles
  rw [verdict_of_alike h]

/-- How a search ends whose last candidate has failed with `e`. -/
def searchFailure (e : Error) : Error := if e.isNotFound then .invalidCommand else e

/-- A search is over with the first candidate that settles it. -/
theorem tryCandidates_of_reliable (params : Text) (last : Error) (stages : List (Text × Nat))
    (hd : m.drive.Reliable) :
    match stages.find? m.settles with
    | some (path, address) => match m.verdict path address with
      | .ok data => ∃ loaded, tryCandidates params last stages m = runImage address params loaded ∧
          loaded.executor = m.executor ∧ m.memory.Laid address data loaded.memory
      | .error e => e = .overlappingSystem ∧
          ∃ d, tryCandidates params last stages m = .error (.failed e) { m with drive := d }
    | none => ∃ e d, (stages.map fun s => m.verdict s.1 s.2).getLastD (.error last) = .error e ∧
        tryCandidates params last stages m = .error (.failed (searchFailure e)) { m with drive := d } := by
  induction stages generalizing last m with
  | nil => exact ⟨last, m.drive, rfl, rfl⟩
  | cons stage stages ih =>
    obtain ⟨path, address⟩ := stage
    cases hv : m.verdict path address with
    | ok data =>
      have hs : m.settles (path, address) = true := by
        unfold Machine.settles
        rw [hv]
      obtain ⟨loaded, hx, hexec, hlaid⟩ := load_of_verdict hd hv
      rw [List.find?_cons_of_pos hs]
      simp only [hv]
      refine ⟨loaded, ?_, hexec, hlaid⟩
      rw [tryCandidates, bind_apply, outcome_ok hx]
    | error e =>
      have hload := load_of_reliable hd path address
      rw [hv] at hload
      obtain ⟨d, halike, hx⟩ := hload
      by_cases he : e = .overlappingSystem
      · subst he
        have hs : m.settles (path, address) = true := by
          unfold Machine.settles
          rw [hv]
          rfl
        rw [List.find?_cons_of_pos hs]
        simp only [hv]
        refine ⟨trivial, d, ?_⟩
        rw [tryCandidates, bind_apply, outcome_failed hx]
        rfl
      · have hs : ¬ m.settles (path, address) = true := by
          unfold Machine.settles
          rw [hv]
          simpa using he
        have hgo : tryCandidates params last ((path, address) :: stages) m =
            tryCandidates params e stages { m with drive := d } := by
          rw [tryCandidates, bind_apply, outcome_failed hx]
          cases e with
          | overlappingSystem => exact absurd rfl he
          | _ => rfl
        have hrest := ih (m := { m with drive := d }) e halike.reliable
        simp only [settles_of_alike halike, verdict_of_alike halike] at hrest
        rw [List.find?_cons_of_neg hs, List.map_cons, List.getLastD_cons, hgo, hv]
        exact hrest

theorem searchFailure_eq (e : Error) :
    searchFailure e = if e = .noFile ∨ e = .noPath then .invalidCommand else e := by
  cases e with
  | noFile => rfl
  | noPath => rfl
  | _ => rfl

/-- A word that is too long is refused outright. For any other one, from a reliable card, the first
candidate that loads or overlaps the system area decides: its bytes are all that is written to RAM,
and at most its own image is called; or nothing is written and nothing called. The same goes where
there is no such candidate, and the failure is that of the last one. -/
theorem runProgram_by_first (m : Machine) (word params : Text) (atPrompt : Bool) :
    (m.settings.search.maxCommandLength < word.size →
      runProgram word params atPrompt m = .error (.failed .invalidCommand) m) ∧
    (word.size ≤ m.settings.search.maxCommandLength → m.drive.Reliable →
      let stages := m.settings.candidates word atPrompt
      let done := (runProgram word params atPrompt).after m
      (∀ path address, match m.verdict path address with
        | .ok data => ∃ m', load path address 0 m = .ok data.size m'
        | .error e => ∃ m', load path address 0 m = .error (.failed e) m') ∧
      match stages.find? m.settles with
      | some (path, address) => match m.verdict path address with
        | .ok data => m.memory.Laid address data done.memory ∧
            (∃ called, called.length ≤ 1 ∧ (∀ c ∈ called, ∃ mode, c = .run mode address params) ∧
              done.executor.calls = m.executor.calls ++ called) ∧
            ∃ loaded, runProgram word params atPrompt m = runImage address params loaded
        | .error e => e = .overlappingSystem ∧
            ∃ d, runProgram word params atPrompt m = .error (.failed e) { m with drive := d }
      | none => ∃ e d, stages.getLast?.map (fun s => m.verdict s.1 s.2) = some (.error e) ∧
          runProgram word params atPrompt m =
            .error (.failed (if e = .noFile ∨ e = .noPath then .invalidCommand else e))
              { m with drive := d }) := by
  refine ⟨fun hlong => runProgram_long hlong params atPrompt, fun hshort hd => ?_⟩
  intro stages done
  have hrun := runProgram_short hshort params atPrompt
  have hsearch := tryCandidates_of_reliable params .noFile stages hd
  refine ⟨load_by_verdict hd, ?_⟩
  cases hf : stages.find? m.settles with
  | none =>
    rw [hf] at hsearch
    obtain ⟨e, d, hlast, hx⟩ := hsearch
    refine ⟨e, d, ?_, ?_⟩
    · have hne : stages ≠ [] := List.cons_ne_nil _ _
      rw [List.getLastD_eq_getLast?, List.getLast?_map, List.getLast?_eq_some_getLast hne] at hlast
      rw [List.getLast?_eq_some_getLast hne]
      exact congrArg some hlast
    · rw [hrun, hx, searchFailure_eq]
  | some stage =>
    rw [hf] at hsearch
    obtain ⟨path, address⟩ := stage
    simp only at hsearch ⊢
    cases hv : m.verdict path address with
    | error e =>
      rw [hv] at hsearch
      rw [hrun]
      exact hsearch
    | ok data =>
      rw [hv] at hsearch
      obtain ⟨loaded, hx, hexec, hlaid⟩ := hsearch
      have hafter : done = (runImage address params).after loaded := after_congr (hrun.trans hx)
      refine ⟨?_, ?_, loaded, hrun.trans hx⟩
      · rw [hafter, memory_runImage]
        exact hlaid
      · rw [hafter, ← hexec]
        exact calls_runImage address params loaded

/-- On the card with the image of 69 bytes, the image is what RAM shows in the end. -/
theorem runProgram_by_first_image :
    let m := Machine.boot { memory := smallMap } shelf [] {} (.hosted 0 0) (.recorder [] 0 0)
    Text.size "old" ≤ m.settings.search.maxCommandLength ∧ m.drive.Reliable ∧
    m.memory.Laid 0 (.ofList (List.replicate 64 0 ++ [77, 79, 83, 0, 1]))
      ((runProgram "old" [] true).after m).memory := by
  intro m
  have hsize : Text.size "old" ≤ m.settings.search.maxCommandLength := by decide
  have hd : m.drive.Reliable := ⟨rfl, List.not_mem_nil⟩
  have h := ((runProgram_by_first m "old" [] true).2 hsize hd).2
  have hf : (m.settings.candidates "old" true).find? m.settles = some ("/mos/old.bin".toList, 0) := by
    decide +kernel
  have hv : (m.verdict "/mos/old.bin" 0).toOption =
      some (.ofList (List.replicate 64 0 ++ [77, 79, 83, 0, 1])) := by
    decide +kernel
  rw [hf] at h
  cases hx : m.verdict "/mos/old.bin" 0 with
  | error e =>
    rw [hx] at hv
    cases hv
  | ok data =>
    simp only [hx] at h
    rw [hx] at hv
    cases hv
    exact ⟨hsize, hd, h.1⟩

end Shell

end CardShell
