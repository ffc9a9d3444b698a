import CardShell.Command.Dispatch
import CardShell.Proofs.Loader.Load

/-!
Which programs run. The mode of an image is looked up in RAM after the load, so what decides is
the file laid over what RAM held before, up to the end of RAM. For a file that holds a whole header
that is the file's own header; a shorter one may be completed by what is left of another.
-/

set_option autoImplicit false

namespace CardShell

/-- The mode that a file's own header gives. -/
def Bytes.mode? (b : Bytes) : Option ExecMode := ExecMode.detect fun i => b.toList[i]?

/-- The bytes from an address to the end of RAM, `tail` of them, once the first `count` of `data`
have been laid over those of `m`. -/
def Memory.overlay (m : Memory) (address count : Nat) (data : Bytes) (i : Nat) : Option UInt8 :=
  if i < m.limit - address then
    some (if i < count then data.byteAt i else m.cell (address - m.base + i))
  else none

namespace ExecMode

theorem detect_congr {f g : Nat → Option UInt8} (h64 : f 64 = g 64) (h65 : f 65 = g 65)
    (h66 : f 66 = g 66) (h68 : f 68 = g 68) : detect f = detect g := by
  unfold detect
  rw [h64, h65, h66, h68]

theorem detect_none_of_end {f : Nat → Option UInt8} (h : f 68 = none) : detect f = none := by
  unfold detect
  rw [h]
  split <;> rfl

end ExecMode

theorem Bytes.mode?_none_of_short {b : Bytes} (h : b.size < 69) : b.mode? = none := by
  refine ExecMode.detect_none_of_end (List.getElem?_eq_none ?_)
  rw [Bytes.length_toList]
  omega

namespace Memory

variable {m : Memory} {address i : Nat} {data : Bytes}

theorem overlay_of_lt (h : i < m.limit - address) (hi : i < data.size) :
    m.overlay address data.size data i = data.toList[i]? := by
  rw [overlay, if_pos h, if_pos hi, Bytes.byteAt_eq,
    List.getElem?_eq_getElem (by rwa [Bytes.length_toList])]
  rfl

theorem mode_overlay_of_long (h : 69 ≤ m.limit - address) (hd : 69 ≤ data.size) :
    ExecMode.detect (m.overlay address data.size data) = data.mode? :=
  ExecMode.detect_congr (overlay_of_lt (by omega) (by omega)) (overlay_of_lt (by omega) (by omega))
    (overlay_of_lt (by omega) (by omega)) (overlay_of_lt (by omega) (by omega))

/-- The header in RAM is the file's, or there is none where RAM ends too soon, or it is made up of
the file and what lay behind it. -/
theorem mode_overlay_of_mode (m : Memory) (address : Nat) (hd : 69 ≤ data.size) :
    ExecMode.detect (m.overlay address data.size data) = data.mode? ∨
    ExecMode.detect (m.overlay address data.size data) = none := by
  by_cases h : 69 ≤ m.limit - address
  · exact Or.inl (mode_overlay_of_long h hd)
  · refine Or.inr (ExecMode.detect_none_of_end ?_)
    rw [overlay, if_neg (by omega)]

end Memory

namespace Shell

open CardShell.Action

/-- Calls what runs programs, and fails with the status it ends with. -/
def invoke (mode : ExecMode) (address : Nat) (params : Text) : Shell Unit := do
  match Error.ofCode? (← executor (Executor.call (.run mode address params))) with
  | some e => fail e
  | none => return

/-- What is done with a program whose header says `mode?`. -/
def runAs (mode? : Option ExecMode) (address : Nat) (params : Text) : Shell Unit :=
  match mode? with
  | none => fail .invalidExecutable
  | some mode => invoke mode address params

/-- A candidate that has loaded, with the machine before and after. -/
structure Found where
  path : Text
  address : Nat
  before : Machine
  count : Nat
  after : Machine

/-- The first candidate that loads, unless an overlap with the system area or a stop comes first. -/
def firstLoaded : List (Text × Nat) → Machine → Option Found
  | [], _ => none
  | (path, address) :: rest, m =>
    match load path address 0 m with
    | .ok count m' => some ⟨path, address, m, count, m'⟩
    | .error (.failed .overlappingSystem) _ => none
    | .error (.failed _) m' => firstLoaded rest m'
    | .error (.stopped _) _ => none

/-- What the search for a command word comes upon. -/
def found? (m : Machine) (word : Text) (atPrompt : Bool) : Option Found :=
  if m.settings.search.maxCommandLength < word.size then none
  else firstLoaded (m.settings.candidates word atPrompt) m

variable {m : Machine} {params : Text}

theorem after_call (c : Call) {calls : List Call} {status refusal : UInt8}
    (hx : m.executor = .recorder calls status refusal) :
    (executor (Executor.call c)).after m =
      { m with executor := .recorder (calls ++ [c]) status refusal } := by
  have h : (Executor.call c).after (.recorder calls status refusal) =
      .recorder (calls ++ [c]) status refusal := by
    unfold Action.after Executor.call
    simp only
    cases Error.ofCode? refusal <;> rfl
  unfold executor on
  rw [after_zoom, hx, h]

/-- However the call ends, nothing happens behind it. -/
theorem after_invoke (mode : ExecMode) (address : Nat) (params : Text) (m : Machine) :
    (invoke mode address params).after m =
      (executor (Executor.call (.run mode address params))).after m := by
  unfold invoke
  cases hx : executor (Executor.call (.run mode address params)) m with
  | error e t => rw [after_bind_error hx, after_error hx]
  | ok status t =>
    rw [after_bind_ok hx, after_ok hx]
    cases Error.ofCode? status <;> rfl

/-- A call is noted, or there is nothing to call; a refused image does neither. -/
theorem invoke_ne_refusal (mode : ExecMode) (address : Nat) (params : Text) (m : Machine) :
    invoke mode address params m ≠ .error (.failed .invalidExecutable) m := by
  intro h
  cases hx : m.executor with
  | absent =>
    have hcall : executor (Executor.call (.run mode address params)) m =
        .error (.failed .notImplemented) m := by
      unfold executor on zoom
      rw [hx]
      simp only [Executor.call, ← hx]
    unfold invoke at h
    rw [bind_apply, hcall] at h
    cases h
  | recorder calls status refusal =>
    have hafter := after_error h
    rw [after_invoke, after_call _ hx] at hafter
    have hexec := congrArg Machine.executor hafter
    rw [hx] at hexec
    simp at hexec

theorem executor_load (path : Text) (address size : Nat) (m : Machine) :
    ((load path address size).after m).executor = m.executor := by
  obtain ⟨n, _, hf, _⟩ := load_spec path address size m
  exact hf.executor

theorem tryCandidates_of_firstLoaded (last : Error) (stages : List (Text × Nat)) (m : Machine) :
    match firstLoaded stages m with
    | none => ((tryCandidates params last stages).after m).executor = m.executor
    | some f => tryCandidates params last stages m = runImage f.address params f.after ∧
        f.before.executor = m.executor ∧ load f.path f.address 0 f.before = .ok f.count f.after := by
  induction stages generalizing last m with
  | nil => rfl
  | cons stage stages ih =>
    obtain ⟨path, address⟩ := stage
    have hexec := executor_load path address 0 m
    rw [tryCandidates, firstLoaded]
    cases hx : load path address 0 m with
    | ok n m₁ =>
      dsimp only
      refine ⟨?_, rfl, hx⟩
      rw [bind_apply, outcome_ok hx]
    | error halt m₁ =>
      rw [after_error hx] at hexec
      cases halt with
      | stopped why =>
        simp only
        rw [after_bind_error (outcome_stopped hx)]
        exact hexec
      | failed e =>
        cases e with
        | overlappingSystem =>
          simp only
          rw [after_bind_ok (outcome_failed hx)]
          exact hexec
        | _ =>
          have h := ih (m := m₁)
          simp only
          rw [after_bind_ok (outcome_failed hx), bind_apply, outcome_failed hx, ← hexec]
          exact h _

/-- A found program is judged by the file laid over RAM. -/
theorem runImage_loaded (params : Text) {path : Text} {address count : Nat} {m m' : Machine} {data : Bytes}
    (h : load path address 0 m = .ok count m') (hfile : m.drive.volume.fileAt? path = some data) :
    runImage address params m' =
      runAs (ExecMode.detect (m.memory.overlay address count data)) address params m' := by
  obtain ⟨n, _, hf, _, hok⟩ := load_spec path address 0 m
  obtain ⟨rfl, hadm, _, _⟩ := hok count m' h
  rw [after_ok h, hfile, Option.getD_some] at hf
  have hbase := hadm.base_le
  have hend := hadm.le_end
  have hlimit : m'.memory.limit = m.memory.limit := by
    unfold Memory.limit
    rw [hf.base, hf.size]
  have hle : m.memory.limit ≤ m.memory.base + m.memory.size := Nat.mod_le _ _
  have htail : m'.memory.tailLength address = .ok (m.memory.limit - address) := by
    have hoff : m'.memory.offset? address (m.memory.limit - address) =
        .ok (address - m'.memory.base) := by
      unfold Memory.offset?
      rw [hf.base, hf.size, if_neg (by omega)]
    unfold Memory.tailLength
    rw [hlimit]
    simp only [bind, Except.bind, hoff, pure, Except.pure]
  have hseen : m'.memory.tail? address (m.memory.limit - address) =
      m.memory.overlay address count data := by
    funext i
    unfold Memory.tail? Memory.overlay
    split
    · rw [hf.cell, hf.base]
      by_cases hi : i < count
      · rw [if_pos (by omega), if_pos hi]
        congr 2
        omega
      · rw [if_neg (by omega), if_neg hi]
    · rfl
  unfold runImage
  rw [bind_apply, askMemory_ok htail]
  simp only
  rw [bind_apply, get_apply]
  simp only
  rw [hseen]
  cases ExecMode.detect (m.memory.overlay address count data) with
  | none => rfl
  | some mode => rfl

theorem runAs_eq_iff {seen own : Option ExecMode} {address : Nat} {params : Text} {m : Machine}
    (h : seen = own ∨ seen = none ∨ own = none) :
    runAs seen address params m = runAs own address params m ↔ seen = own := by
  constructor
  · intro he
    rcases h with h | h | h
    · exact h
    · subst h
      cases own with
      | none => rfl
      | some mode => exact absurd he.symm (invoke_ne_refusal mode address params m)
    · subst h
      cases seen with
      | none => rfl
      | some mode => exact absurd he (invoke_ne_refusal mode address params m)
  · intro he
    rw [he]

theorem runProgram_long {word : Text} (h : m.settings.search.maxCommandLength < word.size)
    (params : Text) (atPrompt : Bool) :
    runProgram word params atPrompt m = .error (.failed .invalidCommand) m := by
  unfold runProgram
  rw [bind_apply, get_apply]
  simp only
  rw [if_pos h]
  rfl

theorem runProgram_short {word : Text} (h : word.size ≤ m.settings.search.maxCommandLength)
    (params : Text) (atPrompt : Bool) :
    runProgram word params atPrompt m =
      tryCandidates params .noFile (m.settings.candidates word atPrompt) m := by
  unfold runProgram
  rw [bind_apply, get_apply]
  simp only
  rw [if_neg (Nat.not_lt.mpr h)]

/-- The search either comes upon nothing and calls nothing, or ends with the image it has found. -/
theorem runProgram_of_found (m : Machine) (word params : Text) (atPrompt : Bool) :
    match found? m word atPrompt with
    | none => ((runProgram word params atPrompt).after m).executor = m.executor
    | some f => runProgram word params atPrompt m = runImage f.address params f.after ∧
        f.before.executor = m.executor ∧ load f.path f.address 0 f.before = .ok f.count f.after := by
  unfold found?
  by_cases hlong : m.settings.search.maxCommandLength < word.size
  · rw [if_pos hlong, after_error (runProgram_long hlong params atPrompt)]
  · have hrun := runProgram_short (Nat.le_of_not_lt hlong) params atPrompt
    rw [if_neg hlong, after_congr hrun, hrun]
    exact tryCandidates_of_firstLoaded .noFile (m.settings.candidates word atPrompt) m

/-- A line whose first word no record answers to is a search for a program. -/
theorem runLineWithin_program (depth : Nat) (atPrompt : Bool) (m : Machine) {line word args : Text}
    (hs : Arguments.isSilent (Arguments.trimLine line) = false)
    (hw : Arguments.nextWord (Arguments.trimLine line) = (some word, args))
    (hr : (Record.resolve m.table word).bind Record.handler = none) :
    runLineWithin (depth + 1) atPrompt line m = runProgram word args atPrompt m := by
  rw [runLineWithin]
  simp only [hs, hw, Bool.false_eq_true, if_false]
  rw [bind_apply, get_apply]
  simp only [hr]

/-- A whole file has been loaded if no read came back empty. -/
theorem load_whole {path : Text} {address count : Nat} {m m' : Machine} {data : Bytes}
    (h : load path address 0 m = .ok count m') (hfile : m.drive.volume.fileAt? path = some data)
    (hb : m'.drive.blanks = m.drive.blanks) : count = data.size := by
  obtain ⟨n, hn, _, _, hok⟩ := load_spec path address 0 m
  obtain ⟨rfl, _, _, hshort⟩ := hok count m' h
  have hlen : m.drive.volume.loadLength path 0 = data.size := by
    rw [Volume.loadLength, hfile]
    rfl
  rw [hlen] at hn hshort
  rcases Nat.lt_or_ge count data.size with hlt | hge
  · have hless := hshort hlt
    omega
  · exact Nat.le_antisymm hn hge

theorem load_file {path : Text} {address count : Nat} {m m' : Machine}
    (h : load path address 0 m = .ok count m') :
    ∃ data, m.drive.volume.fileAt? path = some data ∧
      address + data.size ≤ m.memory.base + m.memory.size := by
  obtain ⟨_, _, _, _, hok⟩ := load_spec path address 0 m
  obtain ⟨_, hadm, hfile, _⟩ := hok count m' h
  refine ⟨_, hfile, ?_⟩
  have hend := hadm.le_end
  rw [Volume.loadLength, hfile] at hend
  exact hend

/-- A line whose first word no record answers to is a search for a program. The search calls nothing
unless a candidate loads, and that candidate is treated as the header says that RAM shows from its
address on. Where no read came back empty, this is what its own header says exactly if that is the
same header; so it is whenever the file holds a whole header and RAM ends below 4 GiB. -/
theorem runProgram_by_header (m : Machine) (word params : Text) (atPrompt : Bool) :
    (∀ depth line, Arguments.isSilent (Arguments.trimLine line) = false →
      Arguments.nextWord (Arguments.trimLine line) = (some word, params) →
      (Record.resolve m.table word).bind Record.handler = none →
      runLineWithin (depth + 1) atPrompt line m = runProgram word params atPrompt m) ∧
    (found? m word atPrompt = none →
      ((runProgram word params atPrompt).after m).executor = m.executor) ∧
    ∀ f, found? m word atPrompt = some f → f.after.executor = m.executor ∧
      ∃ data, f.before.drive.volume.fileAt? f.path = some data ∧
        runProgram word params atPrompt m =
          runAs (ExecMode.detect (f.before.memory.overlay f.address f.count data)) f.address params
            f.after ∧
        (f.after.drive.blanks = f.before.drive.blanks →
          (runProgram word params atPrompt m = runAs data.mode? f.address params f.after ↔
            ExecMode.detect (f.before.memory.overlay f.address data.size data) = data.mode?) ∧
          (69 ≤ data.size → f.before.memory.base + f.before.memory.size < 0x100000000 →
            runProgram word params atPrompt m = runAs data.mode? f.address params f.after)) := by
  have hrun := runProgram_of_found m word params atPrompt
  refine ⟨fun depth line => runLineWithin_program depth atPrompt m, fun hnone => ?_, fun f hf => ?_⟩
  · rw [hnone] at hrun
    exact hrun
  · rw [hf] at hrun
    obtain ⟨hrun, hexec, hload⟩ := hrun
    obtain ⟨data, hfile, hend⟩ := load_file hload
    have hafter := executor_load f.path f.address 0 f.before
    rw [after_ok hload] at hafter
    have hseen := runImage_loaded params hload hfile
    refine ⟨by rw [hafter, hexec], data, hfile, by rw [hrun, hseen], fun hb => ?_⟩
    rw [load_whole hload hfile hb] at hseen
    have hiff : runProgram word params atPrompt m = runAs data.mode? f.address params f.after ↔
        ExecMode.detect (f.before.memory.overlay f.address data.size data) = data.mode? := by
      rw [hrun, hseen]
      refine runAs_eq_iff ?_
      by_cases hd : 69 ≤ data.size
      · rcases Memory.mode_overlay_of_mode f.before.memory f.address hd with h | h
        · exact Or.inl h
        · exact Or.inr (Or.inl h)
      · exact Or.inr (Or.inr (Bytes.mode?_none_of_short (by omega)))
    refine ⟨hiff, fun hd htop => hiff.mpr (Memory.mode_overlay_of_long ?_ hd)⟩
    have hlimit : f.before.memory.limit = f.before.memory.base + f.before.memory.size :=
      Nat.mod_eq_of_lt htop
    omega

/-- RAM of 256 bytes, of which the last 56 are the system area. -/
def smallMap : MemoryMap := ⟨0, 255, 200, 0, 0⟩

/-- A card with an image of 69 bytes, and with a program of a single byte. -/
def shelf : Volume :=
  { Volume.labelled [] with
    nodes := .cons "mos".toList ⟨["mos".toList], .directory, {}, {}, 1⟩
      (.cons "old.bin".toList
        ⟨["mos".toList, "old.bin".toList],
          .file (.ofList (List.replicate 64 0 ++ [77, 79, 83, 0, 1])), {}, {}, 2⟩ .nil
        (.cons "new.bin".toList ⟨["mos".toList, "new.bin".toList], .file (.ofList [120]), {}, {}, 3⟩
          .nil .nil)) .nil
    nextOrder := 4 }

/-- The machine on which the image of 69 bytes has been run once. -/
def usedMachine : Machine :=
  (runProgram "old" [] false).after
    (Machine.boot { memory := smallMap } shelf [] {} (.hosted 0 0) (.recorder [] 0 0))

/-- A program of one byte is run by the header that another has left behind. -/
theorem header_left_behind : ¬ ∀ (m : Machine) (word params : Text) (atPrompt : Bool) (f : Found)
    (data : Bytes), found? m word atPrompt = some f →
    f.after.drive.blanks = f.before.drive.blanks →
    f.before.drive.volume.fileAt? f.path = some data →
    runProgram word params atPrompt m = runAs data.mode? f.address params f.after := by
  intro law
  have hfound : (found? usedMachine "new" false).isSome = true := by decide +kernel
  obtain ⟨f, hf⟩ := Option.isSome_iff_exists.mp hfound
  have hblanks : (found? usedMachine "new" false).map (fun f => f.after.drive.blanks) = some 0 ∧
      (found? usedMachine "new" false).map (fun f => f.before.drive.blanks) = some 0 := by
    decide +kernel
  have hfile : ((found? usedMachine "new" false).bind fun f =>
      f.before.drive.volume.fileAt? f.path) = some (.ofList [120]) := by
    decide +kernel
  have hcalls : ((runProgram "new" [] false).after usedMachine).executor =
      .recorder [.run .extended 0 [], .run .extended 0 []] 0 0 := by
    decide +kernel
  have hbefore : (found? usedMachine "new" false).map (fun f => f.after.executor) =
      some (.recorder [.run .extended 0 []] 0 0) := by
    decide +kernel
  rw [hf] at hblanks hfile hbefore
  simp only [Option.map_some, Option.some.injEq, Option.bind_some] at hblanks hfile hbefore
  have hrun := law usedMachine "new" [] false f _ hf (hblanks.1.trans hblanks.2.symm) hfile
  have hmode : (Bytes.ofList [120]).mode? = none := Bytes.mode?_none_of_short (by decide)
  rw [hmode] at hrun
  rw [Action.after, hrun] at hcalls
  have hsame : f.after.executor = .recorder [.run .extended 0 [], .run .extended 0 []] 0 0 := hcalls
  rw [hbefore] at hsame
  cases hsame

end Shell

end CardShell
