import CardShell.Api
import CardShell.Proofs.Loader.Search
import CardShell.Proofs.Shell.Stops

/-!
Who loads: the command, the call of a program, and the search for programs. Each hands its own path,
address and size to a load that keeps what it promises, and what it comes to is told from what the
load comes to.
-/

set_option autoImplicit false

namespace CardShell.Shell

open CardShell.Action

variable {m m' : Machine} {params : Text} {last : Error} {stages : List (Text × Nat)}
  {result : EStateM.Result Halt Machine Unit}

theorem ends_load (path : Text) (address size : Nat) : Ends (load path address size) :=
  throughout_ends.closed.load path address size

/-- What a search comes to that tries these paths, each at its address. A candidate that fails is passed
over, but for one that meets the system area; what is loaded is run, and nothing else is written to RAM. -/
inductive Tries (params : Text) :
    Error → List (Text × Nat) → Machine → EStateM.Result Halt Machine Unit → Prop
  | exhausted {last : Error} {m : Machine} :
      Tries params last [] m (.error (.failed (searchFailure last)) m)
  | passed {last e : Error} {path : Text} {address : Nat} {stages : List (Text × Nat)} {m m' : Machine}
      {result : EStateM.Result Halt Machine Unit} (law : LoadLaw path address 0 m)
      (failed : load path address 0 m = .error (.failed e) m') (free : e ≠ .overlappingSystem)
      (next : Tries params e stages m' result) :
      Tries params last ((path, address) :: stages) m result
  | overlaps {last : Error} {path : Text} {address : Nat} {stages : List (Text × Nat)} {m m' : Machine}
      (law : LoadLaw path address 0 m)
      (failed : load path address 0 m = .error (.failed .overlappingSystem) m') :
      Tries params last ((path, address) :: stages) m (.error (.failed .overlappingSystem) m')
  | loads {last : Error} {path : Text} {address n : Nat} {stages : List (Text × Nat)} {m m' : Machine}
      (law : LoadLaw path address 0 m) (loaded : load path address 0 m = .ok n m')
      (kept : ((runImage address params).after m').memory = m'.memory) :
      Tries params last ((path, address) :: stages) m (runImage address params m')

/-- The candidates are tried in turn, each from the machine that the one before has left. -/
theorem tries_tryCandidates (params : Text) (last : Error) (stages : List (Text × Nat))
    (hm : m.Mapped) : Tries params last stages m (tryCandidates params last stages m) := by
  induction stages generalizing last m with
  | nil => exact .exhausted
  | cons stage stages ih =>
    obtain ⟨path, address⟩ := stage
    have hlaw := loadLaw_of_mapped hm path address 0
    have hmap := mapped_load hm path address 0
    rw [tryCandidates, bind_apply]
    cases hx : load path address 0 m with
    | ok n m₁ =>
      rw [outcome_ok hx]
      exact .loads hlaw hx (memory_runImage address params m₁)
    | error halt m₁ =>
      rw [after_error hx] at hmap
      cases halt with
      | stopped why => exact absurd hx (ends_load path address 0 m why m₁)
      | failed e =>
        rw [outcome_failed hx]
        by_cases he : e = .overlappingSystem
        · subst he
          exact .overlaps hlaw hx
        · have hgo := ih e hmap
          cases e with
          | overlappingSystem => exact absurd rfl he
          | _ => exact .passed hlaw hx he hgo

theorem settings_of_load (path : Text) (address size : Nat) (m : Machine) :
    ((load path address size).after m).settings = m.settings := by
  obtain ⟨_, _, hf, _⟩ := load_spec path address size m
  exact hf.settings

/-- No search changes a byte of the system area, whatever comes to it. -/
theorem Tries.system (h : Tries params last stages m result) {a : Nat}
    (ha : m.settings.memory.systemAddress ≤ a) {x : Shell Unit} {m₀ : Machine} (hx : x m₀ = result) :
    (x.after m₀).memory.byte? a = m.memory.byte? a := by
  induction h with
  | exhausted => rw [after_error hx]
  | @passed _ _ path address _ m m' _ law failed _ _ ih =>
    have hsame := law.system a ha
    have hsettings := settings_of_load path address 0 m
    rw [after_error failed] at hsame hsettings
    rw [ih (hsettings ▸ ha) hx, hsame]
  | overlaps law failed =>
    have hsame := law.system a ha
    rw [after_error failed] at hsame
    rw [after_error hx, hsame]
  | @loads _ _ address _ _ _ m' law loaded kept =>
    have hsame := law.system a ha
    rw [after_ok loaded] at hsame
    have hrun : x.after m₀ = (runImage address params).after m' := by
      unfold Action.after
      rw [hx]
    rw [hrun, kept, hsame]

/-- The command loads a whole file, at the default address if none is given. -/
theorem loadCommand_apply (runLine : Text → Shell Unit) (args : Text) (m : Machine) :
    Builtin.perform runLine .load args m = match Arguments.nextWord args with
      | (none, _) => .error (.failed .invalidParameter) m
      | (some path, rest) =>
        match load path ((Arguments.nextNumber rest).1.getD m.settings.memory.defaultLoadAddress) 0 m with
        | .ok _ m' => .ok () m'
        | .error halt m' => .error halt m' := by
  have hperform : Builtin.perform runLine .load args = requiredWord args >>= fun p => get >>= fun m =>
      discard (load p.1 ((Arguments.nextNumber p.2).1.getD m.settings.memory.defaultLoadAddress) 0) := rfl
  rw [hperform, bind_apply]
  unfold requiredWord
  rcases Arguments.nextWord args with ⟨_ | path, rest⟩
  · rfl
  · have hreq : required (some path, rest) m = .ok (path, rest) m := rfl
    rw [hreq]
    dsimp only
    rw [bind_apply, get_apply]
    dsimp only
    rw [discard_apply]
    cases load path ((Arguments.nextNumber rest).1.getD m.settings.memory.defaultLoadAddress) 0 m <;> rfl

/-- The call answers with the code of the load's error. -/
theorem loadCall_apply (path : Text) (address size : Nat) (m : Machine) :
    Api.load path address size m = match load path address size m with
      | .ok _ m' => .ok 0 m'
      | .error (.failed e) m' => .ok e.code m'
      | .error (.stopped why) m' => .error (.stopped why) m' := by
  rw [Api.load, Api.status, bind_apply]
  rcases hx : load path address size m with ⟨n, m'⟩ | ⟨e | why, m'⟩
  · rw [outcome_ok hx]
    rfl
  · rw [outcome_failed hx]
    rfl
  · rw [outcome_stopped hx]

theorem runProgram_tries (hm : m.Mapped) {word : Text} (params : Text) (atPrompt : Bool)
    (hword : word.size ≤ m.settings.search.maxCommandLength) :
    Tries params .noFile (m.settings.candidates word atPrompt) m (runProgram word params atPrompt m) := by
  rw [runProgram_short hword]
  exact tries_tryCandidates params .noFile _ hm

/-- Whatever the map, the file, the address and the faults of the card, each load keeps its
promises. The command and the call are such loads, with the path, the address and the size that they
are given, and the result is made of that of the load; and a search for a program tries its candidates
by such loads of whole files, each at its own address, and writes nothing else to RAM. -/
theorem load_within_bounds (m : Machine) (hm : m.Mapped) :
    (∀ path address size, LoadLaw path address size m) ∧
    (∀ runLine args, Builtin.perform runLine .load args m = match Arguments.nextWord args with
      | (none, _) => .error (.failed .invalidParameter) m
      | (some path, rest) =>
        match load path ((Arguments.nextNumber rest).1.getD m.settings.memory.defaultLoadAddress) 0 m with
        | .ok _ m' => .ok () m'
        | .error halt m' => .error halt m') ∧
    (∀ path address size, Api.load path address size m = match load path address size m with
      | .ok _ m' => .ok 0 m'
      | .error (.failed e) m' => .ok e.code m'
      | .error (.stopped why) m' => .error (.stopped why) m') ∧
    (∀ path address size why m', load path address size m ≠ .error (.stopped why) m') ∧
    ∀ word params atPrompt,
      (m.settings.search.maxCommandLength < word.size →
        runProgram word params atPrompt m = .error (.failed .invalidCommand) m) ∧
      (word.size ≤ m.settings.search.maxCommandLength →
        Tries params .noFile (m.settings.candidates word atPrompt) m
          (runProgram word params atPrompt m) ∧
        ∀ a, m.settings.memory.systemAddress ≤ a →
          ((runProgram word params atPrompt).after m).memory.byte? a = m.memory.byte? a) := by
  refine ⟨fun path address size => loadLaw_of_mapped hm path address size,
    fun runLine args => loadCommand_apply runLine args m,
    fun path address size => loadCall_apply path address size m,
    fun path address size => ends_load path address size m, fun word params atPrompt => ?_⟩
  refine ⟨fun hlong => runProgram_long hlong params atPrompt, fun hword => ?_⟩
  have htries := runProgram_tries hm params atPrompt hword
  exact ⟨htries, fun a ha => htries.system ha rfl⟩

/-- A machine with RAM from 16 on, of which the system area begins at 200, and a file of three bytes. -/
def threeBytes : Machine :=
  Machine.boot { memory := ⟨16, 255, 200, 64, 32⟩ }
    ((Volume.labelled []).runAll [.writeFile "/a.bin" [1, 2, 3]]) [] {} (.hosted 0 0) .absent

/-- The file is loaded right below the system area, and refused one byte further on. -/
theorem load_within_bounds_stock :
    threeBytes.Mapped ∧ threeBytes.drive.volume.loadLength "/a.bin" 0 = 3 ∧
    (∃ m', Builtin.perform (fun _ => pure ()) .load "/a.bin 197" threeBytes = .ok () m' ∧
      m'.memory.slice 197 3 = .ok [1, 2, 3] ∧
      ∀ a, ¬ (197 ≤ a ∧ a < 200) → m'.memory.byte? a = threeBytes.memory.byte? a) ∧
    ∃ m', Builtin.perform (fun _ => pure ()) .load "/a.bin 198" threeBytes =
        .error (.failed .overlappingSystem) m' ∧ m'.memory = threeBytes.memory := by
  have hm : threeBytes.Mapped :=
    Machine.mapped_boot (by constructor <;> decide) _ [] {} (.hosted 0 0) .absent
  have hlength : threeBytes.drive.volume.loadLength "/a.bin" 0 = 3 := by decide +kernel
  have hfile : threeBytes.drive.volume.fileAt? "/a.bin" = some (.ofList [1, 2, 3]) := by
    decide +kernel
  obtain ⟨hlaw, hcommand, _⟩ := load_within_bounds threeBytes hm
  have hbelow := hcommand (fun _ => pure ()) "/a.bin 197"
  have habove := hcommand (fun _ => pure ()) "/a.bin 198"
  rw [show Arguments.nextWord "/a.bin 197" = (some "/a.bin".toList, "197".toList) by decide +kernel]
    at hbelow
  rw [show Arguments.nextWord "/a.bin 198" = (some "/a.bin".toList, "198".toList) by decide +kernel]
    at habove
  dsimp only at hbelow habove
  rw [show (Arguments.nextNumber "197").1 = some 197 by decide +kernel, Option.getD_some] at hbelow
  rw [show (Arguments.nextNumber "198").1 = some 198 by decide +kernel, Option.getD_some] at habove
  refine ⟨hm, hlength, ?_, ?_⟩
  · have hrun : (match load "/a.bin" 197 0 threeBytes with
        | .ok n _ => n == 3
        | .error _ _ => false) = true := by decide +kernel
    have hlaw := hlaw "/a.bin" 197 0
    cases hx : load "/a.bin" 197 0 threeBytes with
    | error halt m' =>
      rw [hx] at hrun
      cases hrun
    | ok n m' =>
      rw [hx] at hrun hbelow
      obtain rfl : n = 3 := eq_of_beq hrun
      obtain ⟨data, hdata, _, hslice, _⟩ := hlaw.loaded 3 m' hx
      rw [hfile] at hdata
      cases hdata
      have houtside := hlaw.outside
      rw [hlength, after_ok hx] at houtside
      exact ⟨m', hbelow, hslice, houtside⟩
  · have hopens : (match drive (Drive.openFile "/a.bin" .read) threeBytes with
        | .ok _ _ => true
        | .error _ _ => false) = true := by decide +kernel
    cases ho : drive (Drive.openFile "/a.bin" .read) threeBytes with
    | error halt m' =>
      rw [ho] at hopens
      cases hopens
    | ok h m' =>
      have hmeets : ∃ a, 198 ≤ a ∧ a < 198 + threeBytes.drive.volume.loadLength "/a.bin" 0 ∧
          threeBytes.settings.memory.systemAddress ≤ a ∧ a ≤ threeBytes.settings.memory.lastRam := by
        rw [hlength]
        exact ⟨200, by decide⟩
      obtain ⟨m'', hx, hmemory⟩ := (hlaw "/a.bin" 198 0).refused h m' ho rfl hmeets
      rw [hx] at habove
      exact ⟨m'', habove, hmemory⟩

end CardShell.Shell
