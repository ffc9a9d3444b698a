import CardShell.Proofs.Shell.Request

/-!
The directory that the shell shows and the current directory of the card. The shell takes the
current directory over when it changes it or mounts, and a rename that moves the current directory
goes unseen until then. What is shown is where the current directory was before the first such
rename; it is told here line by line, batch files included.
-/

set_option autoImplicit false

namespace CardShell

open CardShell.Action

/-- The directory that the card itself is in. -/
def Machine.here (m : Machine) : Path := m.drive.volume.directory

namespace Shell

/-- After a rename from `m` to `m'`: if it has moved the current directory, the place it had in `m`,
unless it had been moved before. -/
def leftByRename (m m' : Machine) (left : Option Path) : Option Path :=
  if m'.here = m.here then left else some (left.getD m.here)

/-- Line after line, up to the first that fails. -/
def leftByLines (run : Text → Shell Unit) (leftByLine : Text → Machine → Option Path → Option Path) :
    List Text → Machine → Option Path → Option Path
  | [], _, left => left
  | line :: lines, m, left =>
    match run line m with
    | .ok _ m' => leftByLines run leftByLine lines m' (leftByLine line m left)
    | .error _ _ => leftByLine line m left

def leftByBatch (run : Text → Shell Unit) (leftByLine : Text → Machine → Option Path → Option Path)
    (path : Text) (m : Machine) (left : Option Path) : Option Path :=
  match drive (Drive.readToEnd path) m with
  | .ok bytes m' => leftByLines run leftByLine (Text.lines (Utf8.lossy bytes)) m' left
  | .error _ _ => left

def leftByBuiltin (run : Text → Shell Unit) (leftByLine : Text → Machine → Option Path → Option Path)
    (b : Builtin) (args : Text) (m : Machine) (left : Option Path) : Option Path :=
  match b, (Arguments.nextWord args).1 with
  | .changeDirectory, some _ => none
  | .mount, _ => none
  | .rename, _ => leftByRename m ((Builtin.rename.perform run args).after m) left
  | .batch, some path => leftByBatch run leftByLine path m left
  | _, _ => left

/-- One line, within which batch files may nest `depth` deep. -/
def leftWithin : (depth : Nat) → Text → Machine → Option Path → Option Path
  | 0, _, _, left => left
  | depth + 1, line, m, left =>
    let line := Arguments.trimLine line
    if Arguments.isSilent line then left
    else match Arguments.nextWord line with
      | (none, _) => left
      | (some word, args) =>
        match (Record.resolve m.table word).bind Record.handler with
        | some (.builtin b) =>
          leftByBuiltin (runLineWithin depth true) (leftWithin depth) b args m left
        | _ => left

/-- No fault is set, and the directory shown is the one `left`, or else the current one. -/
structure Shown (left : Option Path) (m : Machine) : Prop where
  faultless : m.drive.faults = []
  directory : m.directory = (left.getD m.here).text

variable {α : Type} {left : Option Path} {m m' : Machine}

/-- The current directory and the one shown are as given. -/
def At (t : Text) (D : Path) (m : Machine) : Prop := Drive.Settled D m.drive ∧ m.directory = t

theorem stable_at (t : Text) (D : Path) : Stable (At t D) where
  frame := fun hm hd hn => ⟨hd ▸ hm.1, hn ▸ hm.2⟩
  settle := fun hm hs => ⟨hs D hm.1, hm.2⟩

/-- What keeps the two directories keeps what is shown. -/
theorem Shown.of_keeps {x : Shell α} (hx : ∀ t D, Keeps (At t D) x) (h : Shown left m) :
    Shown left (x.after m) := by
  obtain ⟨hd, hn⟩ := hx m.directory m.here m ⟨⟨h.faultless, rfl⟩, rfl⟩
  refine ⟨hd.1, ?_⟩
  rw [Machine.here, hd.2, hn, h.directory]

/-- No fault is set, and the directory shown is as given. -/
def Showing (t : Text) (m : Machine) : Prop := m.drive.faults = [] ∧ m.directory = t

theorem stable_showing (t : Text) : Stable (Showing t) where
  frame := fun hm hd hn => ⟨hd ▸ hm.1, hn ▸ hm.2⟩
  settle := fun hm hs => ⟨(hs _ ⟨hm.1, rfl⟩).1, hm.2⟩

/-- Any call of the volume leaves the faults, and what is shown. -/
theorem keeps_showing_change (t : Text) (p : Primitive) (x : VolumeAction α) :
    Keeps (Showing t) (drive (Drive.change p x)) := by
  intro m hm
  rw [after_drive]
  refine ⟨?_, hm.2⟩
  have hticked : (m.drive.ticked p).faults = [] :=
    (Drive.Settled.ticked (D := m.here) ⟨hm.1, rfl⟩ p).1
  rcases Drive.change_cases p x m.drive with ⟨e, hx⟩ | hx
  · rw [after_error hx]
    exact hticked
  · rw [after_congr hx, Drive.after_onVolume]
    exact hticked

/-- A rename is seen by nobody but the card. -/
theorem Shown.of_rename {x : Shell α} (hx : ∀ t, Keeps (Showing t) x) (h : Shown left m) :
    Shown (leftByRename m (x.after m) left) (x.after m) := by
  obtain ⟨hf, hn⟩ := hx m.directory m ⟨h.faultless, rfl⟩
  refine ⟨hf, ?_⟩
  rw [hn, h.directory, leftByRename]
  split
  · rename_i he
    rw [he]
  · rfl

theorem Shown.outcome_drive {x : DriveAction α} (hx : ∀ t, Keeps (Showing t) (drive x))
    (h : Shown left m) : ∃ r m', outcome (drive x) m = .ok r m' ∧ m'.drive.faults = [] := by
  have hf := (hx m.directory m ⟨h.faultless, rfl⟩).1
  obtain ⟨r, hr⟩ := Shell.outcome_drive x m
  rw [after_drive] at hf
  exact ⟨r, _, hr, hf⟩

/-- Taking the current directory over shows where the card is. -/
theorem refreshDirectory_of_faultless (h : m.drive.faults = []) :
    ∃ m', refreshDirectory m = .ok () m' ∧ Shown none m' := by
  have hask : Drive.currentDirectory m.drive = .ok m.here.text m.drive :=
    Drive.ask_of_faultless _ h rfl
  refine ⟨{ m with directory := m.here.text }, ?_, h, rfl⟩
  unfold refreshDirectory
  rw [bind_apply, outcome_ok (drive_ok hask)]
  rfl

section Lines

variable {run : Text → Shell Unit} {leftByLine : Text → Machine → Option Path → Option Path}

theorem Shown.runLines
    (hrun : ∀ line m left, Shown left m → Shown (leftByLine line m left) ((run line).after m))
    (path : Text) (n : Nat) (lines : List Text) (h : Shown left m) :
    Shown (leftByLines run leftByLine lines m left) ((Shell.runLines run path n lines).after m) := by
  induction lines generalizing m left n with
  | nil => exact h
  | cons line lines ih =>
    have hline := hrun line m left h
    rw [Shell.runLines, leftByLines]
    cases hx : run line m with
    | ok a m' =>
      rw [after_ok hx] at hline
      rw [after_bind_ok (outcome_ok hx)]
      exact ih (n + 1) hline
    | error halt m' =>
      rw [after_error hx] at hline
      cases halt with
      | stopped why =>
        rw [after_bind_error (outcome_stopped hx)]
        exact hline
      | failed e =>
        rw [after_bind_ok (outcome_failed hx)]
        refine hline.of_keeps fun t D => ?_
        exact keeps_bind ((stable_at t D).closed.print _) fun _ => keeps_fail e

theorem Shown.runBatch
    (hrun : ∀ line m left, Shown left m → Shown (leftByLine line m left) ((run line).after m))
    (path : Text) (h : Shown left m) :
    Shown (leftByBatch run leftByLine path m left) ((Shell.runBatch run path).after m) := by
  have hread := h.of_keeps fun t D => (stable_at t D).drive (Drive.quiet_readToEnd path)
  unfold Shell.runBatch leftByBatch
  cases hx : drive (Drive.readToEnd path) m with
  | ok bytes m' =>
    rw [after_ok hx] at hread
    rw [after_bind_ok hx]
    exact hread.runLines hrun path 1 _
  | error e m' =>
    rw [after_error hx] at hread
    rw [after_bind_error hx]
    exact hread

theorem Shown.changeDirectory (args : Text) (h : Shown left m) :
    Shown (leftByBuiltin run leftByLine .changeDirectory args m left)
      ((Builtin.changeDirectory.perform run args).after m) := by
  unfold leftByBuiltin
  rcases requiredWord_cases args m with ⟨hw, hreq⟩ | ⟨path, rest, hw, hreq⟩
  · have hafter : (Builtin.changeDirectory.perform run args).after m = m := after_bind_error hreq
    rw [hw, hafter]
    exact h
  · obtain ⟨r, m₁, hr, hf⟩ := h.outcome_drive (x := Drive.changeDirectory path)
      fun t => keeps_showing_change t _ _
    obtain ⟨m₂, hrefresh, hm₂⟩ := refreshDirectory_of_faultless hf
    have hafter : (Builtin.changeDirectory.perform run args).after m = (ofExcept r).after m₂ := by
      unfold Builtin.perform
      rw [after_bind_ok hreq]
      dsimp only
      rw [after_bind_ok hr, after_bind_ok hrefresh]
    rw [hw, hafter]
    exact keeps_ofExcept r m₂ hm₂

theorem Shown.mount (h : Shown left m) : Shown none (Shell.mount.after m) := by
  obtain ⟨r, m₁, hr, hf⟩ := h.outcome_drive (x := Drive.mount)
    fun t => keeps_showing_change t _ _
  unfold Shell.mount
  rw [after_bind_ok hr]
  cases r with
  | ok _ =>
    obtain ⟨m₂, hrefresh, hm₂⟩ := refreshDirectory_of_faultless hf
    exact after_ok hrefresh ▸ hm₂
  | error e =>
    obtain ⟨m₂, hrefresh, hm₂⟩ := refreshDirectory_of_faultless
      ((stable_showing m₁.directory).closed.print _ m₁ ⟨hf, rfl⟩).1
    have hafter : (report e >>= fun _ => refreshDirectory).after m₁ = m₂ := after_ok hrefresh
    exact hafter ▸ hm₂

theorem Stable.perform {P : Machine → Prop} (hP : Stable P) {b : Builtin} {args : Text}
    (hb : b.isQuiet = true) : Keeps P (b.perform run args) := by
  refine hP.closed.perform hb (fun _ => keeps_stop _) fun hs => ?_
  refine hP.closed.performSetter hs (fun _ => keeps_evaluate) fun _ => ?_
  exact keeps_modify fun _ hm => hP.frame hm rfl rfl

theorem Shown.perform
    (hrun : ∀ line m left, Shown left m → Shown (leftByLine line m left) ((run line).after m))
    (b : Builtin) (args : Text) (h : Shown left m) :
    Shown (leftByBuiltin run leftByLine b args m left) ((b.perform run args).after m) := by
  have hquiet : b.isQuiet = true → Shown left ((b.perform run args).after m) :=
    fun hb => h.of_keeps fun t D => (stable_at t D).perform hb
  cases b with
  | changeDirectory => exact h.changeDirectory args
  | mount => exact h.mount
  | rename =>
    exact h.of_rename fun t =>
      (stable_showing t).closed.performRename (fun _ _ => keeps_showing_change t .rename _) run args
  | batch =>
    unfold leftByBuiltin
    rcases requiredWord_cases args m with ⟨hw, hreq⟩ | ⟨path, rest, hw, hreq⟩
    · have hafter : (Builtin.batch.perform run args).after m = m := after_bind_error hreq
      rw [hw, hafter]
      exact h
    · have hafter : (Builtin.batch.perform run args).after m = (Shell.runBatch run path).after m := by
        unfold Builtin.perform
        rw [after_bind_ok hreq]
      rw [hw, hafter]
      exact h.runBatch hrun path
  | _ => exact hquiet rfl

end Lines

theorem Shown.runLineWithin (depth : Nat) (atPrompt : Bool) (line : Text) (h : Shown left m) :
    Shown (leftWithin depth line m left) ((Shell.runLineWithin depth atPrompt line).after m) := by
  induction depth generalizing atPrompt line m left with
  | zero => exact h
  | succ depth ih =>
    unfold leftWithin Shell.runLineWithin
    dsimp only
    split
    · exact h
    · rcases Arguments.nextWord (Arguments.trimLine line) with ⟨_ | word, args⟩
      · exact h
      · dsimp only
        rw [after_bind_ok (get_apply m)]
        cases (Record.resolve m.table word).bind Record.handler with
        | none => exact h.of_keeps fun t D => (stable_at t D).closed.runProgram word args atPrompt
        | some handler =>
          cases handler with
          | builtin b => exact h.perform (fun line m left => ih true line) b args
          | outside name status =>
            refine h.of_keeps fun t D => keeps_bind ((stable_at t D).closed.print _) fun _ => ?_
            cases Error.ofCode? status with
            | some e => exact keeps_fail e
            | none => exact keeps_pure ()

section Requests

def leftByRequest (m : Machine) (left : Option Path) : Request → Option Path
  | .line t _ | .runLine t => leftWithin maxDepth t m left
  | .rename src dst => leftByRename m ((Request.rename src dst).serve.after m) left
  | .changeDirectory _ => none
  | _ => left

/-- Where the first rename to move the current directory since it was last taken over has moved it
from; `none` if there was none. -/
def leftByAll (m : Machine) (left : Option Path) : List Request → Option Path
  | [] => left
  | r :: rs => leftByAll (r.serve.after m) (leftByRequest m left r) rs

theorem Shown.changeDirectoryCall (path : Text) (h : Shown left m) :
    Shown none ((Api.changeDirectory path).after m) := by
  obtain ⟨r, m₁, hr, hf⟩ := h.outcome_drive (x := Drive.changeDirectory path)
    fun t => keeps_showing_change t _ _
  obtain ⟨m₂, hrefresh, hm₂⟩ := refreshDirectory_of_faultless hf
  have hstatus : Api.status (drive (Drive.changeDirectory path)) m = .ok (statusOf r) m₁ := by
    unfold Api.status
    rw [bind_apply, hr]
    rfl
  unfold Api.changeDirectory
  rw [after_bind_ok hstatus, after_bind_ok hrefresh]
  exact hm₂

theorem Shown.serve (r : Request) (h : Shown left m) :
    Shown (leftByRequest m left r) (r.serve.after m) := by
  have hquiet : r.isQuiet = true → Shown left (r.serve.after m) :=
    fun hr => h.of_keeps fun t D => Request.keeps_serve (stable_at t D) hr
  cases r with
  | line t atPrompt => exact h.runLineWithin maxDepth atPrompt t
  | runLine t =>
    rw [Request.after_runLine]
    exact h.runLineWithin maxDepth false t
  | rename src dst =>
    exact h.of_rename fun t => keeps_map _
      (Api.closed_rename (stable_showing t).closed (fun _ _ => keeps_showing_change t .rename _) src dst)
  | changeDirectory path =>
    have hafter : (Request.changeDirectory path).serve.after m = (Api.changeDirectory path).after m :=
      after_discard _ m
    rw [hafter]
    exact h.changeDirectoryCall path
  | _ => exact hquiet rfl

theorem Shown.runAll (rs : List Request) (h : Shown left m) :
    Shown (leftByAll m left rs) (Request.runAll m rs) := by
  induction rs generalizing m left with
  | nil => exact h
  | cons r rs ih => exact ih (h.serve r)

/-- From a fresh machine on, whatever is asked of it, what the shell shows is where the current
directory was before a rename first moved it unseen. So it is right exactly where no rename has, or
where the current directory has come back. -/
theorem directory_shown (settings : Settings) (card : Volume) (table : List Record)
    (console : Console) (clock : Clock) (executor : Executor) (rs : List Request) :
    let boot := Machine.boot settings card table console clock executor
    let m := Request.runAll boot rs
    let left := leftByAll boot none rs
    m.directory = (left.getD m.here).text ∧
      (m.directory = m.drive.volume.currentDirectory ↔
        ∀ p ∈ left, p.text = m.drive.volume.currentDirectory) := by
  intro boot m left
  have hboot : Shown none boot := ⟨rfl, rfl⟩
  have hm : m.directory = (left.getD m.here).text := (hboot.runAll rs).directory
  refine ⟨hm, ?_⟩
  rw [hm]
  cases left with
  | none => exact ⟨fun _ p hp => (Option.not_mem_none p hp).elim, fun _ => rfl⟩
  | some p =>
    constructor
    · intro h q hq
      rw [← Option.some.inj hq]
      exact h
    · exact fun h => h p rfl

/-- The current directory is renamed, and shown by the name it had. -/
theorem directory_left_behind : ¬ ∀ (settings : Settings) (label : Text) (table : List Record)
    (console : Console) (clock : Clock) (executor : Executor) (rs : List Request),
    let m := Request.runAll
      (.boot settings (.labelled label) table console clock executor) rs
    m.directory = m.drive.volume.currentDirectory := by
  intro law
  have h := law {} [] Builtin.records {} (.hosted 0 0) .absent
    [.line "MKDIR a" true, .line "CD a" true, .line "REN /a /b" true]
  revert h
  decide +kernel

end Requests

end Shell

end CardShell
