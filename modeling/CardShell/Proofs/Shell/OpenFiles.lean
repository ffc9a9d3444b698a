import CardShell.Proofs.FileTable.Backed
import CardShell.Proofs.Shell.Apart
import CardShell.Proofs.Shell.Balance

/-!
The files that programs have open, from one request to the next. A line leaves the file table alone,
and what it opens on the card it closes again; but a mount closes all files on the card, and the
table keeps their handles until they are closed by number.
-/

set_option autoImplicit false

namespace CardShell.Shell

open CardShell.Action FileTable Volume

variable {α : Type} {m : Machine} {t : FileTable} {lost : List Nat}

def Holding (t : FileTable) (m : Machine) : Prop := m.files = t

theorem apart_holding (t : FileTable) : Apart (Holding t) := fun _ _ hm hfiles _ => hfiles.trans hm

theorem closed_holding (t : FileTable) : Closed fun _ x => Keeps (Holding t) x :=
  (apart_holding t).closed

theorem holding_setters : KeptBySetters (Holding t) := fun _ hb _ _ =>
  (closed_holding t).performSetter hb (fun _ => keeps_evaluate) fun _ => keeps_modify fun _ hm => hm

/-- How table and card stand to each other, where the handles in `lost` have been lost. -/
def Kept (lost : List Nat) (m : Machine) : Prop := Backed lost (m.files, m.drive)

/-- A line that mounts the card loses the handles that are in the table then. -/
def lostByLine (m : Machine) (lost : List Nat) (line : Text) : List Nat :=
  if (performed line m).any Invocation.mounts then m.files.handles ++ lost else lost

def lostByRequest (m : Machine) (lost : List Nat) : Request → List Nat
  | .line t _ | .runLine t => lostByLine m lost t
  | _ => lost

/-- The handles that have been in the table as the card was mounted. -/
def lostByAll (m : Machine) (lost : List Nat) : List Request → List Nat
  | [] => lost
  | r :: rs => lostByAll (r.serve.after m) (lostByRequest m lost r) rs

/-- The books to be kept where the table is left alone. -/
def accountOf (lost : List Nat) (m : Machine) : Account := ⟨m.heap, tally lost (m.files, m.drive)⟩

theorem Kept.books (h : Kept lost m) : Books (accountOf lost m) m := ⟨.refl m.heap, h.tallied⟩

theorem Kept.of_balanced {x : Shell α} (hb : Balanced x) (hf : ∀ t, Keeps (Holding t) x)
    (h : Kept lost m) : Kept lost (x.after m) := by
  have hfiles : (x.after m).files = m.files := hf m.files m rfl
  rw [Kept, hfiles]
  exact h.of_tallied (hb _ m h.books).drive

theorem Kept.execute (line : Text) (atPrompt : Bool) (h : Kept lost m) :
    Kept (lostByLine m lost line) ((Shell.execute line atPrompt).after m) := by
  have hfiles : ((Shell.execute line atPrompt).after m).files = m.files :=
    (apart_holding m.files).throughout.runLineWithin holding_setters maxDepth atPrompt line m rfl
  have hbooks : Books ((accountOf lost m).through (performed line m))
      ((Shell.execute line atPrompt).after m) := runLineWithin_books maxDepth atPrompt line h.books
  unfold Kept lostByLine
  rw [hfiles]
  unfold Account.through at hbooks
  split at hbooks
  · rename_i hmounts
    rw [if_pos hmounts]
    exact h.of_cleared hbooks.drive
  · rename_i hmounts
    rw [if_neg hmounts]
    exact h.of_tallied hbooks.drive

theorem kept_files {x : TableAction α} (hx : Keeps (Backed lost) x) : Keeps (Kept lost) (files x) :=
  keeps_zoom _ fun m hm => hx (m.files, m.drive) hm

theorem kept_openFile (path : Text) (mode : UInt8) : Keeps (Kept lost) (Api.openFile path mode) := by
  refine keeps_bind (keeps_outcome (kept_files (backed_openFile path ⟨mode⟩))) fun r => ?_
  cases r with
  | ok n => exact keeps_pure _
  | error e => exact keeps_pure _

theorem kept_closeFile (number : UInt8) : Keeps (Kept lost) (Api.closeFile number) :=
  keeps_bind (keeps_map _ (keeps_outcome (kept_files (backed_close number)))) fun _ => keeps_pure _

theorem Kept.changeDirectory (path : Text) (h : Kept lost m) :
    Kept lost ((Api.changeDirectory path).after m) := by
  refine h.of_balanced (fun A => ?_) fun t => ?_
  · refine keeps_bind (Api.closed_status closed_balanced ?_ A) fun _ => ?_
    · exact balanced_drive (Drive.steady_changeDirectory path)
    · exact keeps_bind (balanced_refreshDirectory A) fun _ => keeps_pure _
  · exact (apart_holding t).throughout.changeDirectory path

theorem Kept.serve (r : Request) (h : Kept lost m) :
    Kept (lostByRequest m lost r) (r.serve.after m) := by
  have hordinary : r.isOrdinary = true → Kept lost (r.serve.after m) := fun hr =>
    h.of_balanced (Request.closed_serve closed_balanced (fun _ => keeps_stop _) hr)
      fun t => Request.closed_serve (closed_holding t) (keeps_stop _) hr
  cases r with
  | line t atPrompt => exact h.execute t atPrompt
  | runLine t =>
    rw [Request.after_runLine]
    exact h.execute t false
  | rename src dst =>
    refine h.of_balanced (fun A => keeps_map _ ?_) fun t => keeps_map _ ?_
    · exact Api.closed_rename closed_balanced
        (fun a b => balanced_drive (Drive.steady_rename a b)) src dst A
    · exact (apart_holding t).throughout.rename src dst
  | changeDirectory path =>
    have hafter : (Request.changeDirectory path).serve.after m = (Api.changeDirectory path).after m :=
      after_discard _ m
    rw [hafter]
    exact h.changeDirectory path
  | openFile path mode => exact keeps_map _ (kept_openFile path mode) m h
  | closeFile number => exact keeps_map _ (kept_closeFile number) m h
  | _ => exact hordinary rfl

theorem Kept.runAll (rs : List Request) (h : Kept lost m) :
    Kept (lostByAll m lost rs) (Request.runAll m rs) := by
  induction rs generalizing m lost with
  | nil => exact h
  | cons r rs ih => exact ih (h.serve r)

/-- From a fresh machine on, whatever is asked of it and whether or not the driver fails, as long as
no handle has come again: no two slots of the file table have the same handle, and what is open on
the card are the files in the table, less those whose handles a mount has lost. So table and card
agree exactly where none of these is left in the table. -/
theorem open_files_of_requests (settings : Settings) (label : Text) (ops : List Operation)
    (table : List Record) (console : Console) (clock : Clock) (executor : Executor)
    (faults : List Fault) (portions : List Nat) (rs : List Request)
    (hclosed : ((labelled label).runAll ops).openFileCount = 0) :
    let card := (labelled label).runAll ops
    let boot := { Machine.boot settings card table console clock executor with
      drive := ⟨card, faults, portions⟩ }
    let m := Request.runAll boot rs
    let lost := lostByAll boot [] rs
    m.drive.volume.issued < handleLimit →
      m.files.handles.Nodup ∧
      (∀ h, m.drive.volume.files.has h = true ↔ h ∈ m.files.handles ∧ h ∉ lost) ∧
      (m.files.openCount = m.drive.volume.openFileCount ↔ ∀ h ∈ m.files.handles, h ∉ lost) := by
  intro card boot m lost hissued
  have hnum : card.Numbered := numbered_runAll ops (numbered_labelled label)
  have hboot : Kept [] boot := backed_empty settings.storage.maxOpenFiles hnum hclosed
  have hm : Backed lost (m.files, m.drive) := hboot.runAll rs
  exact ⟨hm.distinct hissued, hm.has_iff hissued, hm.openCount_eq_iff hissued⟩

/-- A file is opened before a mount and again after it: the table has two handles for one open file. -/
theorem open_files_of_requests_through_mount :
    let card := (labelled []).runAll [.writeFile "/a" (Text.bytes "x")]
    let boot := { Machine.boot {} card Builtin.records {} (.hosted 0 0) .absent with
      drive := ⟨card, [⟨.read, 0, 1⟩], []⟩ }
    let m := Request.runAll boot [.openFile "/a" 1, .line "MOUNT" true, .openFile "/a" 1]
    m.drive.volume.issued < handleLimit ∧ m.files.handles.Nodup ∧
      (∀ h, m.drive.volume.files.has h = true ↔ h ∈ m.files.handles ∧ h ∉ [2]) ∧
      m.files.openCount ≠ m.drive.volume.openFileCount := by
  intro card boot m
  have hissued : m.drive.volume.issued < handleLimit := by decide +kernel
  have hlost : lostByAll boot [] [.openFile "/a" 1, .line "MOUNT" true, .openFile "/a" 1] = [2] := by
    decide +kernel
  have hmem : 2 ∈ m.files.handles := by decide +kernel
  have h := open_files_of_requests {} [] [.writeFile "/a" (Text.bytes "x")] Builtin.records {}
    (.hosted 0 0) .absent [⟨.read, 0, 1⟩] [] [.openFile "/a" 1, .line "MOUNT" true, .openFile "/a" 1]
    (by decide +kernel) hissued
  rw [hlost] at h
  exact ⟨hissued, h.1, h.2.1, fun he => h.2.2.mp he 2 hmem (List.mem_singleton.mpr rfl)⟩

/-- The card is mounted while a program has a file open: the table still counts it. -/
theorem open_files_left_behind : ¬ ∀ (settings : Settings) (label : Text) (ops : List Operation)
    (table : List Record) (console : Console) (clock : Clock) (executor : Executor)
    (rs : List Request), settings.storage.maxOpenFiles ≤ 255 →
    let card := (labelled label).runAll ops
    let m := Request.runAll (.boot settings card table console clock executor) rs
    card.openFileCount = 0 →
      m.files.handles.Nodup ∧
      (∀ h, m.drive.volume.files.has h = true ↔ h ∈ m.files.handles) ∧
      m.files.openCount = m.drive.volume.openFileCount := by
  intro law
  have h := (law {} [] [.writeFile "/a" (Text.bytes "x")] Builtin.records {} (.hosted 0 0) .absent
    [.openFile "/a" 1, .line "MOUNT" true] (by decide) (by decide +kernel)).2.2
  revert h
  decide +kernel

end CardShell.Shell
