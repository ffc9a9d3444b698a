import CardShell.FileTable
import CardShell.Proofs.Drive.Calls

/-!
Calls that leave the current directory where it is. Only a change of directory, a mount and a
rename can move it; every other call of the volume, of the driver and of the file table is quiet.
-/

set_option autoImplicit false

namespace CardShell

open CardShell.Action

variable {α β : Type}

namespace Volume

/-- The current directory is the same afterwards, whatever happens. -/
def Quiet (x : VolumeAction α) : Prop := ∀ D, Keeps (fun v => v.directory = D) x

theorem directory_updateFile (v : Volume) (h : Nat) (f : OpenFile → OpenFile) :
    (v.updateFile h f).directory = v.directory := by
  unfold updateFile
  split <;> rfl

theorem directory_updateNode (v : Volume) (key : Path) (f : Node → Node) :
    (v.updateNode key f).directory = v.directory := by
  unfold updateNode
  split <;> rfl

theorem quiet_makeDirectory (typed : Text) : Quiet (makeDirectory typed) := by
  intro D v hv
  rcases makeDirectory_cases typed v with ⟨e, hx⟩ | ⟨p, stored, _, _, _, hx⟩
  · rw [after_error hx]
    exact hv
  · rw [after_ok hx]
    exact hv

theorem quiet_unlink (typed : Text) : Quiet (unlink typed) := by
  intro D v hv
  rcases unlink_cases typed v with ⟨e, hx⟩ | ⟨key, n, _, _, _, _, _, hx⟩
  · rw [after_error hx]
    exact hv
  · rw [after_ok hx]
    exact hv

theorem quiet_openFile (typed : Text) (mode : OpenMode) : Quiet (openFile typed mode) := by
  intro D v hv
  rcases openFile_cases typed mode v with ⟨e, hx⟩ | ⟨p, w, _, hw, hx⟩
  · rw [after_error hx]
    exact hv
  · have hdir : w.directory = D := by
      rcases prepare_cases hw with ⟨n, _, _, _, _, rfl⟩ | ⟨stored, _, _, _, rfl⟩
      · split
        · rw [directory_updateNode, hv]
        · exact hv
      · exact hv
    rcases hx with ⟨e, _, _, hx⟩ | ⟨position, _, hx⟩
    · rw [after_error hx]
      exact hdir
    · rw [after_ok hx]
      exact hdir

theorem quiet_closeFile (h : Nat) : Quiet (closeFile h) := by
  intro D v hv
  rcases closeFile_cases h v with hx | ⟨_, hx⟩
  · rw [after_error hx]
    exact hv
  · rw [after_ok hx]
    exact hv

theorem quiet_read (h count : Nat) : Quiet (read h count) := by
  intro D v hv
  rcases read_cases h count v with ⟨e, hx⟩ | ⟨f, data, _, _, _, hx⟩
  · rw [after_error hx]
    exact hv
  · rw [after_ok hx, directory_updateFile, hv]

theorem quiet_write (h : Nat) (bytes : List UInt8) : Quiet (write h bytes) := by
  intro D v hv
  rcases write_cases h bytes v with ⟨e, hx⟩ | ⟨f, data, _, _, _, hx⟩
  · rw [after_error hx]
    exact hv
  · rw [after_ok hx, directory_updateFile, directory_updateNode, hv]

theorem quiet_seek (h offset : Nat) : Quiet (seek h offset) := by
  intro D v hv
  rcases seek_cases h offset v with ⟨e, hx⟩ | ⟨f, data, _, _, ⟨_, _, hx⟩ | ⟨_, hx⟩⟩
  · rw [after_error hx]
    exact hv
  · rw [after_ok hx, directory_updateFile, directory_updateNode, hv]
  · rw [after_ok hx, directory_updateFile, hv]

theorem quiet_openListing (typed : Text) : Quiet (openListing typed) := by
  intro D v hv
  rcases openListing_cases typed v with ⟨e, hx⟩ | ⟨key, n, _, _, hx⟩
  · rw [after_error hx]
    exact hv
  · rw [after_ok hx]
    exact hv

theorem quiet_readListing (h : Nat) : Quiet (readListing h) := by
  intro D v hv
  rcases readListing_cases h v with hx | ⟨_, hx⟩ | ⟨e, es, _, hx⟩
  · rw [after_error hx]
    exact hv
  · rw [after_ok hx]
    exact hv
  · rw [after_ok hx]
    exact hv

theorem quiet_closeListing (h : Nat) : Quiet (closeListing h) := by
  intro D v hv
  rcases closeListing_cases h v with hx | ⟨_, hx⟩
  · rw [after_error hx]
    exact hv
  · rw [after_ok hx]
    exact hv

end Volume

namespace Drive

/-- No fault is set, and the current directory is `D`. -/
def Settled (D : Path) (d : Drive) : Prop := d.faults = [] ∧ d.volume.directory = D

def Quiet (x : DriveAction α) : Prop := ∀ D, Keeps (Settled D) x

theorem lasting_faultless : Lasting fun fs => fs = [] := by
  rintro p _ rfl
  rfl

theorem Settled.ticked {D : Path} {d : Drive} (h : Settled D d) (p : Primitive) :
    Settled D (d.ticked p) := ⟨lasting_faultless p _ h.1, h.2⟩

theorem quiet_of_within {x : DriveAction α}
    (h : ∀ D, Keeps (Within (fun fs => fs = []) fun v => v.directory = D) x) : Quiet x := h

theorem quiet_pure (a : α) : Quiet (pure a) := fun _ => keeps_pure a

theorem quiet_bind {x : DriveAction α} {f : α → DriveAction β} (hx : Quiet x)
    (hf : ∀ a, Quiet (f a)) : Quiet (x >>= f) :=
  fun D => keeps_bind (hx D) fun a => hf a D

theorem quiet_outcome {x : DriveAction α} (hx : Quiet x) :
    Quiet (outcome x : DriveAction (Except Error α)) := fun D => keeps_outcome (hx D)

theorem quiet_ask (p : Primitive) (f : Volume → Except Error α) : Quiet (ask p f) :=
  quiet_of_within fun _ => keeps_ask lasting_faultless p f

theorem quiet_change (p : Primitive) {x : VolumeAction α} (hx : Volume.Quiet x) :
    Quiet (change p x) := quiet_of_within fun D => keeps_change lasting_faultless p (hx D)

theorem quiet_release (p : Primitive) {x : VolumeAction Unit} (hx : Volume.Quiet x) :
    Quiet (release p x) := quiet_of_within fun D => keeps_release lasting_faultless p (hx D)

theorem quiet_label : Quiet label := quiet_ask _ _

theorem quiet_makeDirectory (path : Text) : Quiet (makeDirectory path) :=
  quiet_change _ (Volume.quiet_makeDirectory path)

theorem quiet_unlink (path : Text) : Quiet (unlink path) :=
  quiet_change _ (Volume.quiet_unlink path)

theorem quiet_openFile (path : Text) (mode : OpenMode) : Quiet (openFile path mode) :=
  quiet_change _ (Volume.quiet_openFile path mode)

theorem quiet_closeFile (h : Nat) : Quiet (closeFile h) :=
  quiet_release _ (Volume.quiet_closeFile h)

theorem quiet_read (h count : Nat) : Quiet (read h count) :=
  quiet_of_within fun D =>
    keeps_read lasting_faultless (fun count => Volume.quiet_read h count D) count

theorem quiet_write (h : Nat) (bytes : List UInt8) : Quiet (write h bytes) :=
  quiet_of_within fun D =>
    keeps_write lasting_faultless (fun bytes => Volume.quiet_write h bytes D) bytes

theorem quiet_seek (h offset : Nat) : Quiet (seek h offset) :=
  quiet_change _ (Volume.quiet_seek h offset)

theorem quiet_atEnd (h : Nat) : Quiet (atEnd h) := quiet_ask _ _

theorem quiet_fileSize (h : Nat) : Quiet (fileSize h) := quiet_ask _ _

theorem quiet_openListing (path : Text) : Quiet (openListing path) :=
  quiet_change _ (Volume.quiet_openListing path)

theorem quiet_readListing (h : Nat) : Quiet (readListing h) :=
  quiet_of_within fun D => keeps_readListing lasting_faultless (Volume.quiet_readListing h D)

theorem quiet_closeListing (h : Nat) : Quiet (closeListing h) :=
  quiet_release _ (Volume.quiet_closeListing h)

theorem quiet_findNext (h : Nat) (pattern : Text) : Quiet (findNext h pattern) :=
  quiet_of_within fun D => keeps_findNext lasting_faultless (Volume.quiet_readListing h D) pattern

theorem quiet_isDirectory (path : Text) : Quiet (isDirectory path) :=
  quiet_of_within fun _ => keeps_isDirectory lasting_faultless path

theorem quiet_withFile (path : Text) (mode : OpenMode) {body : Nat → DriveAction α}
    (hb : ∀ h, Quiet (body h)) : Quiet (withFile path mode body) :=
  quiet_bind (quiet_openFile path mode) fun h D => keeps_closing (quiet_closeFile h D) (hb h D)

theorem quiet_readToEnd (path : Text) : Quiet (readToEnd path) := by
  refine quiet_withFile path .read fun h => quiet_bind (fun _ => keeps_get) fun _ => ?_
  exact quiet_of_within fun D =>
    keeps_readRest lasting_faultless (fun count => Volume.quiet_read h count D) _

end Drive

namespace FileTable

/-- The card below the table is settled. -/
def Quiet (x : TableAction α) : Prop := ∀ D, Keeps (fun s => Drive.Settled D s.2) x

theorem quiet_onDrive {x : DriveAction α} (hx : Drive.Quiet x) : Quiet (onDrive x) :=
  fun D => keeps_zoom id fun s hs => hx D s.2 hs

theorem quiet_closeEach (hs : List Nat) : Drive.Quiet (closeEach hs) := by
  induction hs with
  | nil => exact Drive.quiet_pure ()
  | cons h hs ih =>
    refine Drive.quiet_bind (Drive.quiet_outcome (Drive.quiet_closeFile h)) fun first => ?_
    refine Drive.quiet_bind (Drive.quiet_outcome ih) fun rest => ?_
    exact Drive.quiet_bind (fun _ => keeps_ofExcept first) fun _ _ => keeps_ofExcept rest

theorem quiet_openFile (path : Text) (mode : OpenMode) : Quiet (openFile path mode) := by
  intro D
  refine keeps_bind keeps_get fun s => ?_
  cases s.1.free? with
  | none => exact keeps_throw _
  | some i =>
    refine keeps_bind (quiet_onDrive (Drive.quiet_openFile path mode) D) fun h => ?_
    exact keeps_bind (keeps_modify fun _ hs => hs) fun _ => keeps_pure _

theorem quiet_close (number : UInt8) : Quiet (close number) := by
  intro D
  refine keeps_bind keeps_get fun s => ?_
  apply keeps_ite
  · cases s.1.at? (number.toNat - 1) with
    | none => exact keeps_pure _
    | some h =>
      refine keeps_bind (keeps_modify fun _ hs => hs) fun _ => ?_
      exact quiet_onDrive (Drive.quiet_closeFile h) D
  · refine keeps_bind (keeps_modify fun _ hs => hs) fun _ => ?_
    exact quiet_onDrive (quiet_closeEach _) D

end FileTable

end CardShell
