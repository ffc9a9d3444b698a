import CardShell.Proofs.Drive.Calls
import CardShell.Proofs.Volume.Handles

/-!
The handles behind the driver. Faults or not, a call that neither opens nor closes leaves what is
open as it is, and a close gives its handle back.
-/

set_option autoImplicit false

namespace CardShell.Drive

open CardShell.Action Volume

variable {α β : Type}

/-- The tally is right for the volume behind the driver. -/
def Tallied (T : Tally) (d : Drive) : Prop := T.Holds d.volume

/-- The same handles are open afterwards, whatever happens. -/
def Steady (x : DriveAction α) : Prop := ∀ T, Keeps (Tallied T) x

theorem lasting_any : Lasting fun _ => True := fun _ _ h => h

theorem steady_of_within {x : DriveAction α}
    (h : ∀ T : Tally, Keeps (Within (fun _ => True) T.Holds) x) : Steady x :=
  fun T d hd => (h T d ⟨trivial, hd⟩).2

theorem steady_ask (p : Primitive) (f : Volume → Except Error α) : Steady (ask p f) :=
  steady_of_within fun _ => keeps_ask lasting_any p f

theorem steady_change (p : Primitive) {x : VolumeAction α} (hx : Volume.Steady x) :
    Steady (change p x) := steady_of_within fun T => keeps_change lasting_any p (hx T)

theorem steady_changeDirectory (path : Text) : Steady (changeDirectory path) :=
  steady_change _ (Volume.steady_changeDirectory path)

theorem steady_makeDirectory (path : Text) : Steady (makeDirectory path) :=
  steady_change _ (Volume.steady_makeDirectory path)

theorem steady_unlink (path : Text) : Steady (unlink path) :=
  steady_change _ (Volume.steady_unlink path)

theorem steady_rename (source target : Text) : Steady (rename source target) :=
  steady_change _ (Volume.steady_rename source target)

theorem steady_read (h count : Nat) : Steady (read h count) :=
  steady_of_within fun T =>
    keeps_read lasting_any (fun count => Volume.steady_read h count T) count

theorem steady_write (h : Nat) (bytes : List UInt8) : Steady (write h bytes) :=
  steady_of_within fun T =>
    keeps_write lasting_any (fun bytes => Volume.steady_write h bytes T) bytes

theorem steady_seek (h offset : Nat) : Steady (seek h offset) :=
  steady_change _ (Volume.steady_seek h offset)

theorem steady_readListing (h : Nat) : Steady (readListing h) :=
  steady_of_within fun T => keeps_readListing lasting_any (Volume.steady_readListing h T)

theorem steady_findNext (h : Nat) (pattern : Text) : Steady (findNext h pattern) :=
  steady_of_within fun T => keeps_findNext lasting_any (Volume.steady_readListing h T) pattern

theorem steady_isDirectory (path : Text) : Steady (isDirectory path) :=
  steady_of_within fun _ => keeps_isDirectory lasting_any path

/-- Faults do not break a bracket: a close gives the handle back even as it fails. -/
theorem brackets_change {enter : VolumeAction β} {leave : β → VolumeAction Unit}
    (h : Brackets Tally.Holds enter leave) (p q : Primitive) :
    Brackets Tallied (change p enter) fun b => release q (leave b) := by
  intro T d hd
  have hv := h T d.volume hd
  rcases change_results p enter d with ⟨e, hx⟩ | ⟨e, w, hy, hx⟩ | ⟨b, w, hy, hx⟩
  · rw [hx]
    exact hd
  · rw [hy] at hv
    rw [hx]
    exact hv
  · rw [hy] at hv
    obtain ⟨U, hU, hback⟩ := hv
    rw [hx]
    refine ⟨U, hU, fun u hu => ?_⟩
    rw [after_release]
    exact hback u.volume hu

/-- A file that opens gets the next handle; where none opens, all is as it was. -/
theorem openFile_tallied {T : Tally} {d : Drive} (hd : Tallied T d) (path : Text) (mode : OpenMode) :
    match openFile path mode d with
    | .ok k u => k = d.volume.nextHandle ∧ Tallied (T.withFile (d.volume.issued + 1) k) u
    | .error _ u => Tallied T u := by
  have hv := Volume.openFile_holds path mode hd
  unfold openFile
  rcases change_results .openFile (Volume.openFile path mode) d with
    ⟨e, hx⟩ | ⟨e, w, hy, hx⟩ | ⟨k, w, hy, hx⟩
  · rw [hx]
    exact hd
  · rw [hy] at hv
    rw [hx]
    exact hv
  · rw [hy] at hv
    rw [hx]
    exact hv

theorem brackets_openFile (path : Text) (mode : OpenMode) :
    Brackets Tallied (openFile path mode) closeFile :=
  brackets_change (Volume.brackets_openFile path mode) _ _

theorem brackets_openListing (path : Text) :
    Brackets Tallied (openListing path) closeListing :=
  brackets_change (Volume.brackets_openListing path) _ _

theorem steady_readToEnd (path : Text) : Steady (readToEnd path) := by
  intro T
  refine (brackets_openFile path .read).keeps (fun h U => ?_) T
  refine keeps_bind keeps_get fun _ => ?_
  exact steady_of_within (fun V =>
    keeps_readRest lasting_any (fun count => Volume.steady_read h count V) _) U

end CardShell.Drive
