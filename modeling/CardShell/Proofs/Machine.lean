import CardShell.Machine
import CardShell.Proofs.Drive

/-!
Steps of the shell on one part of the machine: the rest stays as it is, and an error of the part is
a failure of the shell.
-/

set_option autoImplicit false

namespace CardShell.Shell

open CardShell.Action

variable {α : Type} {m m' : Machine} {a : α} {e : Error}

theorem drive_ok {x : DriveAction α} {d : Drive} (h : x m.drive = .ok a d) :
    drive x m = .ok a { m with drive := d } := by
  unfold drive on zoom
  rw [h]

theorem drive_error {x : DriveAction α} {d : Drive} (h : x m.drive = .error e d) :
    drive x m = .error (.failed e) { m with drive := d } := by
  unfold drive on zoom
  rw [h]

theorem heap_ok {x : Action Error Heap α} {h : Heap} (hx : x m.heap = .ok a h) :
    heap x m = .ok a { m with heap := h } := by
  unfold heap on zoom
  rw [hx]

theorem heap_error {x : Action Error Heap α} {h : Heap} (hx : x m.heap = .error e h) :
    heap x m = .error (.failed e) { m with heap := h } := by
  unfold heap on zoom
  rw [hx]

theorem after_drive (x : DriveAction α) (m : Machine) :
    (drive x).after m = { m with drive := x.after m.drive } := after_zoom _ _ _ x m

theorem drive_ok_inv {x : DriveAction α} (h : drive x m = .ok a m') :
    ∃ d, x m.drive = .ok a d ∧ m' = { m with drive := d } := by
  cases hx : x m.drive with
  | ok b d =>
    rw [drive_ok hx] at h
    cases h
    exact ⟨d, rfl, rfl⟩
  | error e d =>
    rw [drive_error hx] at h
    cases h

/-- The file does not open, or `body` runs on its handle, which is closed in the end. -/
theorem withFile_cases (path : Text) (mode : OpenMode) (body : Nat → Shell α) (m : Machine) :
    (∃ e d, Drive.openFile path mode m.drive = .error e d ∧
      withFile path mode body m = .error (.failed e) { m with drive := d }) ∨
    ∃ h d, Drive.openFile path mode m.drive = .ok h d ∧
      withFile path mode body m =
        closing (drive (Drive.closeFile h)) (body h) { m with drive := d } := by
  unfold withFile
  rw [bind_apply]
  cases hx : Drive.openFile path mode m.drive with
  | ok h d => exact Or.inr ⟨h, d, rfl, by rw [drive_ok hx]⟩
  | error e d => exact Or.inl ⟨e, d, rfl, by rw [drive_error hx]⟩

theorem askMemory_ok {f : Memory → Except Error α} (h : f m.memory = .ok a) :
    askMemory f m = .ok a m := by
  unfold askMemory ofExcept
  rw [bind_apply, get_apply]
  simp only
  rw [h]
  rfl

theorem askMemory_error {f : Memory → Except Error α} (h : f m.memory = .error e) :
    askMemory f m = .error (.failed e) m := by
  unfold askMemory ofExcept
  rw [bind_apply, get_apply]
  simp only
  rw [h]
  rfl

theorem outcome_ok {x : Shell α} (h : x m = .ok a m') : outcome x m = .ok (.ok a) m' := by
  rw [outcome, h]

theorem outcome_ok_inv {x : Shell α} (h : outcome x m = .ok (.ok a) m') : x m = .ok a m' := by
  unfold outcome at h
  split at h <;> cases h
  assumption

theorem outcome_failed {x : Shell α} (h : x m = .error (.failed e) m') :
    outcome x m = .ok (.error e) m' := by
  rw [outcome, h]

theorem outcome_stopped {x : Shell α} {why : Stop} (h : x m = .error (.stopped why) m') :
    outcome x m = .error (.stopped why) m' := by
  rw [outcome, h]

/-- A call of the driver always comes to a value, and changes the card alone. -/
theorem outcome_drive (x : DriveAction α) (m : Machine) :
    ∃ r, outcome (drive x) m = .ok r { m with drive := x.after m.drive } := by
  cases hx : x m.drive with
  | ok a d =>
    rw [after_ok hx]
    exact ⟨.ok a, outcome_ok (drive_ok hx)⟩
  | error e d =>
    rw [after_error hx]
    exact ⟨.error e, outcome_failed (drive_error hx)⟩

theorem after_outcome (x : Shell α) (m : Machine) : (outcome x).after m = x.after m := by
  unfold Action.after
  cases hx : x m with
  | ok a t => rw [outcome_ok hx]
  | error e t => cases e with
    | failed e => rw [outcome_failed hx]
    | stopped why => rw [outcome_stopped hx]

variable {P : Machine → Prop}

theorem keeps_fail (e : Error) : Keeps P (fail e : Shell α) := keeps_throw _

theorem keeps_stop (why : Stop) : Keeps P (stop why : Shell α) := keeps_throw _

theorem keeps_ofExcept (x : Except Error α) : Keeps P (ofExcept x) := Action.keeps_ofExcept _

theorem keeps_askMemory (f : Memory → Except Error α) : Keeps P (askMemory f) :=
  keeps_bind keeps_get fun _ => keeps_ofExcept _

theorem keeps_outcome {x : Shell α} (hx : Keeps P x) : Keeps P (outcome x) := by
  intro m hm
  rw [after_outcome]
  exact hx m hm

end CardShell.Shell
