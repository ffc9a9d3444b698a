import CardShell.Proofs.Shell.Stepwise

/-!
What the shell keeps as long as it calls the driver quietly: any property of the machine that
depends on the card and on the directory shown alone, and on the card only up to quiet calls.
-/

set_option autoImplicit false

namespace CardShell.Shell

open CardShell.Action

variable {α : Type} {P : Machine → Prop}

structure Stable (P : Machine → Prop) : Prop where
  frame : ∀ {m m'}, P m → m'.drive = m.drive → m'.directory = m.directory → P m'
  settle : ∀ {m d}, P m → (∀ D, Drive.Settled D m.drive → Drive.Settled D d) →
    P { m with drive := d }

namespace Stable

theorem drive (hP : Stable P) {x : DriveAction α} (hx : Drive.Quiet x) :
    Keeps P (Shell.drive x) := by
  intro m hm
  rw [after_drive]
  exact hP.settle hm fun D hd => hx D m.drive hd

theorem files (hP : Stable P) {x : FileTable.TableAction α} (hx : FileTable.Quiet x) :
    Keeps P (Shell.files x) := by
  refine keeps_zoom _ fun m hm => ?_
  have hs := hP.settle hm fun D hd => hx D (m.files, m.drive) hd
  exact hP.frame hs rfl rfl

theorem plain (hP : Stable P) {x : Shell α} (hx : Plain x) : Keeps P x := by
  intro m hm
  have hb := hx.beside m
  exact hP.frame hm hb.drive hb.directory

theorem stepwise (hP : Stable P) : Stepwise fun _ x => Keeps P x where
  plain := hP.plain
  bind := keeps_bind
  outcome := keeps_outcome
  closing := keeps_closing
  ask := keeps_ask fun _ _ hm => hP.frame hm rfl rfl
  drive := hP.drive
  heap := fun _ => keeps_zoom _ fun _ hm => hP.frame hm rfl rfl
  release := fun _ => keeps_modify fun _ hm => hP.frame hm rfl rfl

theorem closed (hP : Stable P) : Closed fun _ x => Keeps P x := hP.stepwise.closed

end Stable

end CardShell.Shell
