import CardShell.Proofs.Shell.Builtins
import CardShell.Proofs.Shell.Stepwise

/-!
Properties of computations that pass through every step, calls of the driver that are not quiet and
the change of the directory shown included. They hold of every built-in command, as far as they hold
of the commands that set variables and of the lines of a batch file.
-/

set_option autoImplicit false

namespace CardShell.Shell

open CardShell.Action

variable {C : (α : Type) → Shell α → Prop} {run : Text → Shell Unit}

structure Throughout (C : (α : Type) → Shell α → Prop) : Prop where
  stepwise : Stepwise C
  drive : ∀ {α : Type} (x : DriveAction α), C α (Shell.drive x)
  directory : ∀ path, C PUnit (modify fun m => { m with directory := path })

namespace Throughout

theorem closed (hC : Throughout C) : Closed C := hC.stepwise.closed

theorem refreshDirectory (hC : Throughout C) : C Unit Shell.refreshDirectory :=
  hC.closed.refreshDirectory hC.directory

theorem mount (hC : Throughout C) : C Unit Shell.mount := by
  refine hC.closed.bind (hC.closed.outcome (hC.drive _)) fun r => ?_
  cases r with
  | ok _ => exact hC.refreshDirectory
  | error e =>
    exact hC.closed.bind (hC.closed.plain (plain_report e)) fun _ => hC.refreshDirectory

theorem runLines (hC : Throughout C) (hrun : ∀ line, C Unit (run line)) (path : Text) (n : Nat)
    (lines : List Text) : C Unit (Shell.runLines run path n lines) := by
  induction lines generalizing n with
  | nil => exact hC.closed.pure _
  | cons line lines ih =>
    refine hC.closed.bind (hC.closed.outcome (hrun line)) fun r => ?_
    cases r with
    | ok _ => exact ih (n + 1)
    | error e => exact hC.closed.bind (hC.closed.print _) fun _ => hC.closed.fail e

theorem perform (hC : Throughout C) {b : Builtin} {args : Text}
    (hw : b = .listDirectory → C Unit (Shell.stop .tooWide))
    (hset : b.setsVariables = true → C Unit (b.perform run args))
    (hrun : b = .batch → ∀ line, C Unit (run line)) : C Unit (b.perform run args) := by
  have hquiet : b.isQuiet = true → C Unit (b.perform run args) := fun hb =>
    hC.closed.perform hb hw hset
  cases b with
  | changeDirectory =>
    exact hC.closed.performChangeDirectory hC.refreshDirectory (fun _ => hC.drive _) run args
  | mount => exact hC.mount
  | rename => exact hC.closed.performRename (fun _ _ => hC.drive _) run args
  | batch =>
    refine hC.closed.bind (hC.closed.plain (plain_required _)) fun path => ?_
    exact hC.closed.bind (hC.drive _) fun bytes => hC.runLines (hrun rfl) _ 1 _
  | _ => exact hquiet rfl

end Throughout

end CardShell.Shell
