import CardShell.Api
import CardShell.Proofs.Shell.Builtins
import CardShell.Proofs.Shell.Stable

/-!
What is asked of the machine from outside, one request after the other: a line to run, or a call
of a loaded program. Most calls are put together as commands are, and most requests are quiet.
-/

set_option autoImplicit false

namespace CardShell

namespace Api

open CardShell.Action Shell

variable {α : Type} {C : (α : Type) → Shell α → Prop}

theorem closed_status (hC : Closed C) {x : Shell α} (hx : C α x) : C _ (status x) :=
  hC.bind (hC.outcome hx) fun _ => hC.pure _

theorem closed_orElse (hC : Closed C) {default : α} {x : Shell α} (hx : C α x) :
    C _ (orElse default x) := by
  refine hC.bind (hC.outcome hx) fun r => ?_
  cases r with
  | ok a => exact hC.pure _
  | error e => exact hC.pure _

theorem closed_handle (hC : Closed C) (number : UInt8) : C _ (handle number) :=
  hC.bind hC.get fun _ => hC.ofExcept _

theorem closed_rename (hC : Closed C) (hr : ∀ a b, C _ (drive (Drive.rename a b)))
    (src dst : Text) : C _ (Api.rename src dst) := closed_status hC (hC.rename hr src dst false)

theorem closed_openFile (hC : Closed C) {path : Text} {mode : UInt8}
    (hx : C _ (files (FileTable.openFile path ⟨mode⟩))) : C _ (Api.openFile path mode) :=
  closed_orElse hC hx

theorem closed_closeFile (hC : Closed C) {number : UInt8}
    (hx : C _ (files (FileTable.close number))) : C _ (Api.closeFile number) :=
  hC.bind (hC.map _ (hC.outcome hx)) fun _ => hC.pure _

theorem closed_getByte (hC : Closed C) (number : UInt8) : C _ (Api.getByte number) := by
  refine closed_orElse hC (hC.bind (closed_handle hC number) fun h => ?_)
  refine hC.bind (hC.drive (Drive.quiet_read h 1) (Drive.steady_read h 1)) fun bytes => ?_
  exact hC.bind (hC.drive (Drive.quiet_atEnd h) (Drive.steady_ask _ _)) fun _ => hC.pure _

theorem closed_putByte (hC : Closed C) (number byte : UInt8) : C _ (Api.putByte number byte) := by
  refine closed_status hC (hC.bind (closed_handle hC number) fun h => ?_)
  refine hC.bind (hC.drive (Drive.quiet_write h [byte]) (Drive.steady_write h [byte])) fun count => ?_
  exact hC.ite (hC.fail _) (hC.pure _)

theorem closed_read (hC : Closed C) (number : UInt8) (address count : Nat) :
    C _ (Api.read number address count) := by
  refine closed_orElse hC (hC.bind (closed_handle hC number) fun h => ?_)
  refine hC.bind (hC.askMemory _) fun i => ?_
  refine hC.bind (hC.drive (Drive.quiet_read h count) (Drive.steady_read h count)) fun bytes => ?_
  exact hC.bind (hC.plain (plain_modify fun _ => .of_console rfl rfl rfl rfl rfl rfl)) fun _ => hC.pure _

theorem closed_write (hC : Closed C) (number : UInt8) (address count : Nat) :
    C _ (Api.write number address count) := by
  refine closed_orElse hC (hC.bind (closed_handle hC number) fun h => ?_)
  refine hC.bind (hC.askMemory _) fun bytes => ?_
  exact hC.drive (Drive.quiet_write h bytes) (Drive.steady_write h bytes)

theorem closed_seek (hC : Closed C) (number : UInt8) (offset : Nat) :
    C _ (Api.seek number offset) := by
  refine closed_status hC (hC.bind (closed_handle hC number) fun h => ?_)
  exact hC.drive (Drive.quiet_seek h offset) (Drive.steady_seek h offset)

theorem closed_atEnd (hC : Closed C) (number : UInt8) : C _ (Api.atEnd number) := by
  refine hC.bind (closed_orElse hC (hC.bind (closed_handle hC number) fun h => ?_)) fun _ => ?_
  · exact hC.drive (Drive.quiet_atEnd h) (Drive.steady_ask _ _)
  · exact hC.pure _

end Api

inductive Request
  | line (t : Text) (atPrompt : Bool)
  /-- What a program puts into RAM on its own. -/
  | store (i : Nat) (bytes : List UInt8)
  | runLine (t : Text)
  | list (path : Text)
  | delete (path : Text)
  | rename (src dst : Text)
  | copy (src dst : Text)
  | makeDirectory (path : Text)
  | changeDirectory (path : Text)
  | load (path : Text) (address size : Nat)
  | save (path : Text) (address size : Nat)
  | openFile (path : Text) (mode : UInt8)
  | closeFile (number : UInt8)
  | getByte (number : UInt8)
  | putByte (number byte : UInt8)
  | read (number : UInt8) (address count : Nat)
  | write (number : UInt8) (address count : Nat)
  | seek (number : UInt8) (offset : Nat)
  | atEnd (number : UInt8)
  deriving Repr

namespace Request

open CardShell.Action Shell

variable {P : Machine → Prop} {C : (α : Type) → Shell α → Prop}

def serve : Request → Shell Unit
  | line t atPrompt => execute t atPrompt
  | store i bytes => modify fun m => { m with memory := m.memory.store i bytes }
  | runLine t => discard (Api.runLine t)
  | list path => discard (Api.list path)
  | delete path => discard (Api.delete path)
  | rename src dst => discard (Api.rename src dst)
  | copy src dst => discard (Api.copy src dst)
  | makeDirectory path => discard (Api.makeDirectory path)
  | changeDirectory path => discard (Api.changeDirectory path)
  | load path address size => discard (Api.load path address size)
  | save path address size => discard (Api.save path address size)
  | openFile path mode => discard (Api.openFile path mode)
  | closeFile number => discard (Api.closeFile number)
  | getByte number => discard (Api.getByte number)
  | putByte number byte => discard (Api.putByte number byte)
  | read number address count => discard (Api.read number address count)
  | write number address count => discard (Api.write number address count)
  | seek number offset => discard (Api.seek number offset)
  | atEnd number => discard (Api.atEnd number)

/-- The machine once the requests have been served, however each of them ends. -/
def runAll (m : Machine) (rs : List Request) : Machine := rs.foldl (fun m r => r.serve.after m) m

theorem after_runLine (t : Text) (m : Machine) :
    (runLine t).serve.after m = (execute t false).after m := by
  unfold serve Api.runLine Api.status
  rw [after_discard, after_bind_pure, Shell.after_outcome]

def isQuiet : Request → Bool
  | line _ _ | runLine _ | rename _ _ | changeDirectory _ => false
  | _ => true

/-- The requests that are put together as commands are, from what leaves open files alone. -/
def isOrdinary : Request → Bool
  | line _ _ | runLine _ | rename _ _ | changeDirectory _ | openFile _ _ | closeFile _ => false
  | _ => true

theorem closed_serve (hC : Closed C) (hw : C Unit (Shell.stop .tooWide)) {r : Request}
    (hr : r.isOrdinary = true) : C Unit r.serve := by
  cases r with
  | line t atPrompt => cases hr
  | runLine t => cases hr
  | rename src dst => cases hr
  | changeDirectory path => cases hr
  | openFile path mode => cases hr
  | closeFile number => cases hr
  | store i bytes => exact hC.plain (plain_modify fun _ => .of_console rfl rfl rfl rfl rfl rfl)
  | list path => exact hC.map _ (Api.closed_status hC (hC.list hw path false))
  | delete path => exact hC.map _ (Api.closed_status hC (hC.delete path true false))
  | copy src dst => exact hC.map _ (Api.closed_status hC (hC.copy src dst false))
  | makeDirectory path =>
    refine hC.map _ (Api.closed_status hC ?_)
    exact hC.drive (Drive.quiet_makeDirectory path) (Drive.steady_makeDirectory path)
  | load path address size => exact hC.map _ (Api.closed_status hC (hC.load path address size))
  | save path address size => exact hC.map _ (Api.closed_status hC (hC.save path address size))
  | getByte number => exact hC.map _ (Api.closed_getByte hC number)
  | putByte number byte => exact hC.map _ (Api.closed_putByte hC number byte)
  | read number address count => exact hC.map _ (Api.closed_read hC number address count)
  | write number address count => exact hC.map _ (Api.closed_write hC number address count)
  | seek number offset => exact hC.map _ (Api.closed_seek hC number offset)
  | atEnd number => exact hC.map _ (Api.closed_atEnd hC number)

theorem keeps_serve (hP : Stable P) {r : Request} (hr : r.isQuiet = true) : Keeps P r.serve := by
  cases r with
  | line t atPrompt => cases hr
  | runLine t => cases hr
  | rename src dst => cases hr
  | changeDirectory path => cases hr
  | openFile path mode =>
    exact keeps_map _ (Api.closed_openFile hP.closed (hP.files (FileTable.quiet_openFile path ⟨mode⟩)))
  | closeFile number =>
    exact keeps_map _ (Api.closed_closeFile hP.closed (hP.files (FileTable.quiet_close number)))
  | _ => exact closed_serve hP.closed (keeps_stop _) rfl

end Request

end CardShell
