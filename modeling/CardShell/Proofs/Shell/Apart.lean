import CardShell.Proofs.Shell.Performed
import CardShell.Proofs.Shell.Request
import CardShell.Proofs.Shell.Throughout

/-!
What a line keeps whatever it does to card, heap and directory: any property that passes through
every step, as long as the commands that set variables keep it. So does any property of the table of
open files and of the variables alone.
-/

set_option autoImplicit false

namespace CardShell.Shell

open CardShell.Action

variable {α : Type} {P : Machine → Prop}

def KeptBySetters (P : Machine → Prop) : Prop :=
  ∀ b : Builtin, b.setsVariables = true → ∀ run args, Keeps P (b.perform run args)

namespace Throughout

theorem runLineWithin (hP : Throughout fun _ x => Keeps P x) (hS : KeptBySetters P) (depth : Nat)
    (atPrompt : Bool) (line : Text) : Keeps P (Shell.runLineWithin depth atPrompt line) := by
  induction depth generalizing atPrompt line with
  | zero => exact fun _ hm => hm
  | succ depth ih =>
    intro m hm
    rcases runLineWithin_cases depth atPrompt line m with ⟨b, args, hx, _⟩ | ⟨_, x, hx, hclosed⟩
    · rw [after_congr hx]
      exact hP.perform (fun _ => keeps_stop _) (fun hb => hS b hb _ args) (fun _ => ih true) m hm
    · rw [after_congr hx]
      exact hclosed _ hP.closed m hm

theorem changeDirectory (hP : Throughout fun _ x => Keeps P x) (path : Text) :
    Keeps P (Api.changeDirectory path) := by
  refine keeps_bind (Api.closed_status hP.closed (hP.drive _)) fun _ => ?_
  exact keeps_bind hP.refreshDirectory fun _ => keeps_pure _

theorem rename (hP : Throughout fun _ x => Keeps P x) (src dst : Text) :
    Keeps P (Api.rename src dst) :=
  Api.closed_rename hP.closed (fun _ _ => hP.drive _) src dst

theorem serve (hP : Throughout fun _ x => Keeps P x) (hS : KeptBySetters P)
    (hf : ∀ {α : Type} (x : FileTable.TableAction α), Keeps P (files x)) (r : Request) :
    Keeps P r.serve := by
  have hordinary : r.isOrdinary = true → Keeps P r.serve :=
    Request.closed_serve hP.closed (keeps_stop _)
  cases r with
  | line t atPrompt => exact hP.runLineWithin hS maxDepth atPrompt t
  | runLine t =>
    exact keeps_map _ (Api.closed_status hP.closed (hP.runLineWithin hS maxDepth false t))
  | rename src dst => exact keeps_map _ (hP.rename src dst)
  | changeDirectory path => exact keeps_map _ (hP.changeDirectory path)
  | openFile path mode => exact keeps_map _ (Api.closed_openFile hP.closed (hf _))
  | closeFile number => exact keeps_map _ (Api.closed_closeFile hP.closed (hf _))
  | _ => exact hordinary rfl

end Throughout

/-- `P` depends on the table of open files and the variables alone. -/
def Apart (P : Machine → Prop) : Prop :=
  ∀ m m', P m → m'.files = m.files → m'.store = m.store → P m'

theorem Apart.throughout (hP : Apart P) : Throughout fun _ x => Keeps P x where
  stepwise :=
    { plain := fun hx m hm => hP _ _ hm (hx.beside m).files (hx.beside m).store
      bind := keeps_bind
      outcome := keeps_outcome
      closing := keeps_closing
      ask := keeps_ask fun _ _ hm => hP _ _ hm rfl rfl
      drive := fun _ => keeps_zoom _ fun _ hm => hP _ _ hm rfl rfl
      heap := fun _ => keeps_zoom _ fun _ hm => hP _ _ hm rfl rfl
      release := fun _ => keeps_modify fun _ hm => hP _ _ hm rfl rfl }
  drive := fun _ => keeps_zoom _ fun _ hm => hP _ _ hm rfl rfl
  directory := fun _ => keeps_modify fun _ hm => hP _ _ hm rfl rfl

theorem Apart.closed (hP : Apart P) : Closed fun _ x => Keeps P x := hP.throughout.closed

section

variable {run : Text → Shell Unit} {byLine : Text → Machine → List Invocation} {m : Machine}
  {c : Invocation}

theorem holds_performedByLines (hrun : ∀ line, Keeps P (run line))
    (hby : ∀ line m, P m → ∀ c ∈ byLine line m, P c.machine) (lines : List Text) (hm : P m)
    (hc : c ∈ performedByLines run byLine lines m) : P c.machine := by
  induction lines generalizing m with
  | nil => cases hc
  | cons line lines ih =>
    rcases List.mem_append.mp hc with hc | hc
    · exact hby line m hm c hc
    · have hnext := hrun line m hm
      cases hx : run line m with
      | error e m' =>
        rw [hx] at hc
        cases hc
      | ok _ m' =>
        rw [hx] at hc
        rw [after_ok hx] at hnext
        exact ih hnext hc

theorem Apart.holds_performedByBuiltin (hP : Apart P) (hrun : ∀ line, Keeps P (run line))
    (hby : ∀ line m, P m → ∀ c ∈ byLine line m, P c.machine) (b : Builtin) (args : Text) (hm : P m)
    (hc : c ∈ performedByBuiltin run byLine b args m) : P c.machine := by
  unfold performedByBuiltin at hc
  split at hc
  · rename_i path _
    have hread := hP.throughout.drive (Drive.readToEnd path) m hm
    unfold performedByBatch at hc
    cases hx : Shell.drive (Drive.readToEnd path) m with
    | ok bytes m' =>
      rw [hx] at hc
      rw [after_ok hx] at hread
      exact holds_performedByLines hrun hby _ hread hc
    | error e m' =>
      rw [hx] at hc
      cases hc
  · cases hc

end

theorem Apart.holds_performedWithin (hP : Apart P) (hS : KeptBySetters P) (depth : Nat)
    (line : Text) {m : Machine} (hm : P m) : ∀ c ∈ performedWithin depth line m, P c.machine := by
  induction depth generalizing line m with
  | zero =>
    intro c hc
    cases hc
  | succ depth ih =>
    intro c hc
    rcases runLineWithin_cases depth true line m with ⟨b, args, _, hp⟩ | ⟨hp, _⟩
    · rw [hp] at hc
      rcases List.mem_cons.mp hc with rfl | hc
      · exact hm
      · have hrun := hP.throughout.runLineWithin hS depth true
        exact hP.holds_performedByBuiltin hrun (fun l _ hm => ih l hm) b args hm hc
    · rw [hp] at hc
      cases hc

end CardShell.Shell
