import CardShell.Proofs.Shell.Closed

/-!
The commands and calls of the shell, as put together from brackets and quiet calls of the driver.
Renaming keeps what a single rename of the driver keeps; changing the directory and mounting are
left out.
-/

set_option autoImplicit false

namespace CardShell.Shell

open CardShell.Action

variable {α : Type} {C : (α : Type) → Shell α → Prop}

namespace Closed

section Batches

theorem deleteOne (hC : Closed C) (force verbose : Bool) (path : Text) :
    C _ (Shell.deleteOne force verbose path) := by
  have hunlink : C _ (Shell.drive (Drive.unlink path) >>= fun _ => Pure.pure Flow.go) :=
    hC.bind (hC.drive (Drive.quiet_unlink path) (Drive.steady_unlink path)) fun _ => hC.pure _
  apply hC.ite
  · apply hC.ite
    · exact hC.bind (hC.print _) fun _ => hunlink
    · exact hunlink
  · refine hC.bind (hC.ask path) fun answer => ?_
    cases answer with
    | yes => exact hC.bind (hC.print _) fun _ => hunlink
    | cancel => exact hC.bind (hC.print _) fun _ => hC.pure _
    | other => exact hC.pure _

theorem deleteEach (hC : Closed C) (force verbose : Bool) (dir : Text) (names : List Text) :
    C _ (Shell.deleteEach force verbose dir names) := by
  induction names with
  | nil => exact hC.pure _
  | cons name names ih =>
    refine hC.bind (hC.withPaths _ (hC.outcome (hC.deleteOne force verbose _))) fun r => ?_
    rcases r with e | flow
    · exact hC.pure _
    · cases flow with
      | go => exact ih
      | halt => exact hC.pure _

theorem delete (hC : Closed C) (path : Text) (force verbose : Bool) :
    C _ (Shell.delete path force verbose) := by
  refine hC.withPaths _ ?_
  cases PathText.split path with
  | single path => exact hC.map _ (hC.deleteOne force verbose path)
  | matching dir pattern =>
    refine hC.withMatches dir pattern fun names => ?_
    refine hC.bind (hC.deleteEach force verbose dir names) fun result => ?_
    apply hC.ite
    · exact hC.bind (hC.print _) fun _ => hC.ofExcept result
    · exact hC.ofExcept result

theorem checkDestination (hC : Closed C) (target : PathText.Target) (dst : Text) :
    C _ (Shell.checkDestination target dst) := by
  cases target with
  | single path =>
    apply hC.ite
    · exact hC.bind (hC.fail _) fun _ => hC.pure _
    · exact hC.pure _
  | matching dir pattern =>
    have hkind : C Unit (Shell.isDirectory dst >>= fun there =>
        if !there then Shell.fail .invalidParameter else Pure.pure ()) :=
      hC.bind (hC.isDirectory dst) fun _ => hC.ite (hC.fail _) (hC.pure _)
    apply hC.ite
    · exact hC.bind (hC.fail _) fun _ => hkind
    · exact hkind

theorem eachPair (hC : Closed C) (dir dst : Text) {one : Text → Text → Shell Unit}
    (ho : ∀ a b, C _ (one a b)) (names : List Text) :
    C _ (Shell.eachPair dir dst one names) := by
  induction names with
  | nil => exact hC.pure _
  | cons name names ih => exact hC.bind (hC.withPaths _ (ho _ _)) fun _ => ih

theorem relocate (hC : Closed C) {move moveMatch : Text → Text → Shell Unit}
    (hm : ∀ a b, C _ (move a b)) (hmm : ∀ a b, C _ (moveMatch a b)) (src dst : Text) :
    C _ (Shell.relocate move moveMatch src dst) := by
  refine hC.bind (hC.checkDestination _ dst) fun _ => hC.withPaths _ ?_
  cases PathText.split src with
  | single path =>
    refine hC.bind (hC.isDirectory dst) fun there => ?_
    apply hC.ite
    · exact hC.withPaths _ (hm _ _)
    · exact hm src dst
  | matching dir pattern =>
    exact hC.withMatches dir pattern fun names => hC.eachPair dir dst hmm names

/-- A rename keeps what each single one keeps. -/
theorem rename (hC : Closed C) (hr : ∀ a b, C _ (Shell.drive (Drive.rename a b)))
    (src dst : Text) (verbose : Bool) : C _ (Shell.rename src dst verbose) := by
  refine hC.relocate hr (fun a b => ?_) src dst
  apply hC.ite
  · exact hC.bind (hC.print _) fun _ => hr a b
  · exact hr a b

theorem copyRest (hC : Closed C) (input output chunk fuel : Nat) :
    C _ (Shell.copyRest input output chunk fuel) := by
  induction fuel with
  | zero => exact hC.pure _
  | succ fuel ih =>
    refine hC.bind (hC.drive (Drive.quiet_read input chunk) (Drive.steady_read input chunk)) fun bytes => ?_
    apply hC.ite
    · exact hC.pure _
    · refine hC.bind
        (hC.drive (Drive.quiet_write output bytes) (Drive.steady_write output bytes)) fun count => ?_
      apply hC.ite
      · exact hC.bind (hC.fail _) fun _ => ih
      · exact ih

theorem copyFile (hC : Closed C) (verbose : Bool) (src dst : Text) :
    C _ (Shell.copyFile verbose src dst) := by
  refine hC.withFile src .read fun input => hC.withFile dst _ fun output => ?_
  have hrest : C _ ((MonadState.get : Shell Machine) >>= fun m =>
      Shell.copyRest input output m.settings.storage.copyChunk
        (m.drive.volume.remaining input + 1)) :=
    hC.bind hC.get fun m => hC.copyRest input output _ _
  apply hC.ite
  · exact hC.bind (hC.print _) fun _ => hrest
  · exact hrest

theorem copy (hC : Closed C) (src dst : Text) (verbose : Bool) :
    C _ (Shell.copy src dst verbose) :=
  hC.relocate (hC.copyFile verbose) (hC.copyFile verbose) src dst

end Batches

section Listings

theorem countEntries (hC : Closed C) (h : Nat) (pattern : Option Text) (fuel : Nat) :
    C _ (Shell.countEntries h pattern fuel) := by
  induction fuel with
  | zero => exact hC.pure _
  | succ fuel ih =>
    refine hC.bind (hC.nextEntry h pattern) fun e => ?_
    cases e with
    | none => exact hC.pure _
    | some e => exact hC.bind ih fun _ => hC.pure _

theorem streamFrom (hC : Closed C) (long : Bool) (columns h : Nat) (pattern : Option Text)
    (fuel col : Nat) : C _ (Shell.streamFrom long columns h pattern fuel col) := by
  induction fuel generalizing col with
  | zero => exact hC.pure _
  | succ fuel ih =>
    refine hC.bind (hC.nextEntry h pattern) fun e => ?_
    cases e with
    | none => exact hC.pure _
    | some e =>
      apply hC.ite
      · exact hC.bind (hC.print _) fun _ => ih _
      · apply hC.ite
        · exact hC.bind (hC.print _) fun _ => hC.bind (hC.print _) fun _ => ih _
        · exact hC.bind (hC.print _) fun _ => ih _

theorem streamListing (hC : Closed C) (dir : Text) (pattern : Option Text) (long : Bool) :
    C _ (Shell.streamListing dir pattern long) := by
  refine hC.bind hC.get fun m => ?_
  refine hC.bind (hC.withListing _ fun h => ?_) fun _ => ?_
  · exact hC.bind (hC.stepsOf h) fun fuel => hC.streamFrom long _ h pattern fuel 0
  · exact hC.ite (hC.print _) (hC.pure _)

/-- A field that is too wide stops the machine, so it has to be known that the property passes through
that. -/
theorem printFields (hC : Closed C) (hw : C Unit (Shell.stop .tooWide)) (colours : Option Listing.Colours)
    (width perRow col : Nat) (es : List Entry) :
    C _ (Shell.printFields colours width perRow col es) := by
  induction es generalizing col with
  | nil => exact hC.pure _
  | cons e es ih =>
    unfold Shell.printFields
    split
    refine hC.bind (hC.printBytes _) fun _ => hC.ite hw ?_
    exact hC.bind (hC.print _) fun _ => ih _

theorem printEntries (hC : Closed C) (hw : C Unit (Shell.stop .tooWide)) (es : List Entry)
    (long : Bool) : C _ (Shell.printEntries es long) := by
  refine hC.bind hC.get fun m => hC.ite ?_ ?_
  · exact hC.bind (hC.printBytes _) fun _ => hC.printBytes _
  · refine hC.bind (hC.bind (hC.printFields hw _ _ _ 0 _) fun _ => hC.print _) fun _ => ?_
    exact hC.printBytes _

theorem printSorted (hC : Closed C) (hw : C Unit (Shell.stop .tooWide)) (dir : Text)
    (pattern : Option Text) (count : Nat) (long : Bool) :
    C _ (Shell.printSorted dir pattern count long) := by
  rw [printSorted_eq]
  exact hC.withEntries dir pattern count (hC.streamListing dir pattern long) fun es =>
    hC.printEntries hw es long

theorem shownDirectory (hC : Closed C) (dir : Text) (pattern : Option Text) :
    C _ (Shell.shownDirectory dir pattern) := by
  apply hC.ite
  · exact hC.bind hC.get fun _ => hC.pure _
  · exact hC.ite (hC.pure _) (hC.pure _)

theorem listOnHeap (hC : Closed C) (hw : C Unit (Shell.stop .tooWide)) (label dir : Text)
    (pattern : Option Text) (long : Bool) : C _ (Shell.listOnHeap label dir pattern long) := by
  refine hC.bind (hC.withListing _ fun h => ?_) fun count => ?_
  · exact hC.bind (hC.stepsOf h) fun fuel => hC.countEntries h pattern fuel
  · refine hC.bind (hC.shownDirectory dir pattern) fun shown => ?_
    refine hC.bind (hC.print _) fun _ => hC.bind (hC.print _) fun _ => ?_
    exact hC.ite (hC.print _) (hC.printSorted hw dir pattern count long)

theorem list (hC : Closed C) (hw : C Unit (Shell.stop .tooWide)) (path : Text) (long : Bool) :
    C _ (Shell.list path long) := by
  refine hC.bind (hC.drive Drive.quiet_label (Drive.steady_ask _ _)) fun label => ?_
  cases PathText.split path with
  | single dir =>
    refine hC.withTexts _ ?_ (hC.listOnHeap hw label dir none long)
    exact hC.bind (hC.print _) fun _ => hC.streamListing dir none long
  | matching dir pattern =>
    refine hC.withTexts _ ?_ (hC.listOnHeap hw label dir (some pattern) long)
    exact hC.bind (hC.print _) fun _ => hC.streamListing dir (some pattern) long

end Listings

section Programs

theorem fill (hC : Closed C) (h i count fuel done : Nat) :
    C _ (Shell.fill h i count fuel done) := by
  induction fuel generalizing done with
  | zero => exact hC.pure _
  | succ fuel ih =>
    rw [Shell.fill]
    apply hC.ite
    · exact hC.pure _
    · refine hC.bind (hC.drive (Drive.quiet_read h _) (Drive.steady_read h _)) fun bytes => ?_
      apply hC.ite
      · exact hC.pure _
      · exact hC.bind (hC.plain (plain_modify fun _ => .of_console rfl rfl rfl rfl rfl rfl)) fun _ => ih _

theorem load (hC : Closed C) (path : Text) (address size : Nat) :
    C _ (Shell.load path address size) := by
  refine hC.withFile path .read fun h => ?_
  refine hC.bind (hC.drive (Drive.quiet_fileSize h) (Drive.steady_ask _ _)) fun fileSize => ?_
  refine hC.bind hC.get fun m => ?_
  have hfill : ∀ count, C _ ((Shell.askMemory fun m => m.offset? address count) >>= fun i =>
      Shell.fill h i count count 0) :=
    fun count => hC.bind (hC.askMemory _) fun i => hC.fill h i count count 0
  apply hC.ite
  · exact hC.bind (hC.fail _) fun _ => hfill _
  · exact hfill _

theorem save (hC : Closed C) (path : Text) (address size : Nat) :
    C _ (Shell.save path address size) := by
  refine hC.bind (hC.askMemory _) fun data => hC.withFile path _ fun h => ?_
  refine hC.bind (hC.drive (Drive.quiet_write h data) (Drive.steady_write h data)) fun count => ?_
  exact hC.ite (hC.fail _) (hC.pure _)

theorem runImage (hC : Closed C) (address : Nat) (params : Text) :
    C _ (Shell.runImage address params) := by
  refine hC.bind (hC.askMemory _) fun count => hC.bind hC.get fun m => ?_
  cases ExecMode.detect (m.memory.tail? address count) with
  | none => exact hC.fail _
  | some mode =>
    refine hC.bind (hC.plain (plain_executor _)) fun status => ?_
    cases Error.ofCode? status with
    | some e => exact hC.fail e
    | none => exact hC.pure _

theorem tryCandidates (hC : Closed C) (params : Text) (last : Error)
    (stages : List (Text × Nat)) : C _ (Shell.tryCandidates params last stages) := by
  induction stages generalizing last with
  | nil => exact hC.fail _
  | cons stage stages ih =>
    obtain ⟨path, address⟩ := stage
    refine hC.bind (hC.outcome (hC.load path address 0)) fun r => ?_
    cases r with
    | ok _ => exact hC.runImage address params
    | error e =>
      cases e with
      | overlappingSystem => exact hC.fail _
      | _ => exact ih _

theorem runProgram (hC : Closed C) (word params : Text) (atPrompt : Bool) :
    C _ (Shell.runProgram word params atPrompt) := by
  refine hC.bind hC.get fun m => ?_
  apply hC.ite
  · exact hC.bind (hC.fail _) fun _ => hC.tryCandidates params _ _
  · exact hC.tryCandidates params _ _

end Programs

end Closed

end CardShell.Shell
