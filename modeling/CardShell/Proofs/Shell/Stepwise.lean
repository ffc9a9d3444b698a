import CardShell.Proofs.Shell.Closed

/-!
Properties of computations that pass through every single step: through what puts texts on the
heap and what takes them off, through opens and closes. They pass through the brackets as well.
-/

set_option autoImplicit false

namespace CardShell.Shell

open CardShell.Action

variable {α β : Type}

structure Stepwise (C : (α : Type) → Shell α → Prop) : Prop where
  plain : ∀ {α : Type} {x : Shell α}, Plain x → C α x
  bind : ∀ {α β : Type} {x : Shell α} {f : α → Shell β},
    C α x → (∀ a, C β (f a)) → C β (x >>= f)
  outcome : ∀ {α : Type} {x : Shell α}, C α x → C (Except Error α) (Shell.outcome x)
  closing : ∀ {α : Type} {close : Shell Unit} {body : Shell α},
    C Unit close → C α body → C α (Action.closing close body)
  ask : ∀ path, C Answer (Shell.ask path)
  drive : ∀ {α : Type} {x : DriveAction α}, Drive.Quiet x → C α (Shell.drive x)
  heap : ∀ {α : Type} (x : Action Error Heap α), C α (Shell.heap x)
  release : ∀ bytes, C Unit (Shell.release bytes)

namespace Stepwise

variable {C : (α : Type) → Shell α → Prop}

theorem pure (hC : Stepwise C) (a : α) : C α (Pure.pure a) := hC.plain (plain_pure a)

theorem fail (hC : Stepwise C) (e : Error) : C α (Shell.fail e) := hC.plain (plain_fail e)

theorem releaseTexts (hC : Stepwise C) (ts : List Text) : C Unit (Shell.releaseTexts ts) := by
  induction ts with
  | nil => exact hC.pure _
  | cons t ts ih => exact hC.bind (hC.release _) fun _ => ih

theorem reserveTexts (hC : Stepwise C) (ts : List Text) :
    C (Except Error Unit) (Shell.reserveTexts ts) := by
  induction ts with
  | nil => exact hC.pure _
  | cons t ts ih =>
    refine hC.bind (hC.outcome (hC.heap _)) fun r => ?_
    cases r with
    | error e => exact hC.pure _
    | ok _ =>
      refine hC.bind ih fun r => ?_
      cases r with
      | ok _ => exact hC.pure _
      | error e => exact hC.bind (hC.release _) fun _ => hC.pure _

theorem withTexts (hC : Stepwise C) (ts : List Text) {otherwise body : Shell α}
    (ho : C α otherwise) (hb : C α body) : C α (Shell.withTexts ts otherwise body) := by
  refine hC.bind (hC.reserveTexts ts) fun r => ?_
  cases r with
  | error e => exact ho
  | ok _ => exact hC.closing (hC.releaseTexts ts) hb

theorem withFile (hC : Stepwise C) (path : Text) (mode : OpenMode) {body : Nat → Shell α}
    (hb : ∀ h, C α (body h)) : C α (Shell.withFile path mode body) :=
  hC.bind (hC.drive (Drive.quiet_openFile path mode)) fun h =>
    hC.closing (hC.drive (Drive.quiet_closeFile h)) (hb h)

theorem withListing (hC : Stepwise C) (path : Text) {body : Nat → Shell α}
    (hb : ∀ h, C α (body h)) : C α (Shell.withListing path body) :=
  hC.bind (hC.drive (Drive.quiet_openListing path)) fun h =>
    hC.closing (hC.drive (Drive.quiet_closeListing h)) (hb h)

theorem stepsOf (hC : Stepwise C) (h : Nat) : C Nat (Shell.stepsOf h) :=
  hC.bind (hC.plain plain_get) fun _ => hC.pure _

theorem walkFrom (hC : Stepwise C) (h : Nat) (pattern : Text)
    {visit : β → Entry → Shell (β × Flow)} (hv : ∀ notes e, C (β × Flow) (visit notes e))
    (fuel : Nat) (notes : β) :
    C (β × Except Error Unit) (Shell.walkFrom h pattern visit fuel notes) := by
  induction fuel generalizing notes with
  | zero => exact hC.pure _
  | succ fuel ih =>
    refine hC.bind (hC.outcome (hC.drive (Drive.quiet_findNext h pattern))) fun r => ?_
    rcases r with e | _ | e
    · exact hC.pure _
    · exact hC.pure _
    · refine hC.bind (hC.outcome (hv notes e)) fun r => ?_
      rcases r with e | ⟨notes, flow⟩
      · exact hC.pure _
      · cases flow with
        | go => exact ih notes
        | halt => exact hC.pure _

theorem forEachMatch (hC : Stepwise C) (dir pattern : Text) {visit : β → Entry → Shell (β × Flow)}
    (hv : ∀ notes e, C (β × Flow) (visit notes e)) (notes : β) :
    C (β × Except Error Unit) (Shell.forEachMatch dir pattern visit notes) := by
  refine hC.bind (hC.outcome (hC.drive (Drive.quiet_openListing _))) fun r => ?_
  cases r with
  | error e => exact hC.pure _
  | ok h =>
    refine hC.bind (hC.stepsOf h) fun fuel => ?_
    refine hC.bind (hC.walkFrom h pattern hv fuel notes) fun _ => ?_
    exact hC.bind (hC.outcome (hC.drive (Drive.quiet_closeListing h))) fun _ => hC.pure _

theorem holdName (hC : Stepwise C) (names : List Text) (e : Entry) :
    C (List Text × Flow) (Shell.holdName names e) := by
  refine hC.bind (hC.outcome (hC.heap _)) fun r => ?_
  cases r with
  | error _ => exact hC.fail _
  | ok _ => exact hC.pure _

theorem withMatches (hC : Stepwise C) (dir pattern : Text) {body : List Text → Shell α}
    (hb : ∀ names, C α (body names)) : C α (Shell.withMatches dir pattern body) := by
  refine hC.bind (hC.forEachMatch dir pattern hC.holdName []) fun ⟨names, gathered⟩ => ?_
  refine hC.closing (hC.releaseTexts names) ?_
  exact hC.bind (hC.plain (plain_ofExcept gathered)) fun _ => hb names

theorem nextEntry (hC : Stepwise C) (h : Nat) (pattern : Option Text) :
    C (Option Entry) (Shell.nextEntry h pattern) := by
  cases pattern with
  | none => exact hC.drive (Drive.quiet_readListing h)
  | some p => exact hC.drive (Drive.quiet_findNext h p)

theorem collectFrom (hC : Stepwise C) (h : Nat) (pattern : Option Text) (count : Nat)
    (es : List Entry) :
    C (List Entry × Except Error Unit) (Shell.collectFrom h pattern count es) := by
  induction count generalizing es with
  | zero => exact hC.pure _
  | succ count ih =>
    refine hC.bind (hC.outcome (hC.nextEntry h pattern)) fun r => ?_
    rcases r with e | _ | e
    · exact hC.pure _
    · exact hC.pure _
    · refine hC.bind (hC.outcome (hC.heap _)) fun r => ?_
      cases r with
      | error err => exact hC.pure _
      | ok _ => exact ih _

theorem collect (hC : Stepwise C) (dir : Text) (pattern : Option Text) (count : Nat) :
    C (List Entry × Except Error Unit) (Shell.collect dir pattern count) := by
  refine hC.bind (hC.outcome (hC.drive (Drive.quiet_openListing _))) fun r => ?_
  cases r with
  | error e => exact hC.pure _
  | ok h =>
    refine hC.bind (hC.collectFrom h pattern count []) fun _ => ?_
    exact hC.bind (hC.outcome (hC.drive (Drive.quiet_closeListing h))) fun _ => hC.pure _

theorem withEntries (hC : Stepwise C) (dir : Text) (pattern : Option Text) (count : Nat)
    {stream : Shell α} {print : List Entry → Shell α} (hs : C α stream)
    (hp : ∀ es, C α (print es)) : C α (Shell.withEntries dir pattern count stream print) := by
  refine hC.bind (hC.outcome (hC.heap _)) fun r => ?_
  cases r with
  | error e =>
    cases e with
    | outOfMemory => exact hs
    | _ => exact hC.fail _
  | ok _ =>
    refine hC.bind (hC.collect dir pattern count) fun ⟨es, collected⟩ => ?_
    cases collected with
    | ok _ =>
      refine hC.closing ?_ (hp es)
      exact hC.bind (hC.releaseTexts _) fun _ => hC.release _
    | error e =>
      refine hC.bind (hC.releaseTexts _) fun _ => hC.bind (hC.release _) fun _ => ?_
      split
      · exact hs
      · exact hC.fail _

theorem closed (hC : Stepwise C) : Closed C where
  plain := hC.plain
  bind := hC.bind
  outcome := hC.outcome
  ask := hC.ask
  drive := fun hx _ => hC.drive hx
  withTexts := hC.withTexts
  withFile := hC.withFile
  withListing := hC.withListing
  withMatches := hC.withMatches
  withEntries := hC.withEntries

end Stepwise

end CardShell.Shell
