import CardShell.Batch
import CardShell.Listing
import CardShell.Loader
import CardShell.Proofs.Drive.Handles
import CardShell.Proofs.Machine
import CardShell.Proofs.Quiet

/-!
Properties of computations of the shell that pass from parts to the whole. `Closed` names the ways
commands are put together; a property that passes through them holds of every command. What is
taken from heap or card there is given back by the same construct, so the rules are for whole
brackets, and a line is taken only where a question is asked. A property that passes through single
steps as well is `Stepwise`.
-/

set_option autoImplicit false

namespace CardShell.Shell

open CardShell.Action

variable {α β : Type}

section Ends

/-- `x` ends with a value or a failure. -/
def Ends (x : Shell α) : Prop := ∀ m why m', x m ≠ .error (.stopped why) m'

theorem ends_pure (a : α) : Ends (pure a) := by
  intro m why m' h
  cases h

theorem ends_fail (e : Error) : Ends (fail e : Shell α) := by
  intro m why m' h
  cases h

theorem ends_get : Ends (get : Shell Machine) := by
  intro m why m' h
  cases h

theorem ends_modifyGet (f : Machine → α × Machine) : Ends (modifyGet f : Shell α) := by
  intro m why m' h
  cases h

theorem ends_bind {x : Shell α} {f : α → Shell β} (hx : Ends x) (hf : ∀ a, Ends (f a)) :
    Ends (x >>= f) := by
  intro m why m' h
  rw [bind_apply] at h
  cases hm : x m with
  | ok a m₁ =>
    rw [hm] at h
    exact hf a m₁ why m' h
  | error e m₁ =>
    rw [hm] at h
    cases h
    exact hx m why m' hm

theorem ends_outcome {x : Shell α} (hx : Ends x) : Ends (outcome x) := by
  intro m why m' h
  cases hm : x m with
  | ok a m₁ =>
    rw [outcome_ok hm] at h
    cases h
  | error e m₁ => cases e with
    | failed e =>
      rw [outcome_failed hm] at h
      cases h
    | stopped w => exact hx m w m₁ hm

theorem ends_closing {close : Shell Unit} {body : Shell α} (hc : Ends close) (hb : Ends body) :
    Ends (closing close body) := by
  intro m why m' h
  cases hm : body m with
  | ok a m₁ =>
    cases hm' : close m₁ with
    | ok u m₂ =>
      unfold closing at h
      rw [hm] at h
      simp only [hm'] at h
      cases h
    | error e m₂ =>
      unfold closing at h
      rw [hm] at h
      simp only [hm'] at h
      cases h
      exact hc m₁ why m' hm'
  | error e m₁ =>
    rw [closing_error hm] at h
    cases h
    exact hb m why m₁ hm

theorem ends_on {τ : Type} (part : Machine → τ) (put : τ → Machine → Machine)
    (x : Action Error τ α) : Ends (on part put x) := by
  intro m why m' h
  unfold on zoom at h
  split at h
  · cases h
  · cases h

theorem ends_ofExcept (x : Except Error α) : Ends (ofExcept x) := by
  cases x with
  | ok a => exact ends_pure a
  | error e => exact ends_fail e

end Ends

section Plain

/-- Card, open files, heap, variables and the directory shown are the same, no line was taken, and
what was written stands. -/
structure Beside (m m' : Machine) : Prop where
  drive : m'.drive = m.drive
  files : m'.files = m.files
  heap : m'.heap = m.heap
  directory : m'.directory = m.directory
  store : m'.store = m.store
  keyboard : m'.console.keyboard = m.console.keyboard
  written : m.console.written <:+ m'.console.written

/-- What leaves the console alone as well. -/
theorem Beside.of_console {m m' : Machine} (hdrive : m'.drive = m.drive) (hfiles : m'.files = m.files)
    (hheap : m'.heap = m.heap) (hdirectory : m'.directory = m.directory) (hstore : m'.store = m.store)
    (hconsole : m'.console = m.console) : Beside m m' :=
  ⟨hdrive, hfiles, hheap, hdirectory, hstore, congrArg Console.keyboard hconsole,
    hconsole ▸ List.suffix_refl _⟩

theorem Beside.refl (m : Machine) : Beside m m := .of_console rfl rfl rfl rfl rfl rfl

theorem Beside.trans {m₁ m₂ m₃ : Machine} (h : Beside m₁ m₂) (h' : Beside m₂ m₃) : Beside m₁ m₃ where
  drive := h'.drive.trans h.drive
  files := h'.files.trans h.files
  heap := h'.heap.trans h.heap
  directory := h'.directory.trans h.directory
  store := h'.store.trans h.store
  keyboard := h'.keyboard.trans h.keyboard
  written := h.written.trans h'.written

/-- `x` leaves card, open files, heap, variables and the directory shown alone, takes no line, and
never stops. -/
structure Plain (x : Shell α) : Prop where
  keeps : ∀ m, Keeps (Beside m) x
  ends : Ends x

theorem Plain.beside {x : Shell α} (hx : Plain x) (m : Machine) : Beside m (x.after m) :=
  hx.keeps m m (.refl m)

theorem plain_pure (a : α) : Plain (pure a) := ⟨fun _ => keeps_pure a, ends_pure a⟩

theorem plain_fail (e : Error) : Plain (fail e : Shell α) :=
  ⟨fun _ => keeps_fail e, ends_fail e⟩

theorem plain_get : Plain (get : Shell Machine) := ⟨fun _ => keeps_get, ends_get⟩

theorem plain_ofExcept (x : Except Error α) : Plain (ofExcept x) :=
  ⟨fun _ => keeps_ofExcept x, ends_ofExcept x⟩

theorem plain_modifyGet {f : Machine → α × Machine} (hf : ∀ m, Beside m (f m).2) :
    Plain (modifyGet f : Shell α) :=
  ⟨fun _ => keeps_modifyGet fun m hm => hm.trans (hf m), ends_modifyGet f⟩

theorem plain_modify {f : Machine → Machine} (hf : ∀ m, Beside m (f m)) :
    Plain (modify f : Shell PUnit) := plain_modifyGet hf

theorem plain_on {τ : Type} {part : Machine → τ} {put : τ → Machine → Machine}
    (hput : ∀ a m, Beside m (put a m)) (x : Action Error τ α) : Plain (on part put x) :=
  ⟨fun _ => keeps_zoom _ fun m hm => hm.trans (hput _ m), ends_on part put x⟩

theorem plain_bind {x : Shell α} {f : α → Shell β} (hx : Plain x) (hf : ∀ a, Plain (f a)) :
    Plain (x >>= f) :=
  ⟨fun m => keeps_bind (hx.keeps m) fun a => (hf a).keeps m, ends_bind hx.ends fun a => (hf a).ends⟩

theorem plain_map (f : α → β) {x : Shell α} (hx : Plain x) : Plain (f <$> x) := by
  rw [← bind_pure_comp]
  exact plain_bind hx fun a => plain_pure (f a)

theorem plain_ite {c : Prop} [Decidable c] {x y : Shell α} (hx : Plain x) (hy : Plain y) :
    Plain (if c then x else y) := by
  split
  · exact hx
  · exact hy

theorem plain_askMemory (f : Memory → Except Error α) : Plain (askMemory f) :=
  plain_bind plain_get fun _ => plain_ofExcept _

theorem plain_executor (x : Action Error Executor α) : Plain (executor x) := by
  refine plain_on (fun _ _ => ?_) x
  exact .of_console rfl rfl rfl rfl rfl rfl

theorem plain_printBytes (bytes : List UInt8) : Plain (printBytes bytes) :=
  plain_modify fun _ => ⟨rfl, rfl, rfl, rfl, rfl, rfl, List.suffix_cons _ _⟩

theorem plain_print (t : Text) : Plain (print t) := plain_printBytes _

theorem plain_report (e : Error) : Plain (report e) := plain_print _

theorem plain_setClock (t : DateTime) : Plain (setClock t) := by
  have hset : ∀ bytes, Plain (printBytes bytes >>= fun _ =>
      on Machine.clock (fun c m => { m with clock := c }) (Clock.set t)) := by
    intro bytes
    refine plain_bind (plain_printBytes bytes) fun _ => plain_on (fun _ _ => ?_) _
    exact .of_console rfl rfl rfl rfl rfl rfl
  apply plain_ite
  · exact plain_bind (plain_fail _) fun _ => hset _
  · exact hset _

theorem plain_setHotkey (n : Nat) (t : Option Text) : Plain (setHotkey n t) := by
  constructor
  · intro m₀
    refine keeps_get_bind fun m hm => ?_
    split
    · rw [after_bind_ok (set_apply _ m)]
      exact hm.trans (.of_console rfl rfl rfl rfl rfl rfl)
    · exact hm
  · refine ends_bind ends_get fun m => ?_
    split
    · exact ends_bind (fun _ _ _ h => nomatch h) fun _ => ends_pure _
    · exact ends_fail _

end Plain

theorem ends_ask (path : Text) : Ends (ask path) := by
  refine ends_bind (plain_print _).ends fun _ => ends_bind (ends_modifyGet _) fun input => ?_
  refine ends_bind (plain_print _).ends fun _ => ?_
  cases input with
  | confirmed t => exact ends_pure _
  | cancelled => exact ends_pure _

/-- A question changes the console alone. -/
theorem keeps_ask {P : Machine → Prop} (h : ∀ m c, P m → P { m with console := c }) (path : Text) :
    Keeps P (ask path) := by
  have hprint : ∀ t, Keeps P (print t) := fun t => keeps_modify fun m hm => h m _ hm
  refine keeps_bind (hprint _) fun _ => keeps_bind (keeps_modifyGet fun m hm => h m _ hm) fun input => ?_
  refine keeps_bind (hprint _) fun _ => ?_
  cases input with
  | confirmed t => exact keeps_pure _
  | cancelled => exact keeps_pure _

/-- `print` with the entries of `dir` and their names on the heap; `stream` where they do not fit. -/
def withEntries (dir : Text) (pattern : Option Text) (count : Nat) (stream : Shell α)
    (print : List Entry → Shell α) : Shell α := do
  let bytes := count * Listing.recordSize
  match ← outcome (heap (Heap.reserve bytes)) with
  | .error .outOfMemory => stream
  | .error e => fail e
  | .ok _ => do
    let (es, collected) ← collect dir pattern count
    match collected with
    | .ok _ => closing (do releaseTexts (es.map Entry.name); release bytes) (print es)
    | .error e => do
      releaseTexts (es.map Entry.name)
      release bytes
      if e = .outOfMemory then stream else fail e

theorem printSorted_eq (dir : Text) (pattern : Option Text) (count : Nat) (long : Bool) :
    printSorted dir pattern count long =
      withEntries dir pattern count (streamListing dir pattern long) (printEntries · long) := rfl

/-- A property of computations that the whole has from its parts. -/
structure Closed (C : (α : Type) → Shell α → Prop) : Prop where
  plain : ∀ {α : Type} {x : Shell α}, Plain x → C α x
  bind : ∀ {α β : Type} {x : Shell α} {f : α → Shell β},
    C α x → (∀ a, C β (f a)) → C β (x >>= f)
  outcome : ∀ {α : Type} {x : Shell α}, C α x → C (Except Error α) (Shell.outcome x)
  ask : ∀ path, C Answer (Shell.ask path)
  drive : ∀ {α : Type} {x : DriveAction α}, Drive.Quiet x → Drive.Steady x → C α (Shell.drive x)
  withTexts : ∀ {α : Type} (ts : List Text) {otherwise body : Shell α},
    C α otherwise → C α body → C α (Shell.withTexts ts otherwise body)
  withFile : ∀ {α : Type} (path : Text) (mode : OpenMode) {body : Nat → Shell α},
    (∀ h, C α (body h)) → C α (Shell.withFile path mode body)
  withListing : ∀ {α : Type} (path : Text) {body : Nat → Shell α},
    (∀ h, C α (body h)) → C α (Shell.withListing path body)
  withMatches : ∀ {α : Type} (dir pattern : Text) {body : List Text → Shell α},
    (∀ names, C α (body names)) → C α (Shell.withMatches dir pattern body)
  withEntries : ∀ {α : Type} (dir : Text) (pattern : Option Text) (count : Nat) {stream : Shell α}
    {print : List Entry → Shell α}, C α stream → (∀ es, C α (print es)) →
      C α (Shell.withEntries dir pattern count stream print)

namespace Closed

variable {C : (α : Type) → Shell α → Prop}

theorem pure (hC : Closed C) (a : α) : C α (Pure.pure a) := hC.plain (plain_pure a)

theorem fail (hC : Closed C) (e : Error) : C α (Shell.fail e) := hC.plain (plain_fail e)

theorem get (hC : Closed C) : C Machine MonadState.get := hC.plain plain_get

theorem ofExcept (hC : Closed C) (x : Except Error α) : C α (Shell.ofExcept x) :=
  hC.plain (plain_ofExcept x)

theorem askMemory (hC : Closed C) (f : Memory → Except Error α) : C α (Shell.askMemory f) :=
  hC.plain (plain_askMemory f)

theorem printBytes (hC : Closed C) (bytes : List UInt8) : C Unit (Shell.printBytes bytes) :=
  hC.plain (plain_printBytes bytes)

theorem print (hC : Closed C) (t : Text) : C Unit (Shell.print t) := hC.plain (plain_print t)

theorem map (hC : Closed C) (f : α → β) {x : Shell α} (hx : C α x) : C β (f <$> x) := by
  rw [← bind_pure_comp]
  exact hC.bind hx fun a => hC.pure (f a)

theorem ite (_ : Closed C) {c : Prop} [Decidable c] {x y : Shell α} (hx : C α x) (hy : C α y) :
    C α (if c then x else y) := by
  split
  · exact hx
  · exact hy

section Directories

theorem nextEntry (hC : Closed C) (h : Nat) (pattern : Option Text) :
    C (Option Entry) (Shell.nextEntry h pattern) := by
  cases pattern with
  | none => exact hC.drive (Drive.quiet_readListing h) (Drive.steady_readListing h)
  | some p => exact hC.drive (Drive.quiet_findNext h p) (Drive.steady_findNext h p)

theorem isDirectory (hC : Closed C) (path : Text) : C Bool (Shell.isDirectory path) :=
  hC.ite (hC.pure _) (hC.drive (Drive.quiet_isDirectory path) (Drive.steady_isDirectory path))

theorem stepsOf (hC : Closed C) (h : Nat) : C Nat (Shell.stepsOf h) :=
  hC.bind hC.get fun _ => hC.pure _

theorem withPaths (hC : Closed C) (ts : List Text) {body : Shell α} (hb : C α body) :
    C α (Shell.withPaths ts body) := hC.withTexts ts (hC.fail _) hb

end Directories

end Closed

end CardShell.Shell
