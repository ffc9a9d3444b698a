import CardShell.Proofs.Drive

/-!
What the calls of the driver keep. A property of the faults that lasts as calls count, and one of
the volume that the operation behind a call keeps, are kept by the call together.
-/

set_option autoImplicit false

namespace CardShell.Drive

open CardShell.Action

variable {α β : Type}

/-- The faults are as `F` says and the volume is as `Q` says. -/
def Within (F : List Fault → Prop) (Q : Volume → Prop) (d : Drive) : Prop := F d.faults ∧ Q d.volume

/-- Counting calls does not end it. -/
def Lasting (F : List Fault → Prop) : Prop := ∀ p fs, F fs → F (Fault.consult p fs).2

variable {F : List Fault → Prop} {Q : Volume → Prop}

theorem Within.ticked {d : Drive} (hF : Lasting F) (h : Within F Q d) (p : Primitive) :
    Within F Q (d.ticked p) := ⟨hF p _ h.1, h.2⟩

theorem keeps_fired (hF : Lasting F) (p : Primitive) : Keeps (Within F Q) (fired p) :=
  fun _ hd => hd.ticked hF p

theorem keeps_check (hF : Lasting F) (p : Primitive) : Keeps (Within F Q) (check p) := by
  intro d hd
  rcases check_cases p d with ⟨e, hx⟩ | hx
  · rw [after_error hx]
    exact hd.ticked hF p
  · rw [after_ok hx]
    exact hd.ticked hF p

theorem keeps_onVolume {x : VolumeAction α} (hx : Keeps Q x) : Keeps (Within F Q) (onVolume x) := by
  intro d hd
  rw [after_onVolume]
  exact ⟨hd.1, hx _ hd.2⟩

theorem keeps_change (hF : Lasting F) (p : Primitive) {x : VolumeAction α} (hx : Keeps Q x) :
    Keeps (Within F Q) (change p x) :=
  keeps_bind (keeps_check hF p) fun _ => keeps_onVolume hx

theorem keeps_ask (hF : Lasting F) (p : Primitive) (f : Volume → Except Error α) :
    Keeps (Within F Q) (ask p f) := keeps_change hF p (keeps_query f)

theorem keeps_release (hF : Lasting F) (p : Primitive) {x : VolumeAction Unit} (hx : Keeps Q x) :
    Keeps (Within F Q) (release p x) := by
  intro d hd
  rw [after_release]
  exact ⟨hF p _ hd.1, hx _ hd.2⟩

theorem keeps_read (hF : Lasting F) {h : Nat} (hx : ∀ count, Keeps Q (Volume.read h count))
    (count : Nat) : Keeps (Within F Q) (read h count) := by
  refine keeps_bind (keeps_check hF _) fun _ => keeps_bind (keeps_fired hF _) fun code => ?_
  apply keeps_ite
  · exact keeps_pure _
  · exact keeps_bind (keeps_modifyGet fun _ hd => hd) fun part => keeps_onVolume (hx part)

theorem keeps_write (hF : Lasting F) {h : Nat} (hx : ∀ bytes, Keeps Q (Volume.write h bytes))
    (bytes : List UInt8) : Keeps (Within F Q) (write h bytes) := by
  refine keeps_bind (keeps_check hF _) fun _ => keeps_bind (keeps_fired hF _) fun code => ?_
  apply keeps_ite
  · exact keeps_onVolume (hx _)
  · exact keeps_onVolume (hx bytes)

theorem keeps_readListing (hF : Lasting F) {h : Nat} (hx : Keeps Q (Volume.readListing h)) :
    Keeps (Within F Q) (readListing h) := by
  refine keeps_bind (keeps_check hF _) fun _ => keeps_bind (keeps_fired hF _) fun code => ?_
  apply keeps_ite
  · exact keeps_pure _
  · exact keeps_onVolume hx

theorem keeps_findWithin (hF : Lasting F) {h : Nat} (hx : Keeps Q (Volume.readListing h))
    (pattern : Text) (fuel : Nat) : Keeps (Within F Q) (findWithin pattern h fuel) := by
  induction fuel with
  | zero => exact keeps_pure none
  | succ fuel ih =>
    refine keeps_bind (keeps_readListing hF hx) fun e => ?_
    cases e with
    | none => exact keeps_pure none
    | some e =>
      apply keeps_ite
      · exact keeps_pure (some e)
      · exact ih

theorem keeps_findNext (hF : Lasting F) {h : Nat} (hx : Keeps Q (Volume.readListing h))
    (pattern : Text) : Keeps (Within F Q) (findNext h pattern) :=
  keeps_bind keeps_get fun _ => keeps_findWithin hF hx pattern _

theorem keeps_isDirectory (hF : Lasting F) (path : Text) :
    Keeps (Within F Q) (isDirectory path) := by
  refine keeps_bind (keeps_outcome (keeps_ask hF _ _)) fun r => ?_
  cases r with
  | ok e => exact keeps_pure _
  | error e => exact keeps_pure _

theorem keeps_readRest (hF : Lasting F) {h : Nat} (hx : ∀ count, Keeps Q (Volume.read h count))
    (fuel : Nat) : Keeps (Within F Q) (readRest h fuel) := by
  induction fuel with
  | zero => exact keeps_pure []
  | succ fuel ih =>
    refine keeps_bind (keeps_read hF hx 512) fun bytes => ?_
    apply keeps_ite
    · exact keeps_pure _
    · exact keeps_bind ih fun rest => keeps_pure _

end CardShell.Drive
