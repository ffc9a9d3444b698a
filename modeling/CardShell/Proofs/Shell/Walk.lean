import CardShell.Proofs.Heap
import CardShell.Proofs.Machine
import CardShell.Proofs.Volume.Cases
import CardShell.Walk

/-!
Walking a directory on a card that does not fail: the entries it had when it was opened come one
after the other, and of the card only handles given out and open listings change.
-/

set_option autoImplicit false

namespace CardShell

open CardShell.Action

/-- Whether an entry is one of those that are asked for. -/
def Entry.fits (pattern : Option Text) (e : Entry) : Bool :=
  pattern.all fun p => Glob.isMatch p e.name

section Card

namespace Volume

/-- What opening a directory finds: its entries, or why it does not open. -/
def entriesOf (v : Volume) (typed : Text) : Except Error (List Entry) :=
  match v.find typed with
  | .ok (key, n) => if n.isDirectory then .ok (v.children key) else .error .noPath
  | .error .noFile => .error .noPath
  | .error e => .error e

/-- The entries are those of the directory that the path comes to. -/
theorem resolve_of_entriesOf {v : Volume} {typed : Text} {es : List Entry}
    (h : v.entriesOf typed = .ok es) : ∃ p, v.resolve typed = .ok p ∧ es = v.children p.key := by
  unfold entriesOf at h
  split at h
  · rename_i key n hfind
    obtain ⟨p, hp, rfl, _⟩ := find_ok hfind
    split at h
    · cases h
      exact ⟨p, hp, rfl⟩
    · cases h
  · cases h
  · cases h

theorem entriesOf_ok {v : Volume} {typed : Text} {es : List Entry} (h : v.entriesOf typed = .ok es) :
    ∃ key, es = v.children key := by
  obtain ⟨p, _, hes⟩ := resolve_of_entriesOf h
  exact ⟨p.key, hes⟩

/-- With other handles given out and other listings open. -/
def listing (v : Volume) (issued : Nat) (t : Table Nat (List Entry)) : Volume :=
  { v with issued := issued, listings := t }

theorem openListing_eq (typed : Text) (v : Volume) :
    openListing typed v = match v.entriesOf typed with
      | .ok es => .ok v.nextHandle (v.listing (v.issued + 1) (v.listings.set v.nextHandle es))
      | .error e => .error e v := by
  unfold openListing entriesOf
  rw [bind_apply, get_apply]
  dsimp only
  rcases v.find typed with e | ⟨key, n⟩
  · cases e <;> rfl
  · cases hdir : n.isDirectory with
    | true => simp [hdir]; rfl
    | false => simp [hdir]

end Volume

namespace Drive

variable {d : Drive}

/-- But for handles given out and open listings the card is the same. -/
def Listed (d d' : Drive) : Prop := ∃ i t, d' = { d with volume := d.volume.listing i t }

theorem Listed.refl (d : Drive) : Listed d d := ⟨d.volume.issued, d.volume.listings, rfl⟩

theorem Listed.trans {d₁ d₂ d₃ : Drive} (h : Listed d₁ d₂) (h' : Listed d₂ d₃) : Listed d₁ d₃ := by
  obtain ⟨_, _, rfl⟩ := h
  obtain ⟨i, t, rfl⟩ := h'
  exact ⟨i, t, rfl⟩

theorem Listed.faults {d' : Drive} (h : Listed d d') : d'.faults = d.faults := by
  obtain ⟨_, _, rfl⟩ := h
  rfl

theorem Listed.entriesOf {d' : Drive} (h : Listed d d') (typed : Text) :
    d'.volume.entriesOf typed = d.volume.entriesOf typed := by
  obtain ⟨_, _, rfl⟩ := h
  rfl

/-- The card does not fail, and its listing `h` has `es` still to give. -/
structure Giving (h : Nat) (es : List Entry) (d : Drive) : Prop where
  faultless : d.faults = []
  pending : d.volume.listings.get? h = some es

variable {h : Nat} {e : Entry} {es : List Entry} {pattern : Text}

theorem openListing_ok (hf : d.faults = []) {typed : Text} (he : d.volume.entriesOf typed = .ok es) :
    ∃ h d', openListing typed d = .ok h d' ∧ Listed d d' ∧ Giving h es d' := by
  have hopen := Volume.openListing_eq typed d.volume
  rw [he] at hopen
  unfold openListing
  rw [change_of_faultless hf, onVolume_ok hopen]
  exact ⟨_, _, rfl, ⟨_, _, rfl⟩, hf, Table.get?_set_self _ _ _⟩

theorem openListing_error (hf : d.faults = []) {typed : Text} {e : Error}
    (he : d.volume.entriesOf typed = .error e) : openListing typed d = .error e d := by
  have hopen := Volume.openListing_eq typed d.volume
  rw [he] at hopen
  unfold openListing
  rw [change_of_faultless hf, onVolume_error hopen]

theorem closeListing_ok (hd : Giving h es d) :
    ∃ d', closeListing h d = .ok () d' ∧ Listed d d' := by
  have hhas : d.volume.listings.has h = true := by
    unfold Table.has
    rw [hd.pending]
    rfl
  refine ⟨_, release_of_faultless hd.faultless _ ?_, d.volume.issued, d.volume.listings.erase h, rfl⟩
  unfold Volume.closeListing
  rw [bind_apply, get_apply]
  dsimp only
  rw [if_pos hhas]
  rfl

theorem readListing_eq (hd : d.faults = []) :
    readListing h d = onVolume (Volume.readListing h) d := by
  have hfired : fired .endListing d = .ok none d := by
    rw [fired_apply, ticked_of_faultless hd, hd]
    rfl
  unfold readListing
  rw [bind_apply, check_of_faultless hd]
  dsimp only
  rw [bind_apply, hfired]
  rfl

theorem readListing_nil (hd : Giving h [] d) : readListing h d = .ok none d := by
  rw [readListing_eq hd.faultless]
  refine onVolume_ok (v := d.volume) ?_
  unfold Volume.readListing
  rw [bind_apply, get_apply]
  dsimp only
  rw [hd.pending]
  rfl

theorem readListing_cons (hd : Giving h (e :: es) d) :
    ∃ d', readListing h d = .ok (some e) d' ∧ Listed d d' ∧ Giving h es d' := by
  have hread : Volume.readListing h d.volume =
      .ok (some e) (d.volume.listing d.volume.issued (d.volume.listings.set h es)) := by
    unfold Volume.readListing
    rw [bind_apply, get_apply]
    dsimp only
    rw [hd.pending]
    rfl
  rw [readListing_eq hd.faultless, onVolume_ok hread]
  exact ⟨_, rfl, ⟨_, _, rfl⟩, hd.faultless, Table.get?_set_self _ _ _⟩

/-- What asking for the next entry that fits comes to where `es` are still to be given. -/
def Advances (fits : Entry → Bool) (h : Nat) (es : List Entry) (d : Drive)
    (x : DriveAction (Option Entry)) : Prop :=
  (es.filter fits = [] ∧ ∃ d', x d = .ok none d' ∧ Listed d d' ∧ Giving h [] d') ∨
  ∃ e rest, es.filter fits = e :: rest.filter fits ∧ rest.length < es.length ∧
    ∃ d', x d = .ok (some e) d' ∧ Listed d d' ∧ Giving h rest d'

theorem readListing_advances (hd : Giving h es d) :
    Advances (Entry.fits none) h es d (readListing h) := by
  cases es with
  | nil => exact Or.inl ⟨rfl, d, readListing_nil hd, .refl d, hd⟩
  | cons e es => exact Or.inr ⟨e, es, rfl, Nat.lt_succ_self _, readListing_cons hd⟩

theorem findWithin_advances (hd : Giving h es d) {fuel : Nat} (hfuel : es.length < fuel) :
    Advances (Entry.fits (some pattern)) h es d (findWithin pattern h fuel) := by
  induction fuel generalizing es d with
  | zero => exact absurd hfuel (Nat.not_lt_zero _)
  | succ fuel ih =>
    unfold Advances findWithin
    rw [bind_apply]
    cases es with
    | nil =>
      rw [readListing_nil hd]
      exact Or.inl ⟨rfl, d, rfl, .refl d, hd⟩
    | cons e es =>
      obtain ⟨d₁, hread, hlisted, hd₁⟩ := readListing_cons hd
      rw [hread]
      dsimp only
      have hfits : Entry.fits (some pattern) e = Glob.isMatch pattern e.name := rfl
      rw [← hfits]
      by_cases hfits : Entry.fits (some pattern) e = true
      · rw [if_pos hfits, List.filter_cons_of_pos hfits]
        exact Or.inr ⟨e, es, rfl, Nat.lt_succ_self _, d₁, rfl, hlisted, hd₁⟩
      · rw [if_neg hfits, List.filter_cons_of_neg hfits]
        rcases ih hd₁ (Nat.lt_of_succ_lt_succ hfuel) with
          ⟨hnone, d₂, hx, hlisted₂, hd₂⟩ | ⟨e', rest, hrest, hlen, d₂, hx, hlisted₂, hd₂⟩
        · exact Or.inl ⟨hnone, d₂, hx, hlisted.trans hlisted₂, hd₂⟩
        · exact Or.inr ⟨e', rest, hrest, Nat.lt_succ_of_lt hlen, d₂, hx, hlisted.trans hlisted₂, hd₂⟩

theorem findNext_advances (hd : Giving h es d) :
    Advances (Entry.fits (some pattern)) h es d (findNext h pattern) := by
  have hpending : d.volume.pending h = es.length := by
    unfold Volume.pending
    rw [hd.pending]
    rfl
  have hx : findNext h pattern d = findWithin pattern h (d.volume.pending h + 1) d := rfl
  unfold Advances
  rw [hx, hpending]
  exact findWithin_advances hd (Nat.lt_succ_self _)

end Drive

end Card

namespace Shell

open Drive

variable {m : Machine} {h : Nat} {es : List Entry} {pattern : Option Text}

theorem nextEntry_cases (pattern : Option Text) (hm : Giving h es m.drive) :
    (es.filter (Entry.fits pattern) = [] ∧ ∃ d, nextEntry h pattern m = .ok none { m with drive := d } ∧
      Listed m.drive d ∧ Giving h [] d) ∨
    ∃ e rest, es.filter (Entry.fits pattern) = e :: rest.filter (Entry.fits pattern) ∧
      rest.length < es.length ∧ ∃ d, nextEntry h pattern m = .ok (some e) { m with drive := d } ∧
        Listed m.drive d ∧ Giving h rest d := by
  have hsteps : ∃ x, nextEntry h pattern = drive x ∧
      Advances (Entry.fits pattern) h es m.drive x := by
    cases pattern with
    | none => exact ⟨_, rfl, readListing_advances hm⟩
    | some p => exact ⟨_, rfl, findNext_advances hm⟩
  obtain ⟨x, hx, hsteps⟩ := hsteps
  rw [hx]
  rcases hsteps with ⟨hnone, d, hd, hrest⟩ | ⟨e, rest, hrest, hlen, d, hd, hgiving⟩
  · exact Or.inl ⟨hnone, d, drive_ok hd, hrest⟩
  · exact Or.inr ⟨e, rest, hrest, hlen, d, drive_ok hd, hgiving⟩

theorem stepsOf_apply (hm : Giving h es m.drive) : stepsOf h m = .ok (es.length + 1) m := by
  have hsteps : stepsOf h m = .ok (m.drive.volume.pending h + 1) m := rfl
  rw [hsteps]
  unfold Volume.pending
  rw [hm.pending]
  rfl

variable {α : Type}

theorem withListing_error {path : Text} {e : Error} (hf : m.drive.faults = [])
    (he : m.drive.volume.entriesOf path = .error e) (body : Nat → Shell α) :
    withListing path body m = .error (.failed e) m := by
  unfold withListing
  rw [bind_apply, drive_error (openListing_error hf he)]

/-- Where the directory opens and `body` reads its entries, it is closed again without an error. -/
theorem withListing_ok {path : Text} {Q : α → Machine → Prop} (hf : m.drive.faults = [])
    (he : m.drive.volume.entriesOf path = .ok es) (body : Nat → Shell α)
    (hbody : ∀ h d, Listed m.drive d → Giving h es d →
      ∃ a m' rest, body h { m with drive := d } = .ok a m' ∧ Giving h rest m'.drive ∧ Q a m') :
    ∃ a m' d, withListing path body m = .ok a { m' with drive := d } ∧ Listed m'.drive d ∧ Q a m' := by
  obtain ⟨h, d, hopen, hlisted, hd⟩ := openListing_ok hf he
  obtain ⟨a, m', rest, hrun, hgiving, hq⟩ := hbody h d hlisted hd
  obtain ⟨d', hclose, hlisted'⟩ := closeListing_ok hgiving
  refine ⟨a, m', d', ?_, hlisted', hq⟩
  unfold withListing
  rw [bind_apply, drive_ok hopen]
  dsimp only
  exact closing_ok hrun (drive_ok hclose)

section Heap

theorem outcome_reserve (bytes : Nat) (m : Machine) :
    ∃ h, outcome (heap (Heap.reserve bytes)) m = .ok (.error .outOfMemory) { m with heap := h } ∨
      outcome (heap (Heap.reserve bytes)) m = .ok (.ok ()) { m with heap := h } := by
  rcases Heap.reserve_cases bytes m.heap with ⟨h, hx⟩ | ⟨h, hx⟩
  · exact ⟨h, Or.inl (outcome_failed (heap_error hx))⟩
  · exact ⟨h, Or.inr (outcome_ok (heap_ok hx))⟩

theorem reserveTexts_cases (ts : List Text) (m : Machine) :
    ∃ r h, reserveTexts ts m = .ok r { m with heap := h } := by
  induction ts generalizing m with
  | nil => exact ⟨.ok (), m.heap, rfl⟩
  | cons t ts ih =>
    unfold reserveTexts
    rw [bind_apply]
    obtain ⟨h, hx | hx⟩ := outcome_reserve (Heap.textBlock t) m
    · exact ⟨.error .outOfMemory, h, by rw [hx]; rfl⟩
    · obtain ⟨r, h', hts⟩ := ih { m with heap := h }
      rw [hx]
      dsimp only
      rw [bind_apply, hts]
      cases r with
      | ok _ => exact ⟨.ok (), h', rfl⟩
      | error e => exact ⟨.error e, h'.release (Heap.textBlock t), rfl⟩

theorem releaseTexts_cases (ts : List Text) (m : Machine) :
    ∃ h, releaseTexts ts m = .ok () { m with heap := h } := by
  induction ts generalizing m with
  | nil => exact ⟨m.heap, rfl⟩
  | cons t ts ih => exact ih { m with heap := m.heap.release (Heap.textBlock t) }

end Heap

end Shell

end CardShell
