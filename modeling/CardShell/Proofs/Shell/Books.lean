import CardShell.Proofs.Heap
import CardShell.Proofs.Shell.Builtins

/-!
The shell's books: what stands on the heap and what is open on the card. A command may take what it
likes; the brackets that commands are made of give it all back, on every way out.
-/

set_option autoImplicit false

namespace CardShell.Shell

open CardShell.Action Heap Volume

variable {α β : Type} {m m' : Machine}

/-- A heap to stand like, and the handles to be open. -/
structure Account where
  heap : Heap
  tally : Tally

/-- With so much more on the heap. -/
def Account.hold (bytes blocks : Nat) (A : Account) : Account :=
  { A with heap := A.heap.hold bytes blocks }

/-- With texts on the heap. -/
def Account.holdTexts (ts : List Text) (A : Account) : Account := A.hold (textBlocks ts) ts.length

structure Books (A : Account) (m : Machine) : Prop where
  heap : A.heap.Even m.heap
  drive : Drive.Tallied A.tally m.drive

/-- The books stand afterwards as they stood before, whatever they say and however it ends. -/
def Balanced (x : Shell α) : Prop := ∀ A, Keeps (Books A) x

variable {A : Account}

section Steps

theorem balanced_drive {x : DriveAction α} (hx : Drive.Steady x) : Balanced (drive x) := by
  intro A m hm
  rw [after_drive]
  exact ⟨hm.heap, hx A.tally m.drive hm.drive⟩

theorem Plain.balanced {x : Shell α} (hx : Plain x) : Balanced x := by
  intro A m hm
  have hb := hx.beside m
  exact ⟨hb.heap ▸ hm.heap, hb.drive ▸ hm.drive⟩

/-- A bracket of the driver is one of the shell. -/
theorem brackets_drive {enter : DriveAction β} {leave : β → DriveAction Unit}
    (h : Brackets Drive.Tallied enter leave) :
    Brackets Books (drive enter) fun b => drive (leave b) := by
  intro A m hm
  have hd := h A.tally m.drive hm.drive
  cases hx : enter m.drive with
  | ok b d =>
    rw [hx] at hd
    obtain ⟨U, hU, hback⟩ := hd
    rw [drive_ok hx]
    refine ⟨{ A with tally := U }, ⟨hm.heap, hU⟩, fun u hu => ?_⟩
    rw [after_drive]
    exact ⟨hu.heap, hback u.drive hu.drive⟩
  | error e d =>
    rw [hx] at hd
    rw [drive_error hx]
    exact ⟨hm.heap, hd⟩

end Steps

section Heap

theorem Account.hold_hold (x y k l : Nat) (A : Account) :
    (A.hold x k).hold y l = A.hold (x + y) (k + l) := by
  unfold Account.hold
  rw [Heap.hold_hold]

theorem Account.holdTexts_cons (t : Text) (ts : List Text) (A : Account) :
    (A.hold (textBlock t) 1).holdTexts ts = A.holdTexts (t :: ts) := by
  unfold Account.holdTexts
  rw [Account.hold_hold, textBlocks_cons, List.length_cons, Nat.add_comm 1]

theorem Account.holdTexts_perm {ss ts : List Text} (h : ss.Perm ts) (A : Account) :
    A.holdTexts ss = A.holdTexts ts := by
  unfold Account.holdTexts
  rw [textBlocks_perm h, h.length_eq]

theorem Account.holdTexts_hold (t : Text) (ts : List Text) (A : Account) :
    (A.holdTexts ts).hold (textBlock t) 1 = A.holdTexts (t :: ts) := by
  unfold Account.holdTexts
  rw [Account.hold_hold, textBlocks_cons, List.length_cons, Nat.add_comm (textBlocks ts)]

theorem reserve_books (h : Books A m) (bytes : Nat) :
    (∃ e m', outcome (heap (Heap.reserve bytes)) m = .ok (.error e) m' ∧ Books A m') ∨
      ∃ m', outcome (heap (Heap.reserve bytes)) m = .ok (.ok ()) m' ∧ Books (A.hold bytes 1) m' := by
  rcases h.heap.reserve bytes with ⟨e, h', hx, heven⟩ | ⟨h', hx, heven⟩
  · have hheap : heap (Heap.reserve bytes) m = .error (.failed e) { m with heap := h' } := by
      unfold heap on zoom
      rw [hx]
    exact Or.inl ⟨e, _, outcome_failed hheap, heven, h.drive⟩
  · have hheap : heap (Heap.reserve bytes) m = .ok () { m with heap := h' } := by
      unfold heap on zoom
      rw [hx]
    exact Or.inr ⟨_, outcome_ok hheap, heven, h.drive⟩

theorem release_apply (bytes : Nat) (m : Machine) :
    release bytes m = .ok () { m with heap := m.heap.release bytes } := rfl

theorem release_books {bytes x k : Nat} (h : Books (A.hold (bytes + x) (1 + k)) m) :
    Books (A.hold x k) ((release bytes).after m) := ⟨h.heap.release, h.drive⟩

theorem releaseTexts_books {ts : List Text} {x k : Nat}
    (h : Books (A.hold (textBlocks ts + x) (ts.length + k)) m) :
    Books (A.hold x k) ((releaseTexts ts).after m) := by
  induction ts generalizing m with
  | nil =>
    have hx : textBlocks [] + x = x := Nat.zero_add x
    have hk : ([] : List Text).length + k = k := Nat.zero_add k
    rw [hx, hk] at h
    exact h
  | cons t ts ih =>
    have hx : textBlocks (t :: ts) + x = textBlock t + (textBlocks ts + x) := by
      rw [textBlocks_cons, Nat.add_assoc]
    have hk : (t :: ts).length + k = 1 + (ts.length + k) := by
      rw [List.length_cons]
      omega
    rw [hx, hk] at h
    rw [releaseTexts, after_bind_ok (release_apply _ m)]
    exact ih (release_books h)

theorem reserveTexts_books (h : Books A m) (ts : List Text) :
    (∃ e m', reserveTexts ts m = .ok (.error e) m' ∧ Books A m') ∨
      ∃ m', reserveTexts ts m = .ok (.ok ()) m' ∧ Books (A.holdTexts ts) m' := by
  induction ts generalizing A m with
  | nil => exact Or.inr ⟨m, rfl, h⟩
  | cons t ts ih =>
    rw [reserveTexts]
    simp only [bind_apply]
    rcases reserve_books h (textBlock t) with ⟨e, m₁, hx, h₁⟩ | ⟨m₁, hx, h₁⟩
    · rw [hx]
      exact Or.inl ⟨e, m₁, rfl, h₁⟩
    · rw [hx]
      simp only [bind_apply]
      rcases ih h₁ with ⟨e, m₂, hy, h₂⟩ | ⟨m₂, hy, h₂⟩
      · have hback : Books (A.hold 0 0) ((release (textBlock t)).after m₂) := release_books h₂
        rw [hy]
        exact Or.inl ⟨e, _, rfl, hback⟩
      · rw [hy]
        exact Or.inr ⟨m₂, rfl, A.holdTexts_cons t ts ▸ h₂⟩

end Heap

section Brackets

theorem balanced_withTexts (ts : List Text) {otherwise body : Shell α} (ho : Balanced otherwise)
    (hb : Balanced body) : Balanced (withTexts ts otherwise body) := by
  intro A m hm
  unfold withTexts
  rcases reserveTexts_books hm ts with ⟨e, m', hx, hm'⟩ | ⟨m', hx, hm'⟩
  · rw [after_bind_ok hx]
    exact ho A m' hm'
  · rw [after_bind_ok hx]
    show Books A ((closing (releaseTexts ts) body).after m')
    rw [after_closing]
    have hback : Books (A.hold 0 0) ((releaseTexts ts).after (body.after m')) :=
      releaseTexts_books (hb _ m' hm')
    exact hback

theorem balanced_withFile (path : Text) (mode : OpenMode) {body : Nat → Shell α}
    (hb : ∀ h, Balanced (body h)) : Balanced (withFile path mode body) :=
  (brackets_drive (Drive.brackets_openFile path mode)).keeps hb

theorem balanced_withListing (path : Text) {body : Nat → Shell α} (hb : ∀ h, Balanced (body h)) :
    Balanced (withListing path body) :=
  (brackets_drive (Drive.brackets_openListing path)).keeps hb

/-- A listing that is opened, walked and closed again leaves on the heap what the walk has put
there. -/
theorem listing_books (h : Books A m) (path : Text) :
    (∃ e m', outcome (drive (Drive.openListing path)) m = .ok (.error e) m' ∧ Books A m') ∨
      ∃ k m' U, outcome (drive (Drive.openListing path)) m = .ok (.ok k) m' ∧
        Books { A with tally := U } m' ∧
        ∀ bytes blocks m'', Books (Account.hold bytes blocks { A with tally := U }) m'' →
          ∃ r m₂, outcome (drive (Drive.closeListing k)) m'' = .ok r m₂ ∧
            Books (A.hold bytes blocks) m₂ := by
  have hd := Drive.brackets_openListing path A.tally m.drive h.drive
  cases hx : Drive.openListing path m.drive with
  | error e d =>
    rw [hx] at hd
    exact Or.inl ⟨e, _, outcome_failed (drive_error hx), h.heap, hd⟩
  | ok k d =>
    rw [hx] at hd
    obtain ⟨U, hU, hback⟩ := hd
    refine Or.inr ⟨k, _, U, outcome_ok (drive_ok hx), ⟨h.heap, hU⟩, fun bytes blocks m'' hm'' => ?_⟩
    obtain ⟨r, hr⟩ := outcome_drive (Drive.closeListing k) m''
    exact ⟨r, _, hr, hm''.heap, hback m''.drive hm''.drive⟩

theorem holdName_books {names : List Text} (hm : Books (A.holdTexts names) m) (e : Entry) :
    (∃ err m', outcome (holdName names e) m = .ok (.error err) m' ∧
      Books (A.holdTexts names) m') ∨
      ∃ m', outcome (holdName names e) m = .ok (.ok (names ++ [e.name], .go)) m' ∧
        Books (A.holdTexts (names ++ [e.name])) m' := by
  rcases reserve_books hm (textBlock e.name) with ⟨err, m', hx, hm'⟩ | ⟨m', hx, hm'⟩
  · have hhold : holdName names e m = .error (.failed .internal) m' := by
      rw [holdName, bind_apply, hx]
      rfl
    exact Or.inl ⟨.internal, m', outcome_failed hhold, hm'⟩
  · have hhold : holdName names e m = .ok (names ++ [e.name], .go) m' := by
      rw [holdName, bind_apply, hx]
      rfl
    rw [A.holdTexts_hold, A.holdTexts_perm (List.perm_append_singleton e.name names).symm] at hm'
    exact Or.inr ⟨m', outcome_ok hhold, hm'⟩

/-- A walk that holds names ends with a list of them, and just these are on the heap. -/
theorem walkFrom_books (h : Nat) (pattern : Text) (fuel : Nat) (names : List Text)
    (hm : Books (A.holdTexts names) m) :
    ∃ held r m', walkFrom h pattern holdName fuel names m = .ok (held, r) m' ∧
      Books (A.holdTexts held) m' := by
  induction fuel generalizing m names with
  | zero => exact ⟨names, .ok (), m, rfl, hm⟩
  | succ fuel ih =>
    obtain ⟨r, hr⟩ := outcome_drive (Drive.findNext h pattern) m
    have hm₁ := balanced_drive (Drive.steady_findNext h pattern) _ m hm
    rw [after_drive] at hm₁
    rw [walkFrom]
    simp only [bind_apply]
    rw [hr]
    rcases r with e | _ | e
    · exact ⟨names, .error e, _, rfl, hm₁⟩
    · exact ⟨names, .ok (), _, rfl, hm₁⟩
    · simp only [bind_apply]
      rcases holdName_books hm₁ e with ⟨err, m₂, hx, hm₂⟩ | ⟨m₂, hx, hm₂⟩
      · rw [hx]
        exact ⟨names, .error err, m₂, rfl, hm₂⟩
      · rw [hx]
        exact ih _ hm₂

theorem forEachMatch_books (dir pattern : Text) (hm : Books A m) :
    ∃ held r m', forEachMatch dir pattern holdName [] m = .ok (held, r) m' ∧
      Books (A.holdTexts held) m' := by
  unfold forEachMatch
  simp only [bind_apply]
  rcases listing_books hm (PathText.toOpen dir) with ⟨e, m₁, hx, hm₁⟩ | ⟨k, m₁, U, hx, hm₁, hback⟩
  · rw [hx]
    exact ⟨[], .error e, m₁, rfl, hm₁⟩
  · rw [hx]
    have hsteps : stepsOf k m₁ = .ok (m₁.drive.volume.pending k + 1) m₁ := rfl
    obtain ⟨held, r, m₂, hwalk, hm₂⟩ :=
      walkFrom_books (A := { A with tally := U }) k pattern (m₁.drive.volume.pending k + 1) [] hm₁
    obtain ⟨c, m₃, hclose, hm₃⟩ := hback _ _ m₂ hm₂
    simp only [bind_apply]
    rw [hsteps]
    simp only
    rw [hwalk]
    simp only
    rw [hclose]
    exact ⟨held, _, m₃, rfl, hm₃⟩

theorem balanced_withMatches (dir pattern : Text) {body : List Text → Shell α}
    (hb : ∀ names, Balanced (body names)) : Balanced (withMatches dir pattern body) := by
  intro A m hm
  obtain ⟨held, r, m', hx, hm'⟩ := forEachMatch_books dir pattern hm
  unfold withMatches
  rw [after_bind_ok hx, after_closing]
  have hbody : Balanced (ofExcept r >>= fun _ => body held) :=
    fun B => keeps_bind (keeps_ofExcept r) fun _ => hb held B
  have hback : Books (A.hold 0 0)
      ((releaseTexts held).after ((ofExcept r >>= fun _ => body held).after m')) :=
    releaseTexts_books (hbody _ m' hm')
  exact hback

theorem collectFrom_books (h : Nat) (pattern : Option Text) (count : Nat) (es : List Entry)
    (hm : Books (A.holdTexts (es.map Entry.name)) m) :
    ∃ all r m', collectFrom h pattern count es m = .ok (all, r) m' ∧
      Books (A.holdTexts (all.map Entry.name)) m' := by
  induction count generalizing m es with
  | zero => exact ⟨es, .ok (), m, rfl, hm⟩
  | succ count ih =>
    have hsteady : ∃ x, nextEntry h pattern = drive x ∧ Drive.Steady x := by
      cases pattern with
      | none => exact ⟨_, rfl, Drive.steady_readListing h⟩
      | some p => exact ⟨_, rfl, Drive.steady_findNext h p⟩
    obtain ⟨x, hnext, hx⟩ := hsteady
    obtain ⟨r, hr⟩ := outcome_drive x m
    have hm₁ := balanced_drive hx _ m hm
    rw [after_drive] at hm₁
    rw [collectFrom, hnext]
    simp only [bind_apply]
    rw [hr]
    rcases r with e | _ | e
    · exact ⟨es, .error e, _, rfl, hm₁⟩
    · exact ⟨es, .ok (), _, rfl, hm₁⟩
    · simp only [bind_apply]
      rcases reserve_books hm₁ (textBlock e.name) with ⟨err, m₂, hy, hm₂⟩ | ⟨m₂, hy, hm₂⟩
      · rw [hy]
        exact ⟨es, .error err, m₂, rfl, hm₂⟩
      · rw [hy]
        rw [A.holdTexts_hold] at hm₂
        exact ih (e :: es) hm₂

theorem collect_books (dir : Text) (pattern : Option Text) (count : Nat) (hm : Books A m) :
    ∃ es r m', collect dir pattern count m = .ok (es, r) m' ∧
      Books (A.holdTexts (es.map Entry.name)) m' := by
  unfold collect
  simp only [bind_apply]
  rcases listing_books hm (PathText.toOpen dir) with ⟨e, m₁, hx, hm₁⟩ | ⟨k, m₁, U, hx, hm₁, hback⟩
  · rw [hx]
    exact ⟨[], .error e, m₁, rfl, hm₁⟩
  · rw [hx]
    obtain ⟨es, r, m₂, hcollect, hm₂⟩ :=
      collectFrom_books (A := { A with tally := U }) k pattern count [] hm₁
    obtain ⟨c, m₃, hclose, hm₃⟩ := hback _ _ m₂ hm₂
    simp only [bind_apply]
    rw [hcollect]
    simp only
    rw [hclose]
    have hrev : A.holdTexts (es.map Entry.name) = A.holdTexts (es.reverse.map Entry.name) :=
      A.holdTexts_perm (es.reverse_perm.map Entry.name).symm
    exact ⟨es.reverse, _, m₃, rfl, hrev ▸ hm₃⟩

theorem releaseTexts_apply (ts : List Text) (m : Machine) :
    releaseTexts ts m = .ok () ((releaseTexts ts).after m) := by
  induction ts generalizing m with
  | nil => rfl
  | cons t ts ih =>
    rw [releaseTexts, after_bind_ok (release_apply _ m), bind_apply, release_apply]
    exact ih _

theorem balanced_withEntries (dir : Text) (pattern : Option Text) (count : Nat) {stream : Shell α}
    {print : List Entry → Shell α} (hs : Balanced stream) (hp : ∀ es, Balanced (print es)) :
    Balanced (withEntries dir pattern count stream print) := by
  intro A m hm
  unfold withEntries
  generalize count * Listing.recordSize = bytes
  -- The names go first, and then the record of the entries.
  have hback : ∀ names m', Books ((A.hold bytes 1).holdTexts names) m' →
      Books A ((release bytes).after ((releaseTexts names).after m')) := by
    intro names m' hm'
    have hsum : (A.hold bytes 1).holdTexts names =
        A.hold (textBlocks names + bytes) (names.length + 1) := by
      unfold Account.holdTexts
      rw [Account.hold_hold, Nat.add_comm bytes, Nat.add_comm 1]
    rw [hsum] at hm'
    have hlast : Books (A.hold 0 0) ((release bytes).after ((releaseTexts names).after m')) :=
      release_books (releaseTexts_books hm')
    exact hlast
  rcases reserve_books hm bytes with ⟨e, m₁, hx, hm₁⟩ | ⟨m₁, hx, hm₁⟩
  · rw [after_bind_ok hx]
    cases e with
    | outOfMemory => exact hs A m₁ hm₁
    | _ => exact hm₁
  · rw [after_bind_ok hx]
    obtain ⟨es, collected, m₂, hy, hm₂⟩ := collect_books dir pattern count hm₁
    dsimp only
    rw [after_bind_ok hy]
    cases collected with
    | ok _ =>
      dsimp only
      rw [after_closing, after_bind_ok (releaseTexts_apply _ _)]
      exact hback _ _ (hp es _ m₂ hm₂)
    | error e =>
      have hm₃ := hback _ m₂ hm₂
      dsimp only
      rw [after_bind_ok (releaseTexts_apply _ _), after_bind_ok (release_apply _ _)]
      split
      · exact hs A _ hm₃
      · exact hm₃

theorem closed_balanced : Closed fun _ x => Balanced x where
  plain := Plain.balanced
  bind := fun hx hf A => keeps_bind (hx A) fun a => hf a A
  outcome := fun hx A => keeps_outcome (hx A)
  ask := fun path _ => keeps_ask (fun _ _ hm => ⟨hm.heap, hm.drive⟩) path
  drive := fun _ hx => balanced_drive hx
  withTexts := balanced_withTexts
  withFile := balanced_withFile
  withListing := balanced_withListing
  withMatches := balanced_withMatches
  withEntries := balanced_withEntries

end Brackets

end CardShell.Shell
