import CardShell.Proofs.Drive.Handles
import CardShell.Proofs.Flat.Operation
import CardShell.Proofs.Shell.Walk
import CardShell.Proofs.Volume.Enumerated
import Mathlib

/-!
Enumerations on a card that does not fail, with anything done to the volume in between. Asked time after
time, an enumeration gives the entries that its directory had when it was opened, those that fit, in their
order; and a walk visits just these, whatever the visits do.
-/

set_option autoImplicit false

namespace CardShell

open CardShell.Action

namespace Drive

variable {d d' : Drive} {h i : Nat} {es : List Entry} {pattern : Option Text}

/-- The next entry of an enumeration, of those that `pattern` matches if there is one. -/
def next (h : Nat) (pattern : Option Text) : DriveAction (Option Entry) :=
  match pattern with
  | some p => findNext h p
  | none => readListing h

/-- Only the enumeration `h` has moved on. -/
structure Skipped (h : Nat) (d d' : Drive) : Prop where
  rest : ∃ t, d' = { d with volume := { d.volume with listings := t } }
  others : ∀ k, k ≠ h → d'.volume.listings.get? k = d.volume.listings.get? k

theorem Skipped.issued (hs : Skipped h d d') : d'.volume.issued = d.volume.issued := by
  obtain ⟨_, rfl⟩ := hs.rest
  rfl

theorem keeps_next {F : List Fault → Prop} {Q : Volume → Prop} (hF : Lasting F)
    (hx : Keeps Q (Volume.readListing h)) (pattern : Option Text) :
    Keeps (Within F Q) (next h pattern) := by
  cases pattern with
  | none => exact keeps_readListing hF hx
  | some p => exact keeps_findNext hF hx p

theorem keeps_skipping (v : Volume) (h : Nat) :
    Keeps (fun w => w.issued = v.issued ∧ ∀ k, k ≠ h → w.listings.get? k = v.listings.get? k)
      (Volume.readListing h) := by
  intro w hw
  rcases Volume.readListing_cases h w with hx | ⟨_, hx⟩ | ⟨_, _, _, hx⟩
  · rw [after_error hx]
    exact hw
  · rw [after_ok hx]
    exact hw
  · rw [after_ok hx]
    exact ⟨hw.1, fun k hk => (Table.get?_set_of_ne hk _ _).trans (hw.2 k hk)⟩

theorem issued_next (h : Nat) (pattern : Option Text) (d : Drive) :
    ((next h pattern).after d).volume.issued = d.volume.issued :=
  (keeps_next lasting_any (keeps_skipping d.volume h) pattern d ⟨trivial, rfl, fun _ _ => rfl⟩).2.1

theorem Listed.skipped {r : Option Entry} (hx : next h pattern d = .ok r d') (hl : Listed d d') :
    Skipped h d d' := by
  have hafter := keeps_next lasting_any (keeps_skipping d.volume h) pattern d
    ⟨trivial, rfl, fun _ _ => rfl⟩
  rw [after_ok hx] at hafter
  obtain ⟨_, hissued, hothers⟩ := hafter
  obtain ⟨_, t, rfl⟩ := hl
  cases hissued
  exact ⟨⟨t, rfl⟩, hothers⟩

theorem next_advances (hd : Giving h es d) (pattern : Option Text) :
    Advances (Entry.fits pattern) h es d (next h pattern) := by
  cases pattern with
  | none => exact readListing_advances hd
  | some p => exact findNext_advances hd

/-- What an enumeration is asked for is the first that fits of what it has still to give. -/
theorem next_ok (hd : Giving h es d) (pattern : Option Text) :
    ∃ rest d', next h pattern d = .ok (es.filter (Entry.fits pattern)).head? d' ∧
      rest.filter (Entry.fits pattern) = (es.filter (Entry.fits pattern)).tail ∧
      (es.filter (Entry.fits pattern) ≠ [] → rest.length < es.length) ∧
      Skipped h d d' ∧ Giving h rest d' := by
  rcases next_advances hd pattern with
    ⟨hnone, d', hx, hl, hd'⟩ | ⟨e, rest, hrest, hlt, d', hx, hl, hd'⟩
  · refine ⟨[], d', ?_, ?_, fun hne => absurd hnone hne, hl.skipped hx, hd'⟩
    · rw [hx, hnone]
      rfl
    · rw [hnone]
      rfl
  · refine ⟨rest, d', ?_, ?_, fun _ => hlt, hl.skipped hx, hd'⟩
    · rw [hx, hrest]
      rfl
    · rw [hrest]
      rfl

/-- A directory that opens gives its entries under the next handle. -/
theorem openListing_held {typed : Text} (hf : d.faults = []) (he : d.volume.entriesOf typed = .ok es) :
    ∃ d', openListing typed d = .ok d.volume.nextHandle d' ∧ d'.volume.issued = d.volume.issued + 1 ∧
      Giving d.volume.nextHandle es d' := by
  have hopen := Volume.openListing_eq typed d.volume
  rw [he] at hopen
  unfold openListing
  rw [change_of_faultless hf, onVolume_ok hopen]
  exact ⟨_, rfl, rfl, hf, Table.get?_set_self _ _ _⟩

section Asking

inductive Turn
  | ask
  | other (op : Volume.Operation)
  deriving DecidableEq, Repr

/-- The answers of the enumeration `h` when it is asked time after time, and the drive that is left. -/
def answers (h : Nat) (pattern : Option Text) :
    List Turn → Drive → List (Except Error (Option Entry)) × Drive
  | [], d => ([], d)
  | .ask :: turns, d =>
    let (rest, last) := answers h pattern turns ((next h pattern).after d)
    (match next h pattern d with
      | .ok e _ => .ok e :: rest
      | .error x _ => .error x :: rest, last)
  | .other op :: turns, d => answers h pattern turns { d with volume := op.run d.volume }

theorem issued_le_answers (h : Nat) (pattern : Option Text) (turns : List Turn) (d : Drive) :
    d.volume.issued ≤ (answers h pattern turns d).2.volume.issued := by
  induction turns generalizing d with
  | nil => exact Nat.le_refl _
  | cons turn turns ih =>
    cases turn with
    | ask => exact Nat.le_trans (Nat.le_of_eq (issued_next h pattern d).symm) (ih _)
    | other op =>
      exact Nat.le_trans (Volume.issued_le_run op d.volume) (ih { d with volume := op.run d.volume })

theorem giving_of_held (hf : d.faults = []) (hheld : Volume.Held i es d.volume)
    (hi : d.volume.issued ≤ i + Volume.handleLimit) : Giving (Volume.handleOf i) es d :=
  ⟨hf, hheld.pending hi⟩

theorem Giving.has (hd : Giving h es d) : d.volume.listings.has h = true :=
  Option.isSome_iff_exists.mpr ⟨es, hd.pending⟩

theorem Giving.held (hd : Giving (Volume.handleOf i) es d) (hi : i < d.volume.issued) :
    Volume.Held i es d.volume := ⟨hi, fun _ => hd.pending⟩

/-- The answers are the entries that fit, one after the other, and then none. -/
theorem answers_of_held {turns : List Turn} (hf : d.faults = []) (hheld : Volume.Held i es d.volume)
    (hturns : ∀ op, Turn.other op ∈ turns → op.Spares (Volume.handleOf i))
    (hi : (answers (Volume.handleOf i) pattern turns d).2.volume.issued ≤ i + Volume.handleLimit) :
    (answers (Volume.handleOf i) pattern turns d).1 =
      (List.range (turns.count .ask)).map fun k => .ok (es.filter (Entry.fits pattern))[k]? := by
  induction turns generalizing es d with
  | nil => rfl
  | cons turn turns ih =>
    have hrest : ∀ op, Turn.other op ∈ turns → op.Spares (Volume.handleOf i) :=
      fun op hop => hturns op (List.mem_cons_of_mem _ hop)
    have hissued := issued_le_answers (Volume.handleOf i) pattern (turn :: turns) d
    cases turn with
    | ask =>
      have hgiving := giving_of_held hf hheld (Nat.le_trans hissued hi)
      obtain ⟨rest, d', hx, hfilter, _, hskipped, hd'⟩ := next_ok hgiving pattern
      have hheld' := hd'.held (hskipped.issued ▸ hheld.issued)
      rw [answers, hx, after_ok hx] at hi ⊢
      dsimp only at hi ⊢
      rw [ih hd'.faultless hheld' hrest hi, List.count_cons_self, List.range_succ_eq_map, List.map_cons,
        List.map_map, hfilter, List.head?_eq_getElem?]
      congr 1
      refine List.map_congr_left fun k _ => ?_
      rw [List.getElem?_tail]
      rfl
    | other op =>
      have hheld' := hheld.run (hturns op List.mem_cons_self)
      rw [List.count_cons_of_ne (by simp)]
      exact ih (d := { d with volume := op.run d.volume }) hf hheld' hrest hi

/-- A directory that opens has its entries asked for, whatever else is done meanwhile. -/
theorem openListing_answers {typed : Text} (hf : d.faults = []) (he : d.volume.entriesOf typed = .ok es) :
    ∃ d', openListing typed d = .ok d.volume.nextHandle d' ∧
      ∀ pattern turns, (∀ op, Turn.other op ∈ turns → op.Spares d.volume.nextHandle) →
        (answers d.volume.nextHandle pattern turns d').2.volume.issued ≤
          d.volume.issued + Volume.handleLimit →
        (answers d.volume.nextHandle pattern turns d').1 = (List.range (turns.count .ask)).map
          fun k => .ok (es.filter (Entry.fits pattern))[k]? := by
  obtain ⟨d', hx, hissued, hd'⟩ := openListing_held hf he
  refine ⟨d', hx, fun pattern turns hturns hi => ?_⟩
  have hheld : Volume.Held d.volume.issued es d'.volume :=
    Giving.held (i := d.volume.issued) hd' (hissued ▸ Nat.lt_succ_self _)
  exact answers_of_held hd'.faultless hheld hturns hi

end Asking

end Drive

namespace Shell

open Drive

variable {β : Type} {m m' : Machine} {h i fuel : Nat} {es : List Entry} {pattern : Text}
  {visit : β → Entry → Shell (β × Flow)} {notes : β}

/-- Whatever `x` does to a card that does not fail, it does by operations that spare the enumeration
`h`. -/
def Spares {α : Type} (h : Nat) (x : Shell α) : Prop :=
  ∀ m : Machine, m.drive.faults = [] → (x.after m).drive.faults = [] ∧
    ∃ ops, (∀ op ∈ ops, op.Spares h) ∧ (x.after m).drive.volume = m.drive.volume.runAll ops

/-- The visits of these entries in turn, up to one that halts, fails or stops the shell, with what the
walk comes to. Each visit has the notes and the machine that the one before has left, but for the
enumeration `h`, which has moved on. -/
inductive Visits (visit : β → Entry → Shell (β × Flow)) (h : Nat) :
    List Entry → β → Machine → EStateM.Result Halt Machine (β × Except Error Unit) → Prop
  | done {notes : β} {m : Machine} {d : Drive} (skipped : Skipped h m.drive d) :
      Visits visit h [] notes m (.ok (notes, .ok ()) { m with drive := d })
  | failed {e : Entry} {es : List Entry} {notes : β} {m m' : Machine} {d : Drive} {x : Error}
      (skipped : Skipped h m.drive d)
      (visited : visit notes e { m with drive := d } = .error (.failed x) m') :
      Visits visit h (e :: es) notes m (.ok (notes, .error x) m')
  | stopped {e : Entry} {es : List Entry} {notes : β} {m m' : Machine} {d : Drive} {why : Stop}
      (skipped : Skipped h m.drive d)
      (visited : visit notes e { m with drive := d } = .error (.stopped why) m') :
      Visits visit h (e :: es) notes m (.error (.stopped why) m')
  | halted {e : Entry} {es : List Entry} {notes notes' : β} {m m' : Machine} {d : Drive}
      (skipped : Skipped h m.drive d)
      (visited : visit notes e { m with drive := d } = .ok (notes', .halt) m') :
      Visits visit h (e :: es) notes m (.ok (notes', .ok ()) m')
  | went {e : Entry} {es : List Entry} {notes notes' : β} {m m' : Machine} {d : Drive}
      {ending : EStateM.Result Halt Machine (β × Except Error Unit)} (skipped : Skipped h m.drive d)
      (visited : visit notes e { m with drive := d } = .ok (notes', .go) m')
      (rest : Visits visit h es notes' m' ending) : Visits visit h (e :: es) notes m ending

/-- A card that does not fail and has given out `n` handles at least. -/
def Since (n : Nat) (m : Machine) : Prop := Within (· = []) (fun v => n ≤ v.issued) m.drive

theorem Spares.since {α : Type} {x : Shell α} (hx : Spares h x) (n : Nat) : Keeps (Since n) x := by
  intro m hm
  obtain ⟨hf, ops, _, hvolume⟩ := hx m hm.1
  refine ⟨hf, ?_⟩
  rw [hvolume]
  exact Nat.le_trans hm.2 (Volume.issued_le_runAll _ ops)

/-- A visit that changes the volume by one operation, and only then decides. -/
theorem spares_change {p : Primitive} {x : VolumeAction Unit} (op : Volume.Operation)
    (hop : op.Spares h) (hx : ∀ v, x.after v = op.run v) (a : β) :
    Spares h (do drive (Drive.change p x); return a) := by
  intro m hf
  have hafter : (Drive.change p x).after m.drive =
      { m.drive with volume := op.run m.drive.volume } := by
    rw [after_congr (change_of_faultless hf p x), after_onVolume, hx]
  rw [after_bind_pure, after_drive, hafter]
  refine ⟨hf, [op], fun op' hop' => ?_, rfl⟩
  rw [List.mem_singleton.mp hop']
  exact hop

theorem since_findNext (n h : Nat) (pattern : Text) : Keeps (Since n) (drive (findNext h pattern)) := by
  have hlasting : Lasting (· = []) := fun p fs hfs => by rw [hfs]; rfl
  have hread : Keeps (fun v : Volume => n ≤ v.issued) (Volume.readListing h) := by
    intro v hv
    exact Nat.le_trans hv (Volume.issued_le_run (.readListing h) v)
  intro m hm
  rw [after_drive]
  exact keeps_findNext hlasting hread pattern m.drive hm

theorem since_walkFrom (hvisit : ∀ notes e, Spares h (visit notes e)) (n : Nat) (pattern : Text)
    (fuel : Nat) (notes : β) : Keeps (Since n) (walkFrom h pattern visit fuel notes) := by
  induction fuel generalizing notes with
  | zero => exact keeps_pure _
  | succ fuel ih =>
    refine keeps_bind (keeps_outcome (since_findNext n h pattern)) fun r => ?_
    rcases r with e | _ | e
    · exact keeps_pure _
    · exact keeps_pure _
    · refine keeps_bind (keeps_outcome ((hvisit notes e).since n)) fun r => ?_
      rcases r with e | ⟨notes, flow⟩
      · exact keeps_pure _
      · cases flow with
        | go => exact ih notes
        | halt => exact keeps_pure _

theorem walkFrom_none {d : Drive} (hx : findNext h pattern m.drive = .ok none d)
    (visit : β → Entry → Shell (β × Flow)) (fuel : Nat) (notes : β) :
    walkFrom h pattern visit (fuel + 1) notes m = .ok (notes, .ok ()) { m with drive := d } := by
  unfold walkFrom
  rw [bind_apply, outcome_ok (drive_ok hx)]
  rfl

theorem walkFrom_some {e : Entry} {d : Drive} (hx : findNext h pattern m.drive = .ok (some e) d)
    (visit : β → Entry → Shell (β × Flow)) (fuel : Nat) (notes : β) :
    walkFrom h pattern visit (fuel + 1) notes m = match visit notes e { m with drive := d } with
      | .error (.failed x) m' => .ok (notes, .error x) m'
      | .error (.stopped why) m' => .error (.stopped why) m'
      | .ok (notes', .halt) m' => .ok (notes', .ok ()) m'
      | .ok (notes', .go) m' => walkFrom h pattern visit fuel notes' m' := by
  rw [walkFrom, bind_apply, outcome_ok (drive_ok hx)]
  dsimp only
  rw [bind_apply]
  rcases hv : visit notes e { m with drive := d } with ⟨⟨notes', flow⟩, m'⟩ | ⟨halt, m'⟩
  · rw [outcome_ok hv]
    cases flow <;> rfl
  · cases halt with
    | failed x =>
      rw [outcome_failed hv]
      rfl
    | stopped why => rw [outcome_stopped hv]

/-- A walk visits the entries that fit of those that the enumeration has still to give. -/
theorem walkFrom_visits (hvisit : ∀ notes e, Spares (Volume.handleOf i) (visit notes e))
    (hf : m.drive.faults = []) (hheld : Volume.Held i es m.drive.volume) (hfuel : es.length < fuel)
    (hi : ((walkFrom (Volume.handleOf i) pattern visit fuel notes).after m).drive.volume.issued ≤
      i + Volume.handleLimit) :
    Visits visit (Volume.handleOf i) (es.filter (Entry.fits (some pattern))) notes m
        (walkFrom (Volume.handleOf i) pattern visit fuel notes m) ∧
      ∃ rest, Giving (Volume.handleOf i) rest
        ((walkFrom (Volume.handleOf i) pattern visit fuel notes).after m).drive := by
  induction fuel generalizing es m notes with
  | zero => exact absurd hfuel (Nat.not_lt_zero _)
  | succ fuel ih =>
    have hissued : m.drive.volume.issued ≤ i + Volume.handleLimit := by
      refine Nat.le_trans ?_ hi
      exact (since_walkFrom hvisit _ pattern (fuel + 1) notes m ⟨hf, Nat.le_refl _⟩).2
    obtain ⟨rest, d, hx, hfilter, hlt, hskipped, hd⟩ :=
      next_ok (giving_of_held hf hheld hissued) (some pattern)
    cases hes : es.filter (Entry.fits (some pattern)) with
    | nil =>
      rw [hes] at hx
      have hwalk := walkFrom_none hx visit fuel notes
      rw [after_ok hwalk, hwalk]
      exact ⟨.done hskipped, rest, hd⟩
    | cons e later =>
      rw [hes] at hx hfilter hlt
      have hwalk := walkFrom_some hx visit fuel notes
      obtain ⟨hf', ops, hops, hvolume⟩ := hvisit notes e { m with drive := d } hd.faultless
      have hheld' : Volume.Held i rest ((visit notes e).after { m with drive := d }).drive.volume := by
        rw [hvolume]
        exact (hd.held (hskipped.issued ▸ hheld.issued)).runAll hops
      rcases hv : visit notes e { m with drive := d } with ⟨⟨notes', flow⟩, m'⟩ | ⟨halt, m'⟩
      · rw [after_ok hv] at hf' hheld'
        rw [hv] at hwalk
        cases flow with
        | halt =>
          rw [after_ok hwalk] at hi ⊢
          rw [hwalk]
          exact ⟨.halted hskipped hv, rest, giving_of_held hf' hheld' hi⟩
        | go =>
          rw [after_congr hwalk] at hi ⊢
          rw [hwalk]
          have hless : rest.length < fuel := by
            have := hlt (List.cons_ne_nil e later)
            omega
          obtain ⟨hvisits, hgiving⟩ := ih hf' hheld' hless hi
          rw [hfilter] at hvisits
          exact ⟨.went hskipped hv hvisits, hgiving⟩
      · rw [after_error hv] at hf' hheld'
        rw [hv] at hwalk
        cases halt with
        | failed x =>
          rw [after_ok hwalk] at hi ⊢
          rw [hwalk]
          exact ⟨.failed hskipped hv, rest, giving_of_held hf' hheld' hi⟩
        | stopped why =>
          rw [after_error hwalk] at hi ⊢
          rw [hwalk]
          exact ⟨.stopped hskipped hv, rest, giving_of_held hf' hheld' hi⟩

section Around

/-- An ending of a walk with the enumeration `h` closed; a stop leaves it open. -/
def closed (h : Nat) : EStateM.Result Halt Machine (β × Except Error Unit) →
    EStateM.Result Halt Machine (β × Except Error Unit)
  | .ok a m => .ok a { m with drive := { m.drive with
      volume := { m.drive.volume with listings := m.drive.volume.listings.erase h } } }
  | .error halt m => .error halt m

theorem outcome_closeListing (hf : m.drive.faults = []) (h : Nat) :
    ∃ r, outcome (drive (Drive.closeListing h)) m = .ok r { m with drive := { m.drive with
        volume := { m.drive.volume with listings := m.drive.volume.listings.erase h } } } ∧
      (m.drive.volume.listings.has h = true → r = .ok ()) := by
  have hafter : (Drive.closeListing h).after m.drive = { m.drive with
      volume := { m.drive.volume with listings := m.drive.volume.listings.erase h } } := by
    unfold Drive.closeListing
    rw [after_release, ticked_of_faultless hf, Volume.after_closeListing]
  obtain ⟨r, hr⟩ := outcome_drive (Drive.closeListing h) m
  rw [hafter] at hr
  refine ⟨r, hr, fun hhas => ?_⟩
  rcases Volume.closeListing_cases h m.drive.volume with hx | ⟨_, hx⟩
  · have hopen : Volume.closeListing h m.drive.volume ≠ .error .invalidObject m.drive.volume := by
      unfold Volume.closeListing
      rw [bind_apply, get_apply]
      dsimp only
      rw [if_pos hhas]
      exact nofun
    exact absurd hx hopen
  · have hclose := outcome_ok (drive_ok (release_of_faultless hf .closeListing hx))
    unfold Drive.closeListing at hr
    rw [hclose] at hr
    cases hr
    rfl

theorem forEachMatch_opened {dir : Text} {d : Drive}
    (hx : Drive.openListing (PathText.toOpen dir) m.drive = .ok h d) (hd : Giving h es d)
    (pattern : Text) (visit : β → Entry → Shell (β × Flow)) (notes : β) :
    forEachMatch dir pattern visit notes m =
      match walkFrom h pattern visit (es.length + 1) notes { m with drive := d } with
      | .ok (notes', walked) m' =>
        (outcome (drive (Drive.closeListing h)) >>= fun closed =>
          pure (notes', do walked; closed)) m'
      | .error halt m' => .error halt m' := by
  unfold forEachMatch
  rw [bind_apply, outcome_ok (drive_ok hx)]
  dsimp only
  rw [bind_apply, stepsOf_apply (m := { m with drive := d }) hd]
  dsimp only
  rw [bind_apply]
  cases walkFrom h pattern visit (es.length + 1) notes { m with drive := d } <;> rfl

/-- The walk that a directory is opened for ends as it ends, and if the enumeration is still open then, it
is closed. -/
theorem forEachMatch_closed {dir : Text} {d : Drive} {m₁ : Machine}
    (hx : Drive.openListing (PathText.toOpen dir) m.drive = .ok h d) (hd : Giving h es d)
    (hm₁ : m₁ = { m with drive := d })
    (hf : ((walkFrom h pattern visit (es.length + 1) notes).after m₁).drive.faults = []) :
    ((forEachMatch dir pattern visit notes).after m).drive.volume.issued =
        ((walkFrom h pattern visit (es.length + 1) notes).after m₁).drive.volume.issued ∧
      (((walkFrom h pattern visit (es.length + 1) notes).after m₁).drive.volume.listings.has h = true →
        forEachMatch dir pattern visit notes m =
          closed h (walkFrom h pattern visit (es.length + 1) notes m₁)) := by
  have hrun := forEachMatch_opened hx hd pattern visit notes
  rw [← hm₁] at hrun
  rcases hw : walkFrom h pattern visit (es.length + 1) notes m₁ with ⟨⟨notes', walked⟩, m'⟩ | ⟨halt, m'⟩
  · rw [hw] at hrun
    rw [after_ok hw] at hf ⊢
    obtain ⟨r, hr, hok⟩ := outcome_closeListing hf h
    dsimp only at hrun
    rw [bind_apply, hr] at hrun
    rw [after_ok hrun, hrun]
    refine ⟨rfl, fun hhas => ?_⟩
    rw [hok hhas]
    cases walked <;> rfl
  · rw [hw] at hrun
    rw [after_error hw, after_error hrun, hrun]
    exact ⟨rfl, fun _ => rfl⟩

/-- A walk through a directory that opens visits the entries that it has then and that fit, and closes
the directory again. -/
theorem forEachMatch_visits {dir : Text} (hf : m.drive.faults = [])
    (hopen : m.drive.volume.entriesOf (PathText.toOpen dir) = .ok es)
    (hvisit : ∀ notes e, Spares m.drive.volume.nextHandle (visit notes e))
    (hi : ((forEachMatch dir pattern visit notes).after m).drive.volume.issued ≤
      m.drive.volume.issued + Volume.handleLimit) :
    ∃ m₁ ending, drive (Drive.openListing (PathText.toOpen dir)) m = .ok m.drive.volume.nextHandle m₁ ∧
      Visits visit m.drive.volume.nextHandle (es.filter (Entry.fits (some pattern))) notes m₁ ending ∧
      forEachMatch dir pattern visit notes m = closed m.drive.volume.nextHandle ending := by
  obtain ⟨d, hx, hissued, hd⟩ := openListing_held hf hopen
  have hheld : Volume.Held m.drive.volume.issued es d.volume :=
    Giving.held (i := m.drive.volume.issued) hd (hissued ▸ Nat.lt_succ_self _)
  obtain ⟨hsince, _⟩ := since_walkFrom hvisit 0 pattern (es.length + 1) notes { m with drive := d }
    ⟨hd.faultless, Nat.zero_le _⟩
  obtain ⟨hsame, hclosed⟩ := forEachMatch_closed hx hd rfl hsince
  rw [hsame] at hi
  obtain ⟨hvisits, rest, hgiving⟩ := walkFrom_visits (m := { m with drive := d }) hvisit hd.faultless hheld
    (Nat.lt_succ_self _) hi
  exact ⟨{ m with drive := d }, _, drive_ok hx, hvisits, hclosed hgiving.has⟩

end Around

end Shell

section Reachable

namespace Volume

theorem entriesOf_of_resolve {v : Volume} {typed : Text} {p : Path} (hp : v.resolve typed = .ok p)
    (hdir : v.isDirectoryAt p.key = true) : v.entriesOf typed = .ok (v.children p.key) := by
  obtain ⟨n, hn, hdir⟩ := isDirectoryAt_iff.mp hdir
  have hfind : v.find typed = .ok (p.key, n) := by
    unfold find
    rw [hp]
    simp only [bind, Except.bind, hn]
    rfl
  rw [entriesOf, hfind]
  exact if_pos hdir

end Volume

/-- Whatever a fresh volume has been through, the scan of its one map of whole paths finds what has one
more part than a directory, and nothing else, and lists, tells and answers what the tree does. The
chronicle of what it has been through tells the entries of each directory and their order; a path leads
to something just if it leads to the root or to an entry that its directory lists; and an enumeration
gives the entries that fit of those that its directory has as it is opened, each in its turn, whatever
else is done to the volume meanwhile. So does a walk visit them, whatever the visits do. -/
theorem enumerations_of_operations (label : Text) (ops : List Volume.Operation) :
    let c := (FlatVolume.labelled label).runAll ops
    let v := (Volume.labelled label).runAll ops
    let keys := (Volume.labelled label).chronicle [] ops
    (c.Holds v ∧
      (∀ key, (v.node? key).isSome = true →
        c.children key.text = .ok (v.children key) ∧
        ∃ l, c.childNodes key.text = .ok l ∧ l.Nodup ∧ ∀ m, m ∈ l ↔ ∃ name, name ≠ [] ∧ '/' ∉ name ∧
          c.nodes[FlatVolume.childPrefix key.text ++ name]? = some m) ∧
      (∀ key, (v.node? key).isSome = true → key ≠ [] →
        c.hasChildren key.text = v.hasChildren key) ∧
      (∀ typed, c.stat typed = Halt.ofExcept (v.stat typed)) ∧
      ∀ more, results FlatVolume.answer more c =
        (results Volume.Operation.answer more v).map (Except.mapError Halt.failed)) ∧
    (keys.Nodup ∧ (∀ key, key ∈ keys ↔ key ≠ [] ∧ (v.node? key).isSome = true) ∧
      ∀ key, v.children key =
        ((keys.filter fun k => k.dropLast = key).filterMap v.node?).map Node.entry) ∧
    (∀ typed e, v.stat typed = .ok e ↔ ∃ p, v.resolve typed = .ok p ∧
      (p = [] ∧ e = v.root.entry ∨
        p ≠ [] ∧ e ∈ v.children p.parent.key ∧ e.name.lower = p.leaf.lower)) ∧
    ∀ p, v.isDirectoryAt p.key = true →
      (∀ (d : Drive) typed, d.volume = v → d.faults = [] → v.resolve typed = .ok p →
        ∃ d', Drive.openListing typed d = .ok v.nextHandle d' ∧
          ∀ pattern turns, (∀ op, Drive.Turn.other op ∈ turns → op.Spares v.nextHandle) →
            (Drive.answers v.nextHandle pattern turns d').2.volume.issued ≤
              v.issued + Volume.handleLimit →
            (Drive.answers v.nextHandle pattern turns d').1 = (List.range (turns.count .ask)).map
              fun k => .ok ((v.children p.key).filter (Entry.fits pattern))[k]?) ∧
      ∀ (m : Machine) (dir pattern : Text) (β : Type) (visit : β → Entry → Shell (β × Flow)) (notes : β),
        m.drive.volume = v → m.drive.faults = [] → v.resolve (PathText.toOpen dir) = .ok p →
        (∀ notes e, Shell.Spares v.nextHandle (visit notes e)) →
        ((Shell.forEachMatch dir pattern visit notes).after m).drive.volume.issued ≤
          v.issued + Volume.handleLimit →
        ∃ m₁ ending, Shell.drive (Drive.openListing (PathText.toOpen dir)) m = .ok v.nextHandle m₁ ∧
          Shell.Visits visit v.nextHandle
            ((v.children p.key).filter fun e => Glob.isMatch pattern e.name) notes m₁ ending ∧
          Shell.forEachMatch dir pattern visit notes m = Shell.closed v.nextHandle ending := by
  intro c v keys
  have hv : v.WellFormed := (Volume.wellFormed_labelled label).runAll ops
  have hc : c.Holds v := FlatVolume.holds_of_operations label ops
  have hkeys : Volume.Chronicled v keys :=
    (Volume.Chronicled.fresh label).run (Volume.wellFormed_labelled label) ops
  have hnamed : ∀ key, (v.node? key).isSome = true → key.Named := by
    intro key hkey
    obtain ⟨n, hn⟩ := Option.isSome_iff_exists.mp hkey
    exact hv.named_key hn
  refine ⟨⟨hc, fun key hkey => ⟨hc.children hv (hnamed key hkey), hc.mem_childNodes hv (hnamed key hkey)⟩,
    fun key hkey hne => hc.hasChildren hv (hnamed key hkey) hne, hc.stat hv,
    fun more => (hc.runAll hv more).1⟩,
    ⟨hkeys.nodup, hkeys.mem_iff, hkeys.children hv⟩, fun typed e => Volume.stat_ok_iff_listed hv, ?_⟩
  clear_value keys c v
  refine fun p hdir => ⟨?_, ?_⟩
  · rintro d typed rfl hf hp
    exact Drive.openListing_answers hf (Volume.entriesOf_of_resolve hp hdir)
  · rintro m dir pattern β visit notes rfl hf hp hvisit hi
    exact Shell.forEachMatch_visits hf (Volume.entriesOf_of_resolve hp hdir) hvisit hi

/-- A directory whose second entry was renamed last, with a sibling that sorts before what is below it.
Its entries are unlinked while they are enumerated, by other operations and by the visits of a walk. -/
theorem enumerations_through_unlinks :
    let ops : List Volume.Operation := [.makeDirectory "/d", .writeFile "/d!" [], .writeFile "/d/b" [1],
      .writeFile "/d/a" [2], .rename "/d/b" "/d/B"]
    let v := (Volume.labelled []).runAll ops
    let m : Machine := { (default : Machine) with drive := { volume := v } }
    let visit (names : List Text) (e : Entry) : Shell (List Text × Flow) := do
      Shell.drive (Drive.unlink ("/d/" ++ e.name))
      return (names ++ [e.name], .go)
    let turns : List Drive.Turn :=
      [.ask, .other (.unlink "/d/B"), .other (.writeFile "/d/z" []), .ask, .ask]
    let a : Entry := ⟨"a", 1, {}, ⟨0x20⟩⟩
    let b : Entry := ⟨"B", 1, {}, ⟨0x20⟩⟩
    (Volume.labelled []).chronicle [] ops =
      [["d".toList], ["d!".toList], ["d".toList, "a".toList], ["d".toList, "b".toList]] ∧
    v.isDirectoryAt ["d".toList] = true ∧ v.children ["d".toList] = [a, b] ∧
    (∃ d', Drive.openListing "/d" { volume := v } = .ok v.nextHandle d' ∧
      (Drive.answers v.nextHandle none turns d').1 = [.ok (some a), .ok (some b), .ok none]) ∧
    ∃ m₁ ending, Shell.drive (Drive.openListing "/d") m = .ok v.nextHandle m₁ ∧
      Shell.Visits visit v.nextHandle [a, b] [] m₁ ending ∧
      Shell.forEachMatch "/d" "*" visit [] m = Shell.closed v.nextHandle ending := by
  intro ops v m visit turns a b
  obtain ⟨_, ⟨_, _, hchildren⟩, _, hall⟩ := enumerations_of_operations [] ops
  have hchronicle : (Volume.labelled []).chronicle [] ops =
      [["d".toList], ["d!".toList], ["d".toList, "a".toList], ["d".toList, "b".toList]] := by
    decide +kernel
  have hdir : v.isDirectoryAt ["d".toList] = true := by decide +kernel
  have hkey : Path.key ["d".toList] = ["d".toList] := by decide
  have hentries : ((Volume.labelled []).runAll ops).children ["d".toList] = [a, b] := by
    rw [hchildren, hchronicle]
    decide +kernel
  obtain ⟨hanswers, hwalks⟩ := hall ["d".toList] hdir
  refine ⟨hchronicle, hdir, hentries, ?_, ?_⟩
  · obtain ⟨d', hopen, hturns⟩ := hanswers { volume := v } "/d" rfl rfl (by decide)
    have hissued : (Drive.answers v.nextHandle none turns
        ((Drive.openListing "/d").after { volume := v })).2.volume.issued ≤
          v.issued + Volume.handleLimit := by
      dsimp only [v, turns, ops]
      cbv
    rw [after_ok hopen] at hissued
    refine ⟨d', hopen, (hturns none turns ?_ hissued).trans ?_⟩
    · intro op hop
      simp only [turns, List.mem_cons, reduceCtorEq, Drive.Turn.other.injEq, false_or, or_false,
        List.not_mem_nil] at hop
      rcases hop with rfl | rfl
      · exact Volume.Operation.spares_of_enumerates rfl _
      · exact Volume.Operation.spares_of_enumerates rfl _
    · rw [hkey, hentries]
      rfl
  · have hissued : ((Shell.forEachMatch "/d" "*" visit []).after m).drive.volume.issued ≤
        v.issued + Volume.handleLimit := by
      dsimp only [m, visit, v, ops]
      cbv
    have hspares : ∀ names e, Shell.Spares v.nextHandle (visit names e) := fun names e =>
      Shell.spares_change (.unlink ("/d/" ++ e.name)) (Volume.Operation.spares_of_enumerates rfl _)
        (fun _ => rfl) _
    have hwalk := hwalks m "/d" "*" _ visit [] rfl rfl (by decide) hspares hissued
    rw [hkey, hentries] at hwalk
    exact hwalk

end Reachable

end CardShell
