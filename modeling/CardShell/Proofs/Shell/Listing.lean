import CardShell.Proofs.Shell.Fields
import CardShell.Proofs.Shell.Walk
import CardShell.Proofs.Volume.Children
import CardShell.Proofs.Volume.Operation
import Mathlib

/-!
Listings with a heap that may be full at any moment, step by step: what is printed on a card that does
not fail, whichever way is taken.
-/

set_option autoImplicit false

namespace CardShell

theorem Path.IsName.not_mem_of_isControl {name : Text} (h : IsName name) {c : Char}
    (hc : Text.isControl c = true) : c ∉ name := by
  intro hmem
  have hvalid := h.valid
  unfold isValidName at hvalid
  rw [Bool.and_eq_true, Bool.not_eq_true', List.any_eq_false] at hvalid
  exact hvalid.2 c hmem (by rw [hc, Bool.true_or])

namespace PathText.Target

/-- The directory that is listed; an empty one is the current one. -/
def directory : Target → Text
  | single path => path
  | matching dir _ => dir

def pattern? : Target → Option Text
  | single _ => none
  | matching _ pattern => some pattern

end PathText.Target

namespace Shell

open CardShell.Action Drive Listing

variable {m m₁ m₂ : Machine} {bs cs : List UInt8} {h : Nat} {es : List Entry} {pattern : Option Text}

/-- The bytes were printed, and of the card only handles given out and open listings changed. -/
structure Printed (bs : List UInt8) (m m' : Machine) : Prop where
  listed : Listed m.drive m'.drive
  directory : m'.directory = m.directory
  columns : m'.console.columns = m.console.columns
  output : m'.console.output = m.console.output ++ bs

theorem Printed.trans (h : Printed bs m m₁) (h' : Printed cs m₁ m₂) : Printed (bs ++ cs) m m₂ :=
  ⟨h.listed.trans h'.listed, h'.directory.trans h.directory, h'.columns.trans h.columns,
    by rw [h'.output, h.output, List.append_assoc]⟩

theorem Printed.faultless (h : Printed bs m m₁) (hf : m.drive.faults = []) : m₁.drive.faults = [] :=
  h.listed.faults.trans hf

theorem printed_listed {d : Drive} (h : Listed m.drive d) : Printed [] m { m with drive := d } :=
  ⟨h, rfl, rfl, (List.append_nil _).symm⟩

theorem printed_put (bs : List UInt8) (m : Machine) :
    Printed bs m { m with console := m.console.put bs } :=
  ⟨.refl m.drive, rfl, rfl, Console.output_put bs m.console⟩

theorem print_apply (t : Text) (m : Machine) :
    ∃ m', print t m = .ok () m' ∧ Printed t.bytes m m' := ⟨_, rfl, printed_put t.bytes m⟩

/-- What the heap and the card's listings were when printing began does not count, -/
theorem Printed.since {heap : Heap} {d : Drive} (h : Listed m.drive d)
    (hm : Printed bs { m with heap := heap, drive := d } m₁) : Printed bs m m₁ :=
  ⟨h.trans hm.listed, hm.directory, hm.columns, hm.output⟩

/-- nor does what they become when it is over. -/
theorem Printed.until {heap : Heap} {d : Drive} (hm : Printed bs m m₁) (h : Listed m₁.drive d) :
    Printed bs m { m₁ with heap := heap, drive := d } :=
  ⟨hm.listed.trans h, hm.directory, hm.columns, hm.output⟩

/-- The listing of these entries ends well with such bytes printed, or it stops the machine, which takes
the brief form and a field that is too wide. -/
def Lists (long : Bool) (es : List Entry) (P : List UInt8 → Prop) (x : Shell Unit) (m : Machine) :
    Prop :=
  (∃ m' bs, x m = .ok () m' ∧ Printed bs m m' ∧ P bs) ∨
  long = false ∧ ¬ Printable m.console.columns es ∧ ∃ m', x m = .error (.stopped .tooWide) m'

theorem countEntries_apply (pattern : Option Text) {fuel : Nat} (hm : Giving h es m.drive)
    (hfuel : es.length < fuel) :
    ∃ d, countEntries h pattern fuel m =
        .ok (es.filter (Entry.fits pattern)).length { m with drive := d } ∧
      Listed m.drive d ∧ Giving h [] d := by
  induction fuel generalizing es m with
  | zero => exact absurd hfuel (Nat.not_lt_zero _)
  | succ fuel ih =>
    unfold countEntries
    rw [bind_apply]
    rcases nextEntry_cases pattern hm with
      ⟨hnone, d, hx, hlisted, hd⟩ | ⟨e, rest, hsome, hlen, d, hx, hlisted, hd⟩
    · rw [hx, hnone]
      exact ⟨d, rfl, hlisted, hd⟩
    · obtain ⟨d', hcount, hlisted', hd'⟩ := ih (m := { m with drive := d }) hd (by omega)
      rw [hx, hsome]
      dsimp only
      rw [bind_apply, hcount]
      exact ⟨d', rfl, hlisted.trans hlisted', hd'⟩

theorem streamFrom_apply (pattern : Option Text) (long : Bool) (columns : Nat) {fuel : Nat}
    (hm : Giving h es m.drive) (hfuel : es.length < fuel) (col : Nat) :
    ∃ m' bs, streamFrom long columns h pattern fuel col m = .ok () m' ∧ Printed bs m m' ∧
      Giving h [] m'.drive ∧ Shows long (es.filter (Entry.fits pattern)) bs := by
  induction fuel generalizing es m col with
  | zero => exact absurd hfuel (Nat.not_lt_zero _)
  | succ fuel ih =>
    unfold streamFrom
    rw [bind_apply]
    rcases nextEntry_cases pattern hm with
      ⟨hnone, d, hx, hlisted, hd⟩ | ⟨e, rest, hsome, hlen, d, hx, hlisted, hd⟩
    · rw [hx, hnone]
      refine ⟨_, [], rfl, printed_listed hlisted, hd, ?_⟩
      cases long with
      | true => rfl
      | false => exact .done
    · rw [hx, hsome]
      dsimp only
      cases long with
      | true =>
        obtain ⟨m', bs, hrun, hbs, hgiving, hshows⟩ := ih
          (m := { m with drive := d, console := m.console.put (line e) }) hd (by omega) col
        refine ⟨m', line e ++ bs, ?_, ?_, hgiving, ?_⟩
        · rw [if_pos rfl, bind_apply]
          exact hrun
        · exact ((printed_put (line e) _).trans hbs).since hlisted
        · rw [show bs = _ from hshows]
          rfl
      | false =>
        -- With or without a line break before it, the name is printed and reading goes on.
        have hrest : ∀ m₁ gap col, m₁.drive = d → Printed gap { m with drive := d } m₁ →
            Spread [] gap → ∃ m' bs,
              (do print (e.name ++ "  "); streamFrom false columns h pattern fuel col) m₁ = .ok () m' ∧
              Printed bs m m' ∧ Giving h [] m'.drive ∧
              Shows false (e :: rest.filter (Entry.fits pattern)) bs := by
          intro m₁ gap col hdrive hprinted hgap
          obtain ⟨m', bs, hrun, hbs, hgiving, hshows⟩ := ih
            (m := { m₁ with console := m₁.console.put (Text.bytes (e.name ++ "  ")) })
            (show Giving h rest m₁.drive from hdrive ▸ hd) (by omega) col
          have hname : Spread [e.name] (Text.bytes (e.name ++ "  ")) := by
            rw [Text.bytes_append]
            exact .name _ 32 (Or.inl rfl) (.gap 32 (Or.inl rfl) .done)
          exact ⟨m', _, hrun, (hprinted.trans ((printed_put _ m₁).trans hbs)).since hlisted, hgiving,
            hgap.append (hname.append hshows)⟩
        rw [if_neg Bool.false_ne_true]
        split
        · exact hrest _ _ _ rfl (printed_put _ _) .lineBreak
        · exact hrest _ _ _ rfl ⟨.refl d, rfl, rfl, (List.append_nil _).symm⟩ .done

theorem streamListing_ok {dir : Text} (hf : m.drive.faults = [])
    (he : m.drive.volume.entriesOf (PathText.toOpen dir) = .ok es) (pattern : Option Text)
    (long : Bool) :
    ∃ m' bs, streamListing dir pattern long m = .ok () m' ∧ Printed bs m m' ∧
      Shows long (es.filter (Entry.fits pattern)) bs := by
  obtain ⟨_, m', d, hrun, hlisted, bs, hbs, hshows⟩ := withListing_ok
    (Q := fun _ m' => ∃ bs, Printed bs m m' ∧ Shows long (es.filter (Entry.fits pattern)) bs) hf he
    (fun h => do streamFrom long m.console.columns h pattern (← stepsOf h) 0) (by
      intro h d hlisted hd
      obtain ⟨m', bs, hrun, hbs, hgiving, hshows⟩ := streamFrom_apply (m := { m with drive := d })
        pattern long m.console.columns hd (Nat.lt_succ_self _) 0
      refine ⟨(), m', [], ?_, hgiving, bs, hbs.since hlisted, hshows⟩
      rw [bind_apply, stepsOf_apply (m := { m with drive := d }) hd]
      exact hrun)
  unfold streamListing
  rw [bind_apply, get_apply]
  dsimp only
  rw [bind_apply, hrun]
  cases long with
  | true => exact ⟨_, bs, rfl, hbs.until hlisted, hshows⟩
  | false =>
    refine ⟨_, bs ++ Text.bytes "\r\n", rfl, (hbs.until hlisted).trans (printed_put _ _), ?_⟩
    have hboth := Spread.append (show Spread _ bs from hshows) .lineBreak
    rwa [List.append_nil] at hboth

theorem streamListing_error {dir : Text} {e : Error} (hf : m.drive.faults = [])
    (he : m.drive.volume.entriesOf (PathText.toOpen dir) = .error e) (pattern : Option Text)
    (long : Bool) : streamListing dir pattern long m = .error (.failed e) m := by
  unfold streamListing
  rw [bind_apply, get_apply]
  dsimp only
  rw [bind_apply, withListing_error hf he]

/-- The entries are gathered, all that are asked for, or the heap is full. -/
theorem collectFrom_apply {count : Nat} (hm : Giving h es m.drive)
    (hcount : (es.filter (Entry.fits pattern)).length ≤ count) (acc : List Entry) :
    ∃ gathered r heap d rest, collectFrom h pattern count acc m =
        .ok (gathered, r) { m with heap := heap, drive := d } ∧
      Listed m.drive d ∧ Giving h rest d ∧
      (r = .error .outOfMemory ∨
        r = .ok () ∧ gathered = (es.filter (Entry.fits pattern)).reverse ++ acc) ∧
      (Heap.RoomFor ((es.filter (Entry.fits pattern)).map Entry.name) m.heap → r = .ok ()) := by
  induction count generalizing es m acc with
  | zero =>
    have hnone := List.eq_nil_of_length_eq_zero (Nat.le_zero.mp hcount)
    exact ⟨acc, .ok (), m.heap, m.drive, es, rfl, .refl _, hm, Or.inr ⟨rfl, by rw [hnone]; rfl⟩,
      fun _ => rfl⟩
  | succ count ih =>
    unfold collectFrom
    rw [bind_apply]
    rcases nextEntry_cases pattern hm with
      ⟨hnone, d, hx, hlisted, hd⟩ | ⟨e, rest, hsome, hlen, d, hx, hlisted, hd⟩
    · rw [outcome_ok hx, hnone]
      exact ⟨acc, .ok (), m.heap, d, [], rfl, hlisted, hd, Or.inr ⟨rfl, rfl⟩, fun _ => rfl⟩
    · rw [outcome_ok hx, hsome, List.map_cons]
      dsimp only
      rw [bind_apply]
      -- What the heap says where there is room, to be held against what it does say.
      have hheld : Heap.RoomFor (e.name :: (rest.filter (Entry.fits pattern)).map Entry.name) m.heap →
          ∃ heap, outcome (Shell.heap (Heap.reserve (Heap.textBlock e.name))) { m with drive := d } =
              .ok (.ok ()) { m with heap := heap, drive := d } ∧
            Heap.RoomFor ((rest.filter (Entry.fits pattern)).map Entry.name) heap := by
        intro hroom
        obtain ⟨heap, hres, hleft⟩ := hroom.reserve
        exact ⟨heap, outcome_ok (heap_ok (m := { m with drive := d }) hres), hleft⟩
      obtain ⟨heap, hres | hres⟩ := outcome_reserve (Heap.textBlock e.name) { m with drive := d }
      · rw [hres] at hheld ⊢
        refine ⟨acc, .error .outOfMemory, heap, d, rest, rfl, hlisted, hd, Or.inl rfl, fun hroom => ?_⟩
        obtain ⟨_, hok, _⟩ := hheld hroom
        cases hok
      · rw [hsome, List.length_cons] at hcount
        obtain ⟨gathered, r, heap', d', rest', hrun, hlisted', hd', hr, hwhole⟩ :=
          ih (m := { m with heap := heap, drive := d }) hd (Nat.le_of_succ_le_succ hcount) (e :: acc)
        rw [hres] at hheld ⊢
        refine ⟨gathered, r, heap', d', rest', hrun, hlisted.trans hlisted', hd', ?_, fun hroom => ?_⟩
        · rw [List.reverse_cons, List.append_assoc, List.singleton_append]
          exact hr
        · obtain ⟨_, hok, hleft⟩ := hheld hroom
          cases hok
          exact hwhole hleft

theorem collect_apply {dir : Text} {count : Nat} (hf : m.drive.faults = [])
    (he : m.drive.volume.entriesOf (PathText.toOpen dir) = .ok es)
    (hcount : (es.filter (Entry.fits pattern)).length ≤ count) :
    ∃ gathered r heap d, collect dir pattern count m =
        .ok (gathered, r) { m with heap := heap, drive := d } ∧ Listed m.drive d ∧
      (r = .error .outOfMemory ∨ r = .ok () ∧ gathered = es.filter (Entry.fits pattern)) ∧
      (Heap.RoomFor ((es.filter (Entry.fits pattern)).map Entry.name) m.heap → r = .ok ()) := by
  obtain ⟨h, d, hopen, hlisted, hd⟩ := openListing_ok hf he
  obtain ⟨gathered, r, heap, d₁, rest, hrun, hlisted₁, hd₁, hr, hwhole⟩ :=
    collectFrom_apply (m := { m with drive := d }) hd hcount []
  obtain ⟨d₂, hclose, hlisted₂⟩ := closeListing_ok hd₁
  have hdrive : outcome (drive (Drive.closeListing h)) { m with heap := heap, drive := d₁ } =
      .ok (.ok ()) { m with heap := heap, drive := d₂ } :=
    outcome_ok (drive_ok (m := { m with heap := heap, drive := d₁ }) hclose)
  refine ⟨gathered.reverse, r, heap, d₂, ?_, (hlisted.trans hlisted₁).trans hlisted₂, ?_, hwhole⟩
  · unfold collect
    rw [bind_apply, outcome_ok (drive_ok hopen)]
    dsimp only
    rw [bind_apply, hrun]
    dsimp only
    rw [bind_apply, hdrive]
    cases r <;> rfl
  · refine hr.imp id fun ⟨hok, hgathered⟩ => ⟨hok, ?_⟩
    rw [hgathered, List.append_nil, List.reverse_reverse]

theorem printEntries_lists (long : Bool) (hn : ∀ e ∈ es, '\x11' ∉ e.name) (m : Machine) :
    Lists long es (ShowsAll long es) (printEntries es long) m := by
  by_cases hprint : long = true ∨ Printable m.console.columns es
  · obtain ⟨c, hx, hcolumns, houtput⟩ := printEntries_ok hprint
    exact Or.inl ⟨_, _, hx, ⟨.refl _, rfl, hcolumns, houtput⟩,
      showsAll_sorted long m.console.columns hn⟩
  · obtain ⟨hlong, hwide⟩ := not_or.mp hprint
    rw [Bool.not_eq_true] at hlong
    subst hlong
    obtain ⟨c, hx⟩ := printEntries_stops hwide
    exact Or.inr ⟨rfl, hwide, _, hx⟩

theorem printSorted_lists (pattern : Option Text) (long : Bool) {dir : Text} {count : Nat}
    (hf : m.drive.faults = [])
    (he : m.drive.volume.entriesOf (PathText.toOpen dir) = .ok es)
    (hn : ∀ e ∈ es, '\x11' ∉ e.name)
    (hcount : (es.filter (Entry.fits pattern)).length ≤ count) :
    Lists long (es.filter (Entry.fits pattern)) (ShowsAll long (es.filter (Entry.fits pattern)))
      (printSorted dir pattern count long) m := by
  have hfits : ∀ e ∈ es.filter (Entry.fits pattern), '\x11' ∉ e.name :=
    fun e he => hn e (List.mem_filter.mp he).1
  -- Wherever the heap gives up, the card is one that can be listed from the start.
  have hstream : ∀ m₁ : Machine, Listed m.drive m₁.drive → ∃ m' bs,
      streamListing dir pattern long m₁ = .ok () m' ∧ Printed bs m₁ m' ∧
        ShowsAll long (es.filter (Entry.fits pattern)) bs := by
    intro m₁ hlisted
    obtain ⟨m', bs, hrun, hbs, hshows⟩ := streamListing_ok (hlisted.faults.trans hf)
      ((hlisted.entriesOf _).trans he) pattern long
    exact ⟨m', bs, hrun, hbs, hshows.all hfits⟩
  unfold Lists printSorted
  rw [bind_apply]
  obtain ⟨heap₁, hres | hres⟩ := outcome_reserve (count * recordSize) m
  · obtain ⟨m', bs, hrun, hbs, hshown⟩ := hstream { m with heap := heap₁ } (.refl _)
    rw [hres]
    exact Or.inl ⟨m', bs, hrun, hbs.since (.refl _), hshown⟩
  · obtain ⟨gathered, r, heap₂, d, hcollect, hlisted, hr, _⟩ :=
      collect_apply (m := { m with heap := heap₁ }) hf he hcount
    rw [hres]
    dsimp only
    rw [bind_apply, hcollect]
    rcases hr with rfl | ⟨rfl, rfl⟩
    · obtain ⟨heap₃, hback⟩ :=
        releaseTexts_cases (gathered.map Entry.name) { m with heap := heap₂, drive := d }
      obtain ⟨m', bs, hrun, hbs, hshown⟩ := hstream
        { m with heap := heap₃.release (count * recordSize), drive := d } hlisted
      dsimp only
      rw [bind_apply, hback]
      exact Or.inl ⟨m', bs, hrun, hbs.since hlisted, hshown⟩
    · dsimp only
      rcases printEntries_lists long hfits { m with heap := heap₂, drive := d } with
        ⟨m', bs, hrun, hbs, hshown⟩ | ⟨hlong, hwide, m', hstop⟩
      · obtain ⟨heap₃, hback⟩ := releaseTexts_cases
          ((es.filter (Entry.fits pattern)).map Entry.name) m'
        have hclose : (do
            releaseTexts ((es.filter (Entry.fits pattern)).map Entry.name)
            release (count * recordSize) : Shell Unit) m' =
            .ok () { m' with heap := heap₃.release (count * recordSize) } := by
          rw [bind_apply, hback]
          rfl
        refine Or.inl ⟨{ m' with heap := heap₃.release (count * recordSize) }, bs, ?_, ?_, hshown⟩
        · exact closing_ok hrun hclose
        · exact Printed.until (Printed.since (m := m) hlisted hbs) (.refl _)
      · exact Or.inr ⟨hlong, hwide, _, closing_error hstop⟩

theorem shownDirectory_apply (dir : Text) (pattern : Option Text) (m : Machine) :
    shownDirectory dir pattern m = .ok (nameShown m.directory dir pattern) m := by
  unfold shownDirectory nameShown
  split
  · rfl
  · split
    · rfl
    · rfl

theorem count_ok {dir : Text} (hf : m.drive.faults = [])
    (he : m.drive.volume.entriesOf (PathText.toOpen dir) = .ok es) (pattern : Option Text) :
    ∃ d, withListing (PathText.toOpen dir) (fun h => do countEntries h pattern (← stepsOf h)) m =
      .ok (es.filter (Entry.fits pattern)).length { m with drive := d } ∧ Listed m.drive d := by
  obtain ⟨count, m', d, hrun, hlisted, rfl, d', rfl, hlisted'⟩ := withListing_ok
    (Q := fun count m' => count = (es.filter (Entry.fits pattern)).length ∧
      ∃ d, m' = { m with drive := d } ∧ Listed m.drive d) hf he
    (fun h => do countEntries h pattern (← stepsOf h)) (by
      intro h d hlisted hd
      obtain ⟨d', hrun, hlisted', hd'⟩ := countEntries_apply (m := { m with drive := d })
        pattern hd (Nat.lt_succ_self _)
      refine ⟨_, _, [], ?_, hd', rfl, d', rfl, hlisted.trans hlisted'⟩
      rw [bind_apply, stepsOf_apply (m := { m with drive := d }) hd]
      exact hrun)
  exact ⟨d, hrun, hlisted'.trans hlisted⟩

theorem listOnHeap_lists (label : Text) (pattern : Option Text) (long : Bool) {dir : Text}
    (hf : m.drive.faults = [])
    (he : m.drive.volume.entriesOf (PathText.toOpen dir) = .ok es)
    (hn : ∀ e ∈ es, '\x11' ∉ e.name) :
    Lists long (es.filter (Entry.fits pattern))
      (Printout label (nameShown m.directory dir pattern) long (es.filter (Entry.fits pattern)))
      (listOnHeap label dir pattern long) m := by
  obtain ⟨d, hcount, hlisted⟩ := count_ok hf he pattern
  have hcounted := printed_listed hlisted
  generalize { m with drive := d } = m₁ at hcount hcounted
  obtain ⟨m₂, hvolume, hm₂⟩ := print_apply ("Volume: " ++ volumeName label ++ "\r\n") m₁
  obtain ⟨m₃, hdirectory, hm₃⟩ :=
    print_apply ("Directory: " ++ nameShown m.directory dir pattern ++ "\r\n\r\n") m₂
  have hheading := hcounted.trans (hm₂.trans hm₃)
  rw [List.nil_append, ← Text.bytes_append] at hheading
  unfold Lists listOnHeap
  rw [bind_apply, hcount]
  dsimp only
  rw [bind_apply, shownDirectory_apply, hcounted.directory]
  dsimp only
  rw [bind_apply, hvolume]
  dsimp only
  rw [bind_apply, hdirectory]
  dsimp only
  split
  · rename_i hzero
    have hnone := List.eq_nil_of_length_eq_zero hzero
    obtain ⟨m', hnotice, hm'⟩ := print_apply notice m₃
    exact Or.inl ⟨m', _, hnotice, hheading.trans hm', .none hnone⟩
  · rename_i hsome
    rcases printSorted_lists (m := m₃) pattern long (hheading.faultless hf)
      ((hheading.listed.entriesOf _).trans he) hn (Nat.le_refl _) with
      ⟨m', bs, hrun, hbs, hshown⟩ | ⟨hlong, hwide, hstop⟩
    · refine Or.inl ⟨m', _, hrun, hheading.trans hbs, .full (fun hnone => hsome ?_) hshown⟩
      rw [hnone]
      rfl
    · rw [hheading.columns] at hwide
      exact Or.inr ⟨hlong, hwide, hstop⟩

theorem listOnHeap_error (label : Text) (pattern : Option Text) (long : Bool) {dir : Text}
    {e : Error} (hf : m.drive.faults = [])
    (he : m.drive.volume.entriesOf (PathText.toOpen dir) = .error e) :
    listOnHeap label dir pattern long m = .error (.failed e) m := by
  unfold listOnHeap
  rw [bind_apply, withListing_error hf he]

theorem list_eq (path : Text) (long : Bool) (hf : m.drive.faults = []) :
    list path long m =
      let label := m.drive.volume.label
      let target := PathText.split path
      withTexts target.parts
        (do
          print (shortHeading label)
          streamListing target.directory target.pattern? long)
        (listOnHeap label target.directory target.pattern? long) m := by
  have hlabel : drive Drive.label m = .ok m.drive.volume.label m := by
    have hask : Drive.label m.drive = .ok m.drive.volume.label m.drive :=
      ask_of_faultless .label hf rfl
    exact drive_ok hask
  unfold list
  rw [bind_apply, hlabel]
  cases PathText.split path <;> rfl

theorem list_lists (path : Text) (long : Bool) (hf : m.drive.faults = [])
    (he : m.drive.volume.entriesOf (PathText.toOpen (PathText.split path).directory) = .ok es)
    (hn : ∀ e ∈ es, '\x11' ∉ e.name) :
    Lists long (es.filter (Entry.fits (PathText.split path).pattern?))
      (Printout m.drive.volume.label
        (nameShown m.directory (PathText.split path).directory (PathText.split path).pattern?) long
        (es.filter (Entry.fits (PathText.split path).pattern?)))
      (list path long) m := by
  have heq := list_eq path long hf
  generalize PathText.split path = target at he heq ⊢
  have hfits : ∀ e ∈ es.filter (Entry.fits target.pattern?), '\x11' ∉ e.name :=
    fun e he => hn e (List.mem_filter.mp he).1
  obtain ⟨r, heap, hres⟩ := reserveTexts_cases target.parts m
  unfold Lists
  rw [heq]
  unfold withTexts
  dsimp only
  rw [bind_apply, hres]
  cases r with
  | error _ =>
    obtain ⟨m₁, hprint, hm₁⟩ := print_apply (shortHeading m.drive.volume.label) { m with heap := heap }
    obtain ⟨m', bs, hrun, hbs, hshows⟩ := streamListing_ok (hm₁.faultless hf)
      ((hm₁.listed.entriesOf _).trans he) target.pattern? long
    refine Or.inl ⟨m', _, ?_, (hm₁.trans hbs).since (.refl _), .short (hshows.all hfits)⟩
    dsimp only
    rw [bind_apply, hprint]
    exact hrun
  | ok _ =>
    rcases listOnHeap_lists (m := { m with heap := heap }) m.drive.volume.label target.pattern? long
      hf he hn with ⟨m₁, bs, hrun, hbs, hprintout⟩ | ⟨hlong, hwide, m', hstop⟩
    · obtain ⟨heap', hback⟩ := releaseTexts_cases target.parts m₁
      refine Or.inl ⟨{ m₁ with heap := heap' }, bs, ?_,
        Printed.until (Printed.since (m := m) (.refl _) hbs) (.refl _), hprintout⟩
      exact closing_ok hrun hback
    · exact Or.inr ⟨hlong, hwide, _, closing_error hstop⟩

theorem list_error {e : Error} (path : Text) (long : Bool) (hf : m.drive.faults = [])
    (he : m.drive.volume.entriesOf (PathText.toOpen (PathText.split path).directory) = .error e) :
    ∃ m', list path long m = .error (.failed e) m' := by
  rw [list_eq path long hf]
  generalize PathText.split path = target at he ⊢
  obtain ⟨r, heap, hres⟩ := reserveTexts_cases target.parts m
  unfold withTexts
  rw [bind_apply, hres]
  cases r with
  | error _ =>
    obtain ⟨m₁, hprint, hm₁⟩ := print_apply (shortHeading m.drive.volume.label) { m with heap := heap }
    refine ⟨m₁, ?_⟩
    dsimp only
    rw [bind_apply, hprint]
    exact streamListing_error (hm₁.faultless hf) ((hm₁.listed.entriesOf _).trans he) _ long
  | ok _ =>
    have hrun := listOnHeap_error (m := { m with heap := heap }) m.drive.volume.label
      target.pattern? long hf he
    exact ⟨_, closing_error hrun⟩

end Shell

end CardShell
