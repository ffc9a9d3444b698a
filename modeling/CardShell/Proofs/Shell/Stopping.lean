import CardShell.Proofs.Shell.Listing
import CardShell.Proofs.Shell.Throughout

/-!
Computations that stop the machine. A computation put together from others stops where one of those
does, and a listing stops exactly if entries come to be printed in columns that are too wide.
-/

set_option autoImplicit false

namespace CardShell.Shell

open CardShell.Action Listing

variable {α β : Type} {why : Stop} {m : Machine}

def Stops (x : Shell α) (why : Stop) (m : Machine) : Prop := ∃ m', x m = .error (.stopped why) m'

theorem Ends.not_stops {x : Shell α} (hx : Ends x) : ¬ Stops x why m :=
  fun ⟨m', h⟩ => hx m why m' h

theorem not_stops_of_ok {x : Shell α} {a : α} {m' : Machine} (h : x m = .ok a m') :
    ¬ Stops x why m := by
  rintro ⟨_, hstop⟩
  rw [h] at hstop
  cases hstop

theorem stops_of_error {x : Shell α} {e : Halt} {m' : Machine} (h : x m = .error e m') :
    Stops x why m ↔ e = .stopped why := by
  unfold Stops
  rw [h]
  constructor
  · rintro ⟨_, h⟩
    cases h
    rfl
  · rintro rfl
    exact ⟨m', rfl⟩

section Parts

variable {x : Shell α} {f : α → Shell β}

theorem stops_bind_iff :
    Stops (x >>= f) why m ↔ Stops x why m ∨ ∃ a m', x m = .ok a m' ∧ Stops (f a) why m' := by
  unfold Stops
  rw [bind_apply]
  cases x m with
  | ok a m' =>
    constructor
    · exact fun h => Or.inr ⟨a, m', rfl, h⟩
    · rintro (⟨_, h⟩ | ⟨_, _, h, hf⟩)
      · cases h
      · cases h
        exact hf
  | error e m' =>
    constructor
    · rintro ⟨_, h⟩
      cases h
      exact Or.inl ⟨_, rfl⟩
    · rintro (⟨_, h⟩ | ⟨_, _, h, _⟩)
      · cases h
        exact ⟨_, rfl⟩
      · cases h

theorem stops_bind_of_ends (hx : Ends x) :
    Stops (x >>= f) why m ↔ ∃ a m', x m = .ok a m' ∧ Stops (f a) why m' :=
  stops_bind_iff.trans (or_iff_right hx.not_stops)

theorem stops_bind_of_ok {a : α} {m' : Machine} (h : x m = .ok a m') :
    Stops (x >>= f) why m ↔ Stops (f a) why m' := by
  unfold Stops
  rw [bind_apply, h]

theorem stops_bind_of_error {e : Halt} {m' : Machine} (h : x m = .error e m') :
    Stops (x >>= f) why m ↔ e = .stopped why := by
  have hx : (x >>= f) m = .error e m' := by rw [bind_apply, h]
  exact stops_of_error hx

theorem stops_closing_iff {close : Shell Unit} (hc : Ends close) {body : Shell α} :
    Stops (closing close body) why m ↔ Stops body why m := by
  cases hbody : body m with
  | ok a m' =>
    refine iff_of_false ?_ (not_stops_of_ok hbody)
    rintro ⟨m₂, h⟩
    unfold closing at h
    rw [hbody] at h
    cases hclose : close m' with
    | ok u m₃ =>
      simp only [hclose] at h
      cases h
    | error e m₃ =>
      simp only [hclose] at h
      cases h
      exact hc m' why m₂ hclose
  | error e m' => rw [stops_of_error hbody, stops_of_error (closing_error hbody)]

end Parts

theorem throughout_ends : Throughout fun _ x => Ends x where
  stepwise :=
    { plain := Plain.ends
      bind := ends_bind
      outcome := ends_outcome
      closing := ends_closing
      ask := ends_ask
      drive := fun _ => ends_on _ _ _
      heap := fun x => ends_on _ _ x
      release := fun _ => ends_modifyGet _ }
  drive := fun _ => ends_on _ _ _
  directory := fun _ => ends_modifyGet _

/-- With texts on the heap it is the body that stops, and without them what is done otherwise. -/
theorem stops_withTexts_iff {ts : List Text} {otherwise body : Shell α} (ho : Ends otherwise) :
    Stops (withTexts ts otherwise body) why m ↔
      ∃ m', reserveTexts ts m = .ok (.ok ()) m' ∧ Stops body why m' := by
  have hclose : Ends (releaseTexts ts) := throughout_ends.stepwise.releaseTexts ts
  unfold withTexts
  rw [stops_bind_of_ends (throughout_ends.stepwise.reserveTexts ts)]
  constructor
  · rintro ⟨e | u, m', hx, hstop⟩
    · exact absurd hstop ho.not_stops
    · exact ⟨m', hx, (stops_closing_iff hclose).mp hstop⟩
  · rintro ⟨m', hx, hstop⟩
    exact ⟨.ok (), m', hx, (stops_closing_iff hclose).mpr hstop⟩

theorem stops_withEntries_iff {dir : Text} {pattern : Option Text} {count : Nat} {stream : Shell α}
    {print : List Entry → Shell α} (hs : Ends stream) :
    Stops (withEntries dir pattern count stream print) why m ↔
      ∃ m₁ es m₂, heap (Heap.reserve (count * recordSize)) m = .ok () m₁ ∧
        collect dir pattern count m₁ = .ok (es, .ok ()) m₂ ∧ Stops (print es) why m₂ := by
  have hreserve : Ends (outcome (heap (Heap.reserve (count * recordSize)))) :=
    ends_outcome (ends_on _ _ _)
  have hcollect : Ends (collect dir pattern count) := throughout_ends.stepwise.collect dir pattern count
  have hrelease : ∀ es : List Entry,
      Ends (do releaseTexts (es.map Entry.name); release (count * recordSize)) := fun es =>
    ends_bind (throughout_ends.stepwise.releaseTexts _) fun _ => ends_modifyGet _
  unfold withEntries
  rw [stops_bind_of_ends hreserve]
  constructor
  · rintro ⟨e | u, m₁, hx, hstop⟩
    · cases e with
      | outOfMemory => exact absurd hstop hs.not_stops
      | _ => exact absurd hstop (ends_fail _).not_stops
    · obtain ⟨⟨es, e | u'⟩, m₂, hes, hstop⟩ := (stops_bind_of_ends hcollect).mp hstop
      · have hends : Ends (do
            releaseTexts (es.map Entry.name)
            release (count * recordSize)
            if e = .outOfMemory then stream else fail e) := by
          refine ends_bind (throughout_ends.stepwise.releaseTexts _) fun _ => ?_
          refine ends_bind (ends_modifyGet _) fun _ => ?_
          split
          · exact hs
          · exact ends_fail e
        exact absurd hstop hends.not_stops
      · exact ⟨m₁, es, m₂, outcome_ok_inv hx, hes, (stops_closing_iff (hrelease es)).mp hstop⟩
  · rintro ⟨m₁, es, m₂, hx, hes, hstop⟩
    refine ⟨.ok (), m₁, outcome_ok hx, (stops_bind_of_ends hcollect).mpr ⟨_, m₂, hes, ?_⟩⟩
    exact (stops_closing_iff (hrelease es)).mpr hstop

theorem stops_printEntries_iff {es : List Entry} {long : Bool} :
    Stops (printEntries es long) why m ↔
      why = .tooWide ∧ long = false ∧ ¬ Printable m.console.columns es := by
  by_cases h : long = true ∨ Printable m.console.columns es
  · obtain ⟨c, hx, _⟩ := printEntries_ok h
    refine iff_of_false (not_stops_of_ok hx) ?_
    rintro ⟨_, hlong, hwide⟩
    rcases h with h | h
    · rw [hlong] at h
      cases h
    · exact hwide h
  · obtain ⟨hlong, hwide⟩ := not_or.mp h
    have hlong := Bool.eq_false_of_not_eq_true hlong
    obtain ⟨c, hx⟩ := printEntries_stops hwide
    rw [hlong, stops_of_error hx]
    constructor
    · rintro ⟨⟩
      exact ⟨rfl, rfl, hwide⟩
    · rintro ⟨rfl, -⟩
      rfl

/-- Prints the heading of a listing, and tells how many entries there are. -/
def heading (label dir : Text) (pattern : Option Text) : Shell Nat := do
  let count ← withListing (PathText.toOpen dir) fun h => do
    countEntries h pattern (← stepsOf h)
  let shown ← shownDirectory dir pattern
  print ("Volume: " ++ volumeName label ++ "\r\n")
  print ("Directory: " ++ shown ++ "\r\n\r\n")
  return count

theorem listOnHeap_eq (label dir : Text) (pattern : Option Text) (long : Bool) :
    listOnHeap label dir pattern long = heading label dir pattern >>= fun count =>
      if count = 0 then print notice
      else withEntries dir pattern count (streamListing dir pattern long) (printEntries · long) := by
  simp only [listOnHeap, heading, bind_assoc, pure_bind, printSorted_eq]
  rfl

theorem ends_heading (label dir : Text) (pattern : Option Text) : Ends (heading label dir pattern) := by
  have hC := throughout_ends.closed
  refine ends_bind (hC.withListing _ fun h => ?_) fun count => ?_
  · exact hC.bind (hC.stepsOf h) fun fuel => hC.countEntries h pattern fuel
  · refine ends_bind (hC.shownDirectory dir pattern) fun shown => ?_
    exact ends_bind (hC.print _) fun _ => ends_bind (hC.print _) fun _ => ends_pure count

/-- A listing comes to print these entries in order: there are some, and the parts of the path, a record
for each entry and the names found room on the heap. -/
def Gathers (path : Text) (m : Machine) (es : List Entry) (m' : Machine) : Prop :=
  let target := PathText.split path
  ∃ label m₁ m₂ count m₃ m₄,
    drive Drive.label m = .ok label m₁ ∧
    reserveTexts target.parts m₁ = .ok (.ok ()) m₂ ∧
    heading label target.directory target.pattern? m₂ = .ok count m₃ ∧ count ≠ 0 ∧
    heap (Heap.reserve (count * recordSize)) m₃ = .ok () m₄ ∧
    collect target.directory target.pattern? count m₄ = .ok (es, .ok ()) m'

theorem stops_list_iff {path : Text} {long : Bool} :
    Stops (list path long) why m ↔ why = .tooWide ∧ long = false ∧
      ∃ es m', Gathers path m es m' ∧ ¬ Printable m'.console.columns es := by
  have hC := throughout_ends.closed
  have hlist : list path long = drive Drive.label >>= fun label =>
      withTexts (PathText.split path).parts
        (print (shortHeading label) >>= fun _ =>
          streamListing (PathText.split path).directory (PathText.split path).pattern? long)
        (listOnHeap label (PathText.split path).directory (PathText.split path).pattern? long) := by
    unfold list
    cases PathText.split path <;> rfl
  have hstream := hC.streamListing (PathText.split path).directory (PathText.split path).pattern? long
  have hlabel : Ends (drive Drive.label) := ends_on _ _ _
  rw [hlist, stops_bind_of_ends hlabel]
  unfold Gathers
  generalize PathText.split path = target at hstream ⊢
  constructor
  · rintro ⟨label, m₁, hlabel, hstop⟩
    obtain ⟨m₂, hparts, hstop⟩ :=
      (stops_withTexts_iff (ends_bind (hC.print _) fun _ => hstream)).mp hstop
    rw [listOnHeap_eq, stops_bind_of_ends (ends_heading _ _ _)] at hstop
    obtain ⟨count, m₃, hcount, hstop⟩ := hstop
    split at hstop
    · exact absurd hstop (Ends.not_stops (hC.print _))
    · rename_i hsome
      obtain ⟨m₄, es, m', hroom, hes, hstop⟩ := (stops_withEntries_iff hstream).mp hstop
      obtain ⟨hwhy, hlong, hwide⟩ := stops_printEntries_iff.mp hstop
      exact ⟨hwhy, hlong, es, m', ⟨label, m₁, m₂, count, m₃, m₄, hlabel, hparts, hcount, hsome, hroom,
        hes⟩, hwide⟩
  · rintro ⟨hwhy, hlong, es, m', ⟨label, m₁, m₂, count, m₃, m₄, hlabel, hparts, hcount, hsome, hroom,
      hes⟩, hwide⟩
    refine ⟨label, m₁, hlabel, ?_⟩
    refine (stops_withTexts_iff (ends_bind (hC.print _) fun _ => hstream)).mpr ⟨m₂, hparts, ?_⟩
    rw [listOnHeap_eq, stops_bind_of_ends (ends_heading _ _ _)]
    refine ⟨count, m₃, hcount, ?_⟩
    rw [if_neg hsome]
    refine (stops_withEntries_iff hstream).mpr ⟨m₄, es, m', hroom, hes, ?_⟩
    exact stops_printEntries_iff.mpr ⟨hwhy, hlong, hwide⟩

end CardShell.Shell
