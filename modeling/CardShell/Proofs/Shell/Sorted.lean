import CardShell.Proofs.Listing.Columns
import CardShell.Proofs.Listing.Order
import CardShell.Proofs.Shell.Batch
import CardShell.Proofs.Shell.Listing
import CardShell.Proofs.Volume.Atomic

/-!
Listings with enough memory: what is printed to the last byte. The entries come in their order, and
how they got onto the card does not show.
-/

set_option autoImplicit false

namespace CardShell

theorem Text.size_replicate (n : Nat) : Text.size (List.replicate n 'a') = n := by
  induction n with
  | zero => rfl
  | succ n ih =>
    rw [List.replicate_succ, size, ih]
    exact Nat.add_comm 1 n

theorem Path.isName_replicate {n : Nat} (hn : 2 < n) : IsName (List.replicate n 'a') := by
  have hlength : ∀ t : Text, t.length ≤ 2 → List.replicate n 'a' ≠ t := by
    rintro t ht rfl
    rw [List.length_replicate] at ht
    omega
  refine ⟨?_, fun h => ?_, hlength _ (by decide), hlength _ (by decide)⟩
  · unfold isValidName
    rw [List.any_replicate, if_neg (by omega), decide_eq_true (hlength [] (by decide))]
    decide
  · cases List.eq_of_mem_replicate h

namespace Volume

open CardShell.Action

theorem runAll_makeDirectory {name : Text} (h : Path.IsName name) :
    (labelled []).runAll [.makeDirectory (Path.text [name])] =
      (labelled []).insert [name] .directory := by
  have hp : (labelled []).resolve (Path.text [name]) = .ok [name] :=
    Path.resolve_text (List.forall_mem_singleton.mpr h) _
  have hquery : query (fun v : Volume => v.resolve (Path.text [name])) (labelled []) =
      .ok [name] (labelled []) := query_ok hp
  have hx : makeDirectory (Path.text [name]) (labelled []) =
      .ok () ((labelled []).insert [name] .directory) := by
    unfold makeDirectory
    rw [bind_apply, hquery]
    exact (makeDirectoryAt_new (v := labelled []) (p := [name]) rfl rfl rfl).2
  exact after_ok hx

theorem entriesOf_insert (name : Text) :
    ((labelled []).insert [name] .directory).entriesOf "." =
      .ok [Node.entry ⟨[name], .directory, {}, {}, 1⟩] := by
  have hnodes : (((labelled []).insert [name] .directory).nodes.inside []).values =
      [⟨[name], .directory, {}, {}, 1⟩] := rfl
  have hchildren : ((labelled []).insert [name] .directory).children [] =
      [Node.entry ⟨[name], .directory, {}, {}, 1⟩] := by
    unfold children childNodes
    rw [hnodes, List.mergeSort_singleton]
    rfl
  rw [← hchildren]
  rfl

end Volume

namespace Listing

/-- There is room for all that it takes to list the entries in order: the parts of the path, and for
each entry a record and its name. -/
def Roomy (parts : List Text) (es : List Entry) (h : Heap) : Prop :=
  h.failIn = none ∧
  h.inUse + (Heap.textBlocks parts +
    (es.length * recordSize + Heap.textBlocks (es.map Entry.name))) ≤ h.capacity

instance (parts : List Text) (es : List Entry) (h : Heap) : Decidable (Roomy parts es h) :=
  inferInstanceAs (Decidable (_ ∧ _))

theorem Roomy.perm {parts : List Text} {es es' : List Entry} {h : Heap} (hr : Roomy parts es h)
    (hperm : es'.Perm es) : Roomy parts es' h := by
  refine ⟨hr.1, ?_⟩
  rw [hperm.length_eq, Heap.textBlocks_perm (hperm.map Entry.name)]
  exact hr.2

/-- What is printed below the heading, for entries as they are listed. -/
def sheet (console : Console) (long : Bool) (es : List Entry) : List UInt8 :=
  let colours := pickColours console
  if es = [] then notice.bytes
  else (if long then es.flatMap (longLine colours) else brief colours console.columns es) ++
    plain colours

theorem uncoloured_sheet_long (console : Console) {es : List Entry} (hes : es ≠ [])
    (hn : ∀ e ∈ es, '\x11' ∉ e.name) :
    uncoloured false (sheet console true es) = es.flatMap line := by
  unfold sheet
  dsimp only
  rw [if_neg hes, if_pos rfl, uncoloured_longLines _ hn, uncoloured_plain_nil, List.append_nil]

theorem uncoloured_sheet_brief (console : Console) {es : List Entry} (hes : es ≠ [])
    (hn : ∀ e ∈ es, '\x11' ∉ e.name) :
    uncoloured false (sheet console false es) = Text.bytes
      ((rows (longest es) (columnCount console.columns es) es).flatMap (· ++ "\r\n")) := by
  unfold sheet
  dsimp only
  rw [if_neg hes, if_neg Bool.false_ne_true, uncoloured_brief _ _ hn, uncoloured_plain_nil,
    List.append_nil, brief_eq_rows _ hes]

end Listing

namespace Shell

open CardShell.Action Drive Listing

variable {m : Machine} {b : Heap} {held : Nat} {es : List Entry} {pattern : Option Text}

/-- These bytes are printed and the listing ends well; but where the brief form of the entries takes a
field that is too wide, the machine stops. -/
structure InOrder (long : Bool) (es : List Entry) (bs : List UInt8) (x : Shell Unit) (m : Machine) :
    Prop where
  printed : long = true ∨ Printable m.console.columns es →
    ∃ m', x m = .ok () m' ∧ m'.console.output = m.console.output ++ bs
  stops : long = false → ¬ Printable m.console.columns es → ∃ m', x m = .error (.stopped .tooWide) m'

namespace InOrder

variable {long : Bool} {bs : List UInt8} {x y : Shell Unit} {es' : List Entry} {m₁ : Machine}

theorem perm (h : InOrder long es bs x m) (hperm : es.Perm es') : InOrder long es' bs x m where
  printed hprint := h.printed (hprint.imp_right (Printable.perm hperm.symm))
  stops hlong hwide := h.stops hlong (mt (Printable.perm hperm) hwide)

/-- What is given back behind a listing does not show, nor does the state of heap and card before it. -/
theorem closed (h : InOrder long es bs x m₁) (close : Shell Unit)
    (hc : ∀ m₁, ∃ m₂, close m₁ = .ok () m₂ ∧ m₂.console = m₁.console)
    (hconsole : m₁.console = m.console) (hy : y m = closing close x m₁) :
    InOrder long es bs y m where
  printed hprint := by
    obtain ⟨m₂, hx, houtput⟩ := h.printed (hconsole ▸ hprint)
    obtain ⟨m₃, hclose, hsame⟩ := hc m₂
    exact ⟨m₃, hy.trans (closing_ok hx hclose), by rw [hsame, houtput, hconsole]⟩
  stops hlong hwide := by
    obtain ⟨m₂, hx⟩ := h.stops hlong (hconsole ▸ hwide)
    exact ⟨_, hy.trans (closing_error hx)⟩

end InOrder

theorem printEntries_inOrder (long : Bool) (hsome : es ≠ []) (m : Machine) :
    InOrder long es (sheet m.console long (sort es)) (printEntries es long) m where
  printed hprint := by
    obtain ⟨c, hx, _, houtput⟩ := printEntries_ok hprint
    refine ⟨_, hx, houtput.trans ?_⟩
    unfold sheet
    rw [if_neg (mt sort_eq_nil_iff.mp hsome)]
    rfl
  stops hlong hwide := by
    obtain ⟨c, hx⟩ := printEntries_stops hwide
    exact ⟨_, hlong ▸ hx⟩

theorem printSorted_inOrder {dir : Text} (hf : m.drive.faults = [])
    (he : m.drive.volume.entriesOf (PathText.toOpen dir) = .ok es)
    (hsome : es.filter (Entry.fits pattern) ≠ []) (hb : b.Bears held m.heap)
    (hroom : b.inUse + (held + ((es.filter (Entry.fits pattern)).length * recordSize +
      Heap.textBlocks ((es.filter (Entry.fits pattern)).map Entry.name))) ≤ b.capacity) (long : Bool) :
    InOrder long (es.filter (Entry.fits pattern))
      (sheet m.console long (sort (es.filter (Entry.fits pattern))))
      (printSorted dir pattern (es.filter (Entry.fits pattern)).length long) m := by
  generalize hshown : es.filter (Entry.fits pattern) = shown at hsome hroom ⊢
  obtain ⟨heap₁, hres, hheap₁⟩ := outcome_reserve_ok (shown.length * recordSize) hb (by omega)
  have hcount : (es.filter (Entry.fits pattern)).length ≤ shown.length := by rw [hshown]
  obtain ⟨gathered, r, heap₂, d, hcollect, _, hr, hwhole⟩ :=
    collect_apply (m := { m with heap := heap₁ }) hf he hcount
  rw [hshown] at hr hwhole
  obtain ⟨rfl, hgathered⟩ : r = .ok () ∧ gathered = shown := by
    rcases hr with hfull | hr
    · rw [hwhole (hheap₁.roomFor (by omega))] at hfull
      cases hfull
    · exact hr
  rw [hgathered] at hcollect
  have hprint : InOrder long shown (sheet m.console long (sort shown)) (printEntries shown long)
      { m with heap := heap₂, drive := d } :=
    printEntries_inOrder long hsome { m with heap := heap₂, drive := d }
  refine hprint.closed
    (do
      releaseTexts (shown.map Entry.name)
      release (shown.length * recordSize)) (fun m₁ => ?_) rfl ?_
  · obtain ⟨heap₃, hback⟩ := releaseTexts_cases (shown.map Entry.name) m₁
    refine ⟨{ m₁ with heap := heap₃.release (shown.length * recordSize) }, ?_, rfl⟩
    rw [bind_apply, hback]
    rfl
  · unfold printSorted
    rw [bind_apply, hres]
    dsimp only
    rw [bind_apply, hcollect]

theorem listOnHeap_inOrder (label : Text) (pattern : Option Text) {dir : Text} (hf : m.drive.faults = [])
    (he : m.drive.volume.entriesOf (PathText.toOpen dir) = .ok es) (hb : b.Bears held m.heap)
    (hroom : b.inUse + (held + ((es.filter (Entry.fits pattern)).length * recordSize +
      Heap.textBlocks ((es.filter (Entry.fits pattern)).map Entry.name))) ≤ b.capacity) (long : Bool) :
    InOrder long (es.filter (Entry.fits pattern))
      (Text.bytes (fullHeading label (nameShown m.directory dir pattern)) ++
        sheet m.console long (sort (es.filter (Entry.fits pattern))))
      (listOnHeap label dir pattern long) m := by
  obtain ⟨d, hcount, hlisted⟩ := count_ok hf he pattern
  let volumeLine : Text := "Volume: " ++ volumeName label ++ "\r\n"
  let directoryLine : Text := "Directory: " ++ nameShown m.directory dir pattern ++ "\r\n\r\n"
  let m₁ : Machine := { m with
    drive := d
    console := (m.console.put volumeLine.bytes).put directoryLine.bytes }
  have hheading : m₁.console.output = m.console.output ++
      Text.bytes (fullHeading label (nameShown m.directory dir pattern)) := by
    unfold fullHeading
    rw [Text.bytes_append, ← List.append_assoc, Console.output_put, Console.output_put]
  have hrest : listOnHeap label dir pattern long m =
      (if (es.filter (Entry.fits pattern)).length = 0 then print notice
        else printSorted dir pattern (es.filter (Entry.fits pattern)).length long) m₁ := by
    unfold listOnHeap
    rw [bind_apply, hcount]
    dsimp only
    rw [bind_apply, shownDirectory_apply]
    rfl
  have hlisting : InOrder long (es.filter (Entry.fits pattern))
      (sheet m.console long (sort (es.filter (Entry.fits pattern))))
      (if (es.filter (Entry.fits pattern)).length = 0 then print notice
        else printSorted dir pattern (es.filter (Entry.fits pattern)).length long) m₁ := by
    split
    · rename_i hzero
      rw [List.eq_nil_of_length_eq_zero hzero, sort_eq_nil_iff.mpr rfl]
      have hnone : Printable m₁.console.columns [] := fun e he => absurd he List.not_mem_nil
      exact ⟨fun _ => ⟨_, rfl, Console.output_put notice.bytes m₁.console⟩,
        fun _ hwide => absurd hnone hwide⟩
    · rename_i hsome
      have hne : es.filter (Entry.fits pattern) ≠ [] := by
        intro hnil
        rw [hnil] at hsome
        exact hsome rfl
      exact printSorted_inOrder (m := m₁) (hlisted.faults.trans hf) ((hlisted.entriesOf _).trans he)
        hne hb hroom long
  constructor
  · intro hprint
    obtain ⟨m', hx, houtput⟩ := hlisting.printed hprint
    rw [hheading, List.append_assoc] at houtput
    exact ⟨m', hrest.trans hx, houtput⟩
  · intro hlong hwide
    obtain ⟨m', hx⟩ := hlisting.stops hlong hwide
    exact ⟨m', hrest.trans hx⟩

/-- With room for it on the heap a listing prints the full heading and the entries in their order. -/
theorem list_inOrder (path : Text) (hf : m.drive.faults = [])
    (he : m.drive.volume.entriesOf (PathText.toOpen (PathText.split path).directory) = .ok es)
    (hroom : Roomy (PathText.split path).parts
      (es.filter (Entry.fits (PathText.split path).pattern?)) m.heap) (long : Bool) :
    InOrder long (es.filter (Entry.fits (PathText.split path).pattern?))
      (Text.bytes (fullHeading m.drive.volume.label (nameShown m.directory
        (PathText.split path).directory (PathText.split path).pattern?)) ++
        sheet m.console long (sort (es.filter (Entry.fits (PathText.split path).pattern?))))
      (list path long) m := by
  have heq := list_eq path long hf
  generalize PathText.split path = target at he hroom heq ⊢
  obtain ⟨hwilling, hroom⟩ := hroom
  have hparts : m.heap.inUse + (0 + Heap.textBlocks target.parts) ≤ m.heap.capacity := by omega
  obtain ⟨heap, hres, hheap⟩ := reserveTexts_ok (Heap.bears_self m.heap hwilling) hparts
  have hlisting := listOnHeap_inOrder (m := { m with heap := heap }) m.drive.volume.label
    target.pattern? hf he hheap (by omega) long
  refine hlisting.closed (releaseTexts target.parts) (fun m₁ => ?_) rfl ?_
  · obtain ⟨heap', hback⟩ := releaseTexts_cases target.parts m₁
    exact ⟨{ m₁ with heap := heap' }, hback, rfl⟩
  · rw [heq]
    unfold withTexts
    dsimp only
    rw [bind_apply, hres]

/-- The entries of a directory go by different names, which hold no control characters. -/
theorem separate_of_entriesOf {v : Volume} (hv : v.WellFormed) {typed : Text}
    (he : v.entriesOf typed = .ok es) :
    Separate es ∧ ∀ e ∈ es, ∀ c, Text.isControl c = true → c ∉ e.name := by
  obtain ⟨key, rfl⟩ := Volume.entriesOf_ok he
  refine ⟨Volume.nodup_children hv key, ?_⟩
  intro e hmem c hc
  exact (Volume.isName_of_mem_children hv hmem).not_mem_of_isControl hc

/-- With room for it on the heap, a listing shows the entries asked for once each, directories first
and each kind by name, and another card with the same entries in the directory, made in whatever
order, is listed alike; but the machine stops instead where the brief form takes a field that is too
wide. Less the colours, the long form is the lines of the entries in this order, and the brief form
the rows of their names, each name whole in its column and no row too long for the display unless one
name is. -/
theorem list_in_order (label : Text) (ops : List Volume.Operation) {m : Machine}
    (hf : m.drive.faults = []) (hv : m.drive.volume = (Volume.labelled label).runAll ops)
    (path : Text) (long : Bool)
    (he : m.drive.volume.entriesOf (PathText.toOpen (PathText.split path).directory) = .ok es)
    (hroom : Roomy (PathText.split path).parts
      (es.filter (Entry.fits (PathText.split path).pattern?)) m.heap) :
    let target := PathText.split path
    let shown := es.filter (Entry.fits target.pattern?)
    let sorted := sort shown
    let printed := Text.bytes (fullHeading m.drive.volume.label
      (nameShown m.directory target.directory target.pattern?)) ++ sheet m.console long sorted
    InOrder long shown printed (list path long) m ∧
    sorted.Perm shown ∧ sorted.Pairwise Precedes ∧
    (∀ (label' : Text) (ops' : List Volume.Operation) (es' : List Entry),
      let v := (Volume.labelled label').runAll ops'
      v.label = m.drive.volume.label →
      v.entriesOf (PathText.toOpen target.directory) = .ok es' → (∀ e, e ∈ es' ↔ e ∈ es) →
      InOrder long shown printed (list path long)
        { m with drive := { m.drive with volume := v } }) ∧
    (long = true → shown ≠ [] →
      uncoloured false (sheet m.console long sorted) = sorted.flatMap line) ∧
    (long = false → shown ≠ [] →
      let rows := rows (longest sorted) (columnCount m.console.columns sorted) sorted
      uncoloured false (sheet m.console long sorted) = Text.bytes (rows.flatMap (· ++ "\r\n")) ∧
      Laid m.console.columns sorted rows) := by
  intro target shown sorted printed
  have hw : m.drive.volume.WellFormed := hv ▸ (Volume.wellFormed_labelled label).runAll ops
  obtain ⟨hseparate, hcontrol⟩ := separate_of_entriesOf hw he
  have hperm : sorted.Perm shown := sort_perm shown
  have hnames : ∀ e ∈ sorted, ∀ c, Text.isControl c = true → c ∉ e.name := by
    intro e hmem
    exact hcontrol e (List.mem_filter.mp (hperm.mem_iff.mp hmem)).1
  have hcodes : ∀ e ∈ sorted, '\x11' ∉ e.name := fun e hmem => hnames e hmem _ (by decide)
  have hne : shown ≠ [] → sorted ≠ [] := mt sort_eq_nil_iff.mp
  refine ⟨list_inOrder path hf he hroom long, hperm, pairwise_sort (hseparate.filter _), ?_, ?_, ?_⟩
  · intro label' ops' es' v hlabel he' hsame
    have hv' : v.WellFormed := (Volume.wellFormed_labelled label').runAll ops'
    have hboth : es'.Perm es := (List.perm_ext_iff_of_nodup
      (separate_of_entriesOf hv' he').1.nodup hseparate.nodup).mpr hsame
    have hshown := hboth.filter (Entry.fits target.pattern?)
    have hlist := list_inOrder (m := { m with drive := { m.drive with volume := v } }) path hf he'
      (hroom.perm hshown) long
    rw [sort_eq (hseparate.filter _) hshown] at hlist
    dsimp only at hlist
    rw [hlabel] at hlist
    exact hlist.perm hshown
  · rintro rfl hshown
    exact uncoloured_sheet_long m.console (hne hshown) hcodes
  · rintro rfl hshown
    exact ⟨uncoloured_sheet_brief m.console (hne hshown) hcodes,
      laid_rows m.console.columns hnames⟩

/-- Three entries made in one order and in another, in columns six characters wide. -/
theorem list_in_order_three :
    let ops : List Volume.Operation := [.makeDirectory "/d", .writeFile "/d/b.txt" [],
      .writeFile "/d/A.bin" [1], .makeDirectory "/d/zz"]
    let ops' : List Volume.Operation := [.makeDirectory "/d", .makeDirectory "/d/zz",
      .writeFile "/d/A.bin" [1], .writeFile "/d/b.txt" []]
    let on (ops : List Volume.Operation) :=
      Machine.boot {} ((Volume.labelled []).runAll ops) [] { columns := 12 } (.hosted 0 0) .absent
    let printed := Text.bytes
      "Volume: <No Volume Label>\r\nDirectory: /d\r\n\r\nzz    A.bin\r\nb.txt \r\n"
    (on ops).drive.faults = [] ∧
    (∃ m', list "/d" false (on ops) = .ok () m' ∧ m'.console.output = printed) ∧
    ∃ m', list "/d" false { on ops with
      drive := { (on ops).drive with volume := (Volume.labelled []).runAll ops' } } = .ok () m' ∧
      m'.console.output = printed := by
  intro ops ops' on printed
  have htarget : PathText.split "/d" = .single "/d" := by decide +kernel
  have hes : (on ops).drive.volume.entriesOf (PathText.toOpen "/d") =
      .ok [⟨"b.txt", 0, {}, ⟨Attributes.archiveBit⟩⟩, ⟨"A.bin", 1, {}, ⟨Attributes.archiveBit⟩⟩,
        ⟨"zz", 0, {}, ⟨Attributes.directoryBit⟩⟩] := by
    cbv
  have hes' : ((Volume.labelled []).runAll ops').entriesOf (PathText.toOpen "/d") =
      .ok [⟨"zz", 0, {}, ⟨Attributes.directoryBit⟩⟩, ⟨"A.bin", 1, {}, ⟨Attributes.archiveBit⟩⟩,
        ⟨"b.txt", 0, {}, ⟨Attributes.archiveBit⟩⟩] := by
    cbv
  have hsorted : sort [⟨"b.txt", 0, {}, ⟨Attributes.archiveBit⟩⟩,
      ⟨"A.bin", 1, {}, ⟨Attributes.archiveBit⟩⟩, ⟨"zz", 0, {}, ⟨Attributes.directoryBit⟩⟩] =
      [⟨"zz", 0, {}, ⟨Attributes.directoryBit⟩⟩, ⟨"A.bin", 1, {}, ⟨Attributes.archiveBit⟩⟩,
        ⟨"b.txt", 0, {}, ⟨Attributes.archiveBit⟩⟩] := by
    cbv
  have hsheet : Text.bytes (fullHeading (on ops).drive.volume.label
      (nameShown (on ops).directory "/d" none)) ++ sheet (on ops).console false
        [⟨"zz", 0, {}, ⟨Attributes.directoryBit⟩⟩, ⟨"A.bin", 1, {}, ⟨Attributes.archiveBit⟩⟩,
          ⟨"b.txt", 0, {}, ⟨Attributes.archiveBit⟩⟩] = printed := by
    decide +kernel
  have h := fun es => @list_in_order es [] ops (on ops) rfl rfl "/d" false
  simp only [htarget, PathText.Target.directory, PathText.Target.pattern?] at h
  obtain ⟨hlisted, _, _, hother, _⟩ := h _ hes (by decide +kernel)
  have hlisted' := hother [] ops' _ rfl hes' fun e => List.Perm.mem_iff (by decide)
  obtain ⟨m', hrun, houtput⟩ := hlisted.printed (Or.inr (by decide +kernel))
  obtain ⟨m'', hrun', houtput'⟩ := hlisted'.printed (Or.inr (by decide +kernel))
  have hall : ∀ e : Entry, Entry.fits none e = true := fun _ => rfl
  simp only [List.filter_eq_self.mpr fun e _ => hall e, hsorted, hsheet] at houtput houtput'
  exact ⟨rfl, ⟨m', hrun, houtput⟩, m'', hrun', houtput'⟩

/-- A machine with one directory on its card and 256 KiB of heap. -/
def withDirectory (name : Text) : Machine :=
  Machine.boot { heapSize := 0x40000 } ((Volume.labelled []).runAll
    [.makeDirectory (Path.text [name])]) [] {} (.hosted 0 0) .absent

theorem list_withDirectory {name : Text} (hname : Path.IsName name) (hsize : name.size ≤ 0x20000)
    (hlength : widthLimit < name.length) :
    let m := withDirectory name
    ∃ es, m.drive.volume.entriesOf (PathText.toOpen (PathText.split ".").directory) = .ok es ∧
      Roomy (PathText.split ".").parts (es.filter (Entry.fits (PathText.split ".").pattern?)) m.heap ∧
      ∃ m', list "." false m = .error (.stopped .tooWide) m' := by
  intro m
  have hsplit : PathText.split "." = .single "." := by decide +kernel
  have hvolume : m.drive.volume = (Volume.labelled []).insert [name] .directory :=
    Volume.runAll_makeDirectory hname
  let e := Node.entry ⟨[name], .directory, {}, {}, 1⟩
  have hes : m.drive.volume.entriesOf (PathText.toOpen (PathText.split ".").directory) = .ok [e] := by
    rw [hsplit, hvolume]
    exact Volume.entriesOf_insert name
  have hall : [e].filter (Entry.fits (PathText.split ".").pattern?) = [e] := by
    rw [hsplit]
    rfl
  have hroom : Roomy (PathText.split ".").parts [e] m.heap := by
    rw [hsplit]
    refine ⟨rfl, ?_⟩
    show 0 + (Heap.textBlocks ["."] + (1 * recordSize + (name.size + 1 + 0))) ≤ 0x40000
    have hdot : Heap.textBlocks ["."] = 2 := by decide
    rw [hdot, recordSize]
    omega
  have hwide : ¬ Printable m.console.columns [e] := by
    intro hprint
    have hfield := hprint e List.mem_cons_self
    have hlength' : e.name.length = name.length := rfl
    omega
  have hlisted := list_inOrder (m := m) "." rfl hes (hall.symm ▸ hroom) false
  rw [hall] at hlisted
  exact ⟨[e], hes, hall.symm ▸ hroom, hlisted.stops rfl hwide⟩

/-- A name of 65536 characters is one too long, with room enough for it on the heap. -/
theorem list_too_wide :
    let m := withDirectory (List.replicate 0x10000 'a')
    m.drive.faults = [] ∧
    ∃ es, m.drive.volume.entriesOf (PathText.toOpen (PathText.split ".").directory) = .ok es ∧
      Roomy (PathText.split ".").parts (es.filter (Entry.fits (PathText.split ".").pattern?)) m.heap ∧
      ∀ m', list "." false m ≠ .ok () m' := by
  intro m
  obtain ⟨es, hes, hroom, m₁, hstop⟩ := list_withDirectory
    (Path.isName_replicate (show 2 < 0x10000 by decide))
    (by rw [Text.size_replicate]; decide) (by rw [List.length_replicate]; decide)
  refine ⟨rfl, es, hes, hroom, fun m' hx => ?_⟩
  rw [hstop] at hx
  cases hx

end Shell

end CardShell
