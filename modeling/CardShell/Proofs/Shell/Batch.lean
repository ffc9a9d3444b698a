import CardShell.Batch
import CardShell.Proofs.Shell.Walk
import CardShell.Proofs.Volume.Children
import CardShell.Proofs.Volume.Flags
import CardShell.Proofs.Volume.Relocated
import Mathlib

/-!
Renaming all matches of a pattern into a directory, on a card that does not fail and with enough of
the heap: the names are gathered first, and then each match is moved from where the typed directory
led in the beginning, until the volume refuses one. That holds as long as no move takes the current
directory to a place from where the typed directories lead elsewhere.
-/

set_option autoImplicit false

namespace CardShell.Shell

open CardShell.Action Drive

variable {α : Type} {m : Machine} {b : Heap} {held : Nat}

section Room

theorem outcome_reserve_ok (bytes : Nat) (hb : b.Bears held m.heap)
    (hroom : b.inUse + (held + bytes) ≤ b.capacity) :
    ∃ h, outcome (heap (Heap.reserve bytes)) m = .ok (.ok ()) { m with heap := h } ∧
      b.Bears (held + bytes) h := by
  obtain ⟨h, hx, hh⟩ := hb.reserve hroom
  exact ⟨h, outcome_ok (heap_ok hx), hh⟩

theorem reserveTexts_ok {ts : List Text} (hb : b.Bears held m.heap)
    (hroom : b.inUse + (held + Heap.textBlocks ts) ≤ b.capacity) :
    ∃ h, reserveTexts ts m = .ok (.ok ()) { m with heap := h } ∧
      b.Bears (held + Heap.textBlocks ts) h := by
  induction ts generalizing m held with
  | nil => exact ⟨m.heap, rfl, hb⟩
  | cons t ts ih =>
    rw [Heap.textBlocks_cons, ← Nat.add_assoc held] at hroom ⊢
    obtain ⟨h, hx, hh⟩ := outcome_reserve_ok (Heap.textBlock t) hb (by omega)
    obtain ⟨h', hts, hh'⟩ := ih (m := { m with heap := h }) hh hroom
    refine ⟨h', ?_, hh'⟩
    unfold reserveTexts
    rw [bind_apply, hx]
    dsimp only
    rw [bind_apply, hts]
    rfl

theorem releaseTexts_ok {ts : List Text} (hb : b.Bears (held + Heap.textBlocks ts) m.heap) :
    ∃ h, releaseTexts ts m = .ok () { m with heap := h } ∧ b.Bears held h := by
  induction ts generalizing m with
  | nil => exact ⟨m.heap, rfl, hb⟩
  | cons t ts ih =>
    rw [Heap.textBlocks_cons, Nat.add_comm (Heap.textBlock t), ← Nat.add_assoc] at hb
    exact ih (m := { m with heap := m.heap.release (Heap.textBlock t) }) hb.release

/-- What `body` comes to with the texts on the heap it comes to, but for the heap. -/
theorem withPaths_ok (ts : List Text) (hb : b.Bears held m.heap)
    (hroom : b.inUse + (held + Heap.textBlocks ts) ≤ b.capacity) (body : Shell α) :
    ∃ h, b.Bears (held + Heap.textBlocks ts) h ∧
      withPaths ts body m = closing (releaseTexts ts) body { m with heap := h } := by
  obtain ⟨h, hx, hh⟩ := reserveTexts_ok hb hroom
  refine ⟨h, hh, ?_⟩
  unfold withPaths withTexts
  rw [bind_apply, hx]

/-- Texts leave the heap again whatever `body` comes to. -/
theorem closing_releaseTexts {ts : List Text} {body : Shell α} {result : Except Error α} {m' : Machine}
    (h : body m = ofExcept result m') (hb : b.Bears (held + Heap.textBlocks ts) m'.heap) :
    ∃ heap, b.Bears held heap ∧
      closing (releaseTexts ts) body m = ofExcept result { m' with heap := heap } := by
  obtain ⟨heap, hback, hheap⟩ := releaseTexts_ok hb
  refine ⟨heap, hheap, ?_⟩
  cases result with
  | ok a => exact closing_ok h hback
  | error e =>
    rw [closing_error (show body m = .error (.failed e) m' from h), after_ok hback]
    rfl

/-- What `body` comes to on every heap it comes to with texts on the heap. -/
theorem withPaths_outcome (ts : List Text) (hb : b.Bears held m.heap)
    (hroom : b.inUse + (held + Heap.textBlocks ts) ≤ b.capacity) (body : Shell α) (m' : Machine)
    {result : Except Error α}
    (hbody : ∀ h, outcome body { m with heap := h } = .ok result { m' with heap := h }) :
    ∃ h, b.Bears held h ∧ withPaths ts (outcome body) m = .ok result { m' with heap := h } := by
  obtain ⟨h, hheap, hx⟩ := withPaths_ok ts hb hroom (outcome body)
  have hresult : outcome body { m with heap := h } = ofExcept (.ok result) { m' with heap := h } :=
    hbody h
  obtain ⟨h', hheap', hclosed⟩ := closing_releaseTexts hresult hheap
  exact ⟨h', hheap', hx.trans hclosed⟩

end Room

variable {h : Nat} {es : List Entry} {dir pattern : Text}

/-- The names of the entries that the pattern matches, as the directory enumerates them. -/
def matchesIn (pattern : Text) (es : List Entry) : List Text :=
  (es.filter (Entry.fits (some pattern))).map Entry.name

theorem isName_of_matchesIn {v : Volume} (hw : v.WellFormed) {key : Path} {name : Text}
    (h : name ∈ matchesIn pattern (v.children key)) : Path.IsName name := by
  obtain ⟨e, he, rfl⟩ := List.mem_map.mp h
  exact Volume.isName_of_mem_children hw (List.mem_filter.mp he).1

/-- What the walk leaves of the card depends on the card alone. -/
theorem walkFrom_holdName (pattern : Text) {fuel : Nat} {d : Drive} (hd : Giving h es d)
    (hfuel : es.length < fuel) :
    ∃ d' rest, Listed d d' ∧ Giving h rest d' ∧ ∀ (m : Machine) (held : Nat) (notes : List Text),
      m.drive = d → b.Bears held m.heap →
      b.inUse + (held + Heap.textBlocks (matchesIn pattern es)) ≤ b.capacity →
      ∃ heap, walkFrom h pattern holdName fuel notes m =
          .ok (notes ++ matchesIn pattern es, .ok ()) { m with heap := heap, drive := d' } ∧
        b.Bears (held + Heap.textBlocks (matchesIn pattern es)) heap := by
  induction fuel generalizing es d with
  | zero => exact absurd hfuel (Nat.not_lt_zero _)
  | succ fuel ih =>
    have hnext : Advances (Entry.fits (some pattern)) h es d (findNext h pattern) :=
      findNext_advances hd
    rcases hnext with ⟨hnone, d', hx, hlisted, hd'⟩ | ⟨e, rest, hsome, hlen, d', hx, hlisted, hd'⟩
    · refine ⟨d', [], hlisted, hd', ?_⟩
      rintro m held notes rfl hb _
      have hempty : matchesIn pattern es = [] := by rw [matchesIn, hnone]; rfl
      refine ⟨m.heap, ?_, by rw [hempty]; exact hb⟩
      unfold walkFrom
      rw [bind_apply, outcome_ok (drive_ok hx), hempty, List.append_nil]
      rfl
    · obtain ⟨d'', rest', hlisted', hd'', hrest⟩ := ih hd' (by omega)
      refine ⟨d'', rest', hlisted.trans hlisted', hd'', ?_⟩
      rintro m held notes rfl hb hroom
      have hcons : matchesIn pattern es = e.name :: matchesIn pattern rest := by
        rw [matchesIn, hsome]
        rfl
      rw [hcons, Heap.textBlocks_cons, ← Nat.add_assoc held] at hroom ⊢
      obtain ⟨heap, hres, hheap⟩ := outcome_reserve_ok (m := { m with drive := d' })
        (Heap.textBlock e.name) hb (by omega)
      have hvisit : outcome (holdName notes e) { m with drive := d' } =
          .ok (.ok (notes ++ [e.name], .go)) { m with heap := heap, drive := d' } := by
        refine outcome_ok ?_
        unfold holdName
        rw [bind_apply, hres]
        rfl
      obtain ⟨heap', hrun, hheap'⟩ :=
        hrest { m with heap := heap, drive := d' } _ (notes ++ [e.name]) rfl hheap hroom
      refine ⟨heap', ?_, hheap'⟩
      unfold walkFrom
      rw [bind_apply, outcome_ok (drive_ok hx)]
      dsimp only
      rw [bind_apply, hvisit]
      dsimp only
      rw [hrun, List.append_assoc, List.singleton_append]

theorem withMatches_ok (pattern : Text) {d : Drive} (hf : d.faults = [])
    (he : d.volume.entriesOf (PathText.toOpen dir) = .ok es) :
    ∃ d', Listed d d' ∧ ∀ (m : Machine) (held : Nat) (body : List Text → Shell α),
      m.drive = d → b.Bears held m.heap →
      b.inUse + (held + Heap.textBlocks (matchesIn pattern es)) ≤ b.capacity →
      ∃ heap, b.Bears (held + Heap.textBlocks (matchesIn pattern es)) heap ∧
        withMatches dir pattern body m = closing (releaseTexts (matchesIn pattern es))
          (body (matchesIn pattern es)) { m with heap := heap, drive := d' } := by
  obtain ⟨h, d₁, hopen, hlisted₁, hd₁⟩ := openListing_ok hf he
  obtain ⟨d₂, rest, hlisted₂, hd₂, hwalk⟩ :=
    walkFrom_holdName (b := b) pattern hd₁ (Nat.lt_succ_self _)
  obtain ⟨d₃, hclose, hlisted₃⟩ := closeListing_ok hd₂
  refine ⟨d₃, (hlisted₁.trans hlisted₂).trans hlisted₃, ?_⟩
  rintro m held body rfl hb hroom
  obtain ⟨heap, hgather, hheap⟩ := hwalk { m with drive := d₁ } held [] rfl hb hroom
  have hclosed : outcome (drive (Drive.closeListing h)) { m with heap := heap, drive := d₂ } =
      .ok (.ok ()) { m with heap := heap, drive := d₃ } :=
    outcome_ok (drive_ok (m := { m with heap := heap, drive := d₂ }) hclose)
  have hgathered : forEachMatch dir pattern holdName [] m =
      .ok (matchesIn pattern es, .ok ()) { m with heap := heap, drive := d₃ } := by
    unfold forEachMatch
    rw [bind_apply, outcome_ok (drive_ok hopen)]
    dsimp only
    rw [bind_apply, stepsOf_apply (m := { m with drive := d₁ }) hd₁]
    dsimp only
    rw [bind_apply, hgather]
    dsimp only
    rw [bind_apply, hclosed]
    rfl
  refine ⟨heap, hheap, ?_⟩
  unfold withMatches
  rw [bind_apply, hgathered]
  rfl

theorem withMatches_error {e : Error} (hf : m.drive.faults = [])
    (he : m.drive.volume.entriesOf (PathText.toOpen dir) = .error e) (body : List Text → Shell α) :
    withMatches dir pattern body m = .error (.failed e) m := by
  have hgathered : forEachMatch dir pattern holdName [] m = .ok ([], .error e) m := by
    unfold forEachMatch
    rw [bind_apply, outcome_failed (drive_error (openListing_error hf he))]
    rfl
  unfold withMatches
  rw [bind_apply, hgathered]
  rfl

/-- A match is announced if it is to be, and then moved. -/
def moveMatch (verbose : Bool) (a b : Text) : Shell Unit := do
  if verbose then print ("Moving " ++ a ++ " to " ++ b ++ "\r\n")
  drive (Drive.rename a b)

theorem moveMatch_ok {x y : Text} {w : Volume} (verbose : Bool) (hf : m.drive.faults = [])
    (hw : Volume.rename x y m.drive.volume = .ok () w) :
    ∃ console, moveMatch verbose x y m =
      .ok () { m with console := console, drive := { m.drive with volume := w } } := by
  have hrename : Drive.rename x y m.drive = .ok () { m.drive with volume := w } := by
    unfold Drive.rename
    rw [change_of_faultless hf, onVolume_ok hw]
  cases verbose with
  | false => exact ⟨m.console, drive_ok hrename⟩
  | true => exact ⟨_, drive_ok (m := { m with console := m.console.put _ }) hrename⟩

theorem moveMatch_error {x y : Text} {e : Error} (verbose : Bool) (hf : m.drive.faults = [])
    (he : Volume.rename x y m.drive.volume = .error e m.drive.volume) :
    ∃ console, moveMatch verbose x y m = .error (.failed e) { m with console := console } := by
  have hrename : Drive.rename x y m.drive = .error e m.drive := by
    unfold Drive.rename
    rw [change_of_faultless hf, onVolume_error he]
  cases verbose with
  | false => exact ⟨m.console, drive_error hrename⟩
  | true => exact ⟨_, drive_error (m := { m with console := m.console.put _ }) hrename⟩

/-- What a batch of pairs has to go by: the volume `v` it starts from, the directories that are typed,
and the names, with room for the two paths of each. -/
structure Pairs (v : Volume) (source target : Node) (dir dst : Text) (names : List Text) (b : Heap)
    (held : Nat) : Prop where
  wellFormed : v.WellFormed
  holds : v.Holds source target
  leads : v.directory.LeadsTo dir source.path.key ∧ v.directory.LeadsTo dst target.path.key
  entries : ∀ name ∈ names, ∃ n, v.node? (source.path.key ++ [name.lower]) = some n ∧
    n.path = source.path ++ [name]
  distinct : (names.map Text.lower).Nodup
  room : ∀ name ∈ names, b.inUse +
    (held + Heap.textBlocks [PathText.join dir name, PathText.join dst name]) ≤ b.capacity

/-- Pairs that are to be moved. -/
structure Plan (v : Volume) (source target : Node) (dir dst : Text) (names : List Text) (b : Heap)
    (held : Nat) : Prop extends Pairs v source target dir dst names b held where
  lasting : v.Lasting source target dir dst names.dropLast

variable {v w : Volume} {source target : Node} {dst name : Text} {names done todo : List Text}

theorem Pairs.isName (hp : Pairs v source target dir dst names b held) (hname : name ∈ names) :
    Path.IsName name := by
  obtain ⟨n, hn, hpath⟩ := hp.entries name hname
  exact hp.wellFormed.isName_of_mem hn name (hpath ▸ List.mem_append_right _ List.mem_cons_self)

theorem Pairs.fresh (hp : Pairs v source target dir dst (done ++ name :: todo) b held) :
    ∀ t ∈ done, name.lower ≠ t.lower := by
  have hdistinct := hp.distinct
  rw [List.map_append, List.map_cons, List.nodup_append] at hdistinct
  intro t ht he
  exact hdistinct.2.2 _ (List.mem_map_of_mem ht) _ List.mem_cons_self he.symm

/-- The names before one of them are moved away from it, and their moves leave the way to it. -/
theorem Plan.rename_eq (hp : Plan v source target dir dst (done ++ name :: todo) b held)
    (hw : v.Relocated source target done w) :
    Volume.rename (PathText.join dir name) (PathText.join dst name) w =
      Volume.rename (Volume.place source name) (Volume.place target name) w := by
  have hlasting : v.Lasting source target dir dst done := by
    intro t ht
    refine hp.lasting t ?_
    rw [List.dropLast_append_of_ne_nil (List.cons_ne_nil name todo)]
    exact List.mem_append_left _ ht
  obtain ⟨hdir, hdst⟩ := hw.leads hlasting hp.leads.1 hp.leads.2
  exact Volume.rename_join (hp.isName (List.mem_append_right _ List.mem_cons_self))
    (hp.wellFormed.isName_of_mem hp.holds.source) (hp.wellFormed.isName_of_mem hp.holds.target)
    hdir hdst

/-- The names have been moved, and the volume has accepted each of the moves, one after the other,
from the state in which the enumeration of the directory has left it. -/
structure Relocation (v : Volume) (source target : Node) (names : List Text) (w : Volume) : Prop
    extends v.Relocated source target names w where
  accepted : ∃ i t, Volume.renameEach source target names (v.listing i t) = .ok () w

/-- What moving the names has to come to: all of them are moved, or those before the first one that
the volume refuses to move, and then it ends in the error that the volume gives. -/
def Relocates (v : Volume) (source target : Node) (names : List Text) :
    EStateM.Result Halt Machine Unit → Prop
  | .ok _ m => Relocation v source target names m.drive.volume
  | .error halt m => ∃ done name todo e, names = done ++ name :: todo ∧
      Relocation v source target done m.drive.volume ∧
      Volume.rename (Volume.place source name) (Volume.place target name) m.drive.volume =
        .error e m.drive.volume ∧ halt = .failed e

theorem Relocates.withHeap {result : Except Error Unit}
    (h : Relocates v source target names (ofExcept result m)) (heap : Heap) :
    Relocates v source target names (ofExcept result { m with heap := heap }) := by
  cases result with
  | ok _ => exact h
  | error e => exact h

theorem eachPair_relocates (verbose : Bool)
    (hp : Plan v source target dir dst (done ++ todo) b held) (hf : m.drive.faults = [])
    (hw : Relocation v source target done m.drive.volume) (hb : b.Bears held m.heap) :
    ∃ result m', eachPair dir dst (moveMatch verbose) todo m = ofExcept result m' ∧
      b.Bears held m'.heap ∧ Relocates v source target (done ++ todo) (ofExcept result m') := by
  induction todo generalizing done m with
  | nil =>
    rw [List.append_nil]
    exact ⟨.ok (), m, rfl, hb, hw⟩
  | cons name todo ih =>
    have hmem : name ∈ done ++ name :: todo := List.mem_append_right _ List.mem_cons_self
    obtain ⟨n, hn, hpath⟩ := hp.entries name hmem
    have heq := hp.rename_eq hw.toRelocated
    have hfresh := hp.fresh
    have hroom := hp.room name hmem
    generalize hx : PathText.join dir name = x at heq hroom
    generalize hy : PathText.join dst name = y at heq hroom
    obtain ⟨h, hheap, hpaths⟩ := withPaths_ok [x, y] hb hroom (moveMatch verbose x y)
    unfold eachPair
    dsimp only
    rw [hx, hy, bind_apply, hpaths]
    rcases hw.rename_cases hp.wellFormed hp.holds hn hpath hfresh with ⟨e, he⟩ | ⟨w, hok, hw'⟩
    · obtain ⟨console, hmove⟩ :=
        moveMatch_error (m := { m with heap := h }) verbose hf (heq.trans he)
      obtain ⟨h', hback, hheap'⟩ := releaseTexts_ok (m := { m with heap := h, console := console }) hheap
      rw [closing_error hmove, after_ok hback]
      exact ⟨.error e, _, rfl, hheap', done, name, todo, e, rfl, hw, he, rfl⟩
    · obtain ⟨console, hmove⟩ := moveMatch_ok (m := { m with heap := h }) verbose hf (heq.trans hok)
      obtain ⟨h', hback, hheap'⟩ := releaseTexts_ok (m := { m with
        heap := h, console := console, drive := { m.drive with volume := w } }) hheap
      rw [closing_ok hmove hback]
      rw [List.append_cons] at hp ⊢
      obtain ⟨i, t, haccepted⟩ := hw.accepted
      exact ih hp hf ⟨hw', i, t, Volume.renameEach_concat haccepted hok⟩ hheap'

theorem outcome_stat {d : Drive} (hf : d.faults = []) (typed : Text) :
    Action.outcome (δ := Error) (Drive.stat typed) d = .ok (d.volume.stat typed) d := by
  have hstat : Drive.stat typed d = onVolume (query fun v => v.stat typed) d := by
    unfold Drive.stat Drive.ask
    rw [bind_apply, check_of_faultless hf]
  unfold Action.outcome
  rw [hstat]
  cases h : d.volume.stat typed with
  | error e => rw [onVolume_error (query_error h)]
  | ok entry => rw [onVolume_ok (query_ok h)]

theorem isDirectory_apply (hf : m.drive.faults = []) (hw : m.drive.volume.WellFormed)
    (hbare : m.drive.volume.Bare) (typed : Text) :
    isDirectory typed m = .ok (m.drive.volume.directoryAt? typed).isSome m := by
  unfold isDirectory
  split
  · rename_i htoken
    rw [Volume.isSome_directoryAt?_of_token hw htoken]
    rfl
  · refine drive_ok ?_
    unfold Drive.isDirectory Volume.directoryAt?
    rw [bind_apply, outcome_stat hf]
    unfold Volume.stat
    cases hfind : m.drive.volume.find typed with
    | error e => rfl
    | ok found =>
      obtain ⟨p, _, _, hn⟩ := Volume.find_ok hfind
      show EStateM.Result.ok found.2.entry.isDirectory m.drive = _
      rw [Volume.isDirectory_entry (hbare.node? hn)]
      dsimp only
      cases found.2.isDirectory <;> rfl

theorem checkDestination_matching (hf : m.drive.faults = []) (hw : m.drive.volume.WellFormed)
    (hbare : m.drive.volume.Bare) (dir pattern dst : Text) :
    checkDestination (.matching dir pattern) dst m =
      if Glob.hasWildcard dst = true ∨ m.drive.volume.directoryAt? dst = none then
        .error (.failed .invalidParameter) m
      else .ok () m := by
  unfold checkDestination
  cases hwild : Glob.hasWildcard dst with
  | true => rfl
  | false =>
    rw [if_neg Bool.false_ne_true]
    dsimp only
    rw [bind_apply, isDirectory_apply hf hw hbare]
    cases m.drive.volume.directoryAt? dst <;> rfl

/-- Enough of the heap for the parts of the source, all names at once and the two paths of each. -/
def RoomToMove (dir pattern dst : Text) (names : List Text) (h : Heap) : Prop :=
  h.RoomFor ([dir, pattern] ++ names) ∧
  ∀ name ∈ names,
    h.RoomFor ([dir, pattern] ++ names ++ [PathText.join dir name, PathText.join dst name])

theorem pairs_of_matches (hw : v.WellFormed) (hsource : v.directoryAt? dir = some source)
    (htarget : v.directoryAt? dst = some target) {names : List Text}
    (hnames : names = matchesIn pattern (v.children source.path.key))
    (hroom : RoomToMove dir pattern dst names b) :
    Pairs v source target dir dst names b (Heap.textBlocks ([dir, pattern] ++ names)) where
  wellFormed := hw
  holds := ⟨(Volume.leads_of_directoryAt? hw hsource).2, (Volume.leads_of_directoryAt? hw htarget).2⟩
  leads := ⟨(Volume.leads_of_directoryAt? hw hsource).1, (Volume.leads_of_directoryAt? hw htarget).1⟩
  entries name hname := by
    rw [hnames] at hname
    obtain ⟨e, he, rfl⟩ := List.mem_map.mp hname
    obtain ⟨n, hn, rfl⟩ := List.mem_map.mp (List.mem_filter.mp he).1
    obtain ⟨d, hd, hpath, _, hnode⟩ := Volume.childNode_path hw hn
    rw [(Volume.leads_of_directoryAt? hw hsource).2] at hd
    cases hd
    exact ⟨n, hnode, hpath⟩
  distinct := by
    rw [hnames, matchesIn, List.map_map]
    exact (Volume.nodup_children hw _).sublist (List.filter_sublist.map _)
  room name hname := by
    rw [← Heap.textBlocks_append]
    exact (hroom.2 name hname).2

theorem entriesOf_toOpen (hw : v.WellFormed) (h : v.directoryAt? dir = some source) :
    v.entriesOf (PathText.toOpen dir) = .ok (v.children source.path.key) := by
  have hsame : v.find (PathText.toOpen dir) = v.find dir := by
    unfold Volume.find Volume.resolve
    rw [PathText.resolve_toOpen]
  obtain ⟨hfind, hdir⟩ := Volume.find_of_directoryAt? hw h
  unfold Volume.entriesOf
  rw [hsame, hfind]
  exact if_pos hdir

theorem entriesOf_toOpen_error (h : v.directoryAt? dir = none) :
    ∃ e, v.entriesOf (PathText.toOpen dir) = .error e := by
  have hsame : v.find (PathText.toOpen dir) = v.find dir := by
    unfold Volume.find Volume.resolve
    rw [PathText.resolve_toOpen]
  unfold Volume.directoryAt? at h
  unfold Volume.entriesOf
  rw [hsame]
  cases hfind : v.find dir with
  | error e => cases e <;> exact ⟨_, rfl⟩
  | ok found =>
    rw [hfind] at h
    dsimp only at h ⊢
    cases hdir : found.2.isDirectory with
    | true =>
      rw [hdir] at h
      cases h
    | false => exact ⟨.noPath, rfl⟩

theorem relocated_listing (h : v.Relocated source target done w) (i : Nat)
    (t : Table Nat (List Entry)) : v.Relocated source target done (w.listing i t) where
  wellFormed := h.wellFormed.withFiles rfl rfl rfl rfl h.wellFormed.files
  facts := h.facts
  directory := h.directory
  source_stays := h.source_stays
  target_stays := h.target_stays

theorem hasWildcard_of_directoryAt? {typed : Text} {d : Node} (h : v.directoryAt? typed = some d) :
    Glob.hasWildcard typed = false := by
  unfold Volume.directoryAt? at h
  cases hfind : v.find typed with
  | error e =>
    rw [hfind] at h
    cases h
  | ok found =>
    obtain ⟨p, hp, _⟩ := Volume.find_ok hfind
    exact PathText.hasWildcard_of_resolve hp

/-- Where a single path goes to. -/
def destination (v : Volume) (src dst : Text) : Text :=
  if (v.directoryAt? dst).isSome then PathText.join dst (PathText.baseName src) else dst

section Relocating

variable {src : Text}

/-- Relocating one path is moving it, once the paths are on the heap. -/
theorem relocate_single (hf : m.drive.faults = []) (hw : m.drive.volume.WellFormed)
    (hbare : m.drive.volume.Bare) (hsplit : PathText.split src = .single src)
    (hdst : Glob.hasWildcard dst = false)
    (hroom : m.heap.RoomFor [src, destination m.drive.volume src dst])
    (move moveMatch : Text → Text → Shell Unit) :
    ∃ h, ∀ result m', m'.heap = h →
      move src (destination m.drive.volume src dst) { m with heap := h } = ofExcept result m' →
      ∃ heap, relocate move moveMatch src dst m = ofExcept result { m' with heap := heap } := by
  generalize htarget : destination m.drive.volume src dst = target at hroom
  have hall : m.heap.inUse + Heap.textBlocks ([src] ++ [target]) ≤ m.heap.capacity := hroom.2
  rw [Heap.textBlocks_append] at hall
  let body : Shell Unit := do
    if ← isDirectory dst then
      let path := PathText.join dst (PathText.baseName src)
      withPaths [path] (move src path)
    else move src dst
  obtain ⟨h, hheap, hpaths⟩ := withPaths_ok [src] (Heap.bears_self m.heap hroom.1) (by omega) body
  have hrun : relocate move moveMatch src dst m = withPaths [src] body m := by
    have hchecked : checkDestination (.single src) dst m = .ok () m := by
      unfold checkDestination
      rw [hdst]
      rfl
    unfold relocate
    dsimp only
    rw [hsplit, bind_apply, hchecked]
    rfl
  have hbody : body { m with heap := h } =
      (if (m.drive.volume.directoryAt? dst).isSome then withPaths [PathText.join dst (PathText.baseName src)]
        (move src (PathText.join dst (PathText.baseName src))) else move src dst)
        { m with heap := h } := by
    have hasked := isDirectory_apply (m := { m with heap := h }) hf hw hbare dst
    show (isDirectory dst >>= _) _ = _
    rw [bind_apply, hasked]
  unfold destination at htarget
  cases hdir : (m.drive.volume.directoryAt? dst).isSome with
  | true =>
    rw [hdir, if_pos rfl] at htarget hbody
    rw [htarget] at hbody
    obtain ⟨h', hheap', hpath⟩ := withPaths_ok (m := { m with heap := h }) [target] hheap (by omega)
      (move src target)
    refine ⟨h', ?_⟩
    rintro result m' rfl hx
    obtain ⟨_, hheap₁, hx₁⟩ := closing_releaseTexts hx hheap'
    obtain ⟨heap, _, hx₂⟩ := closing_releaseTexts (hbody.trans (hpath.trans hx₁)) hheap₁
    exact ⟨heap, hrun.trans (hpaths.trans hx₂)⟩
  | false =>
    rw [hdir, if_neg Bool.false_ne_true] at htarget hbody
    refine ⟨h, ?_⟩
    rintro result m' rfl hx
    rw [← htarget] at hx
    obtain ⟨heap, _, hx₁⟩ := closing_releaseTexts (hbody.trans hx) hheap
    exact ⟨heap, hrun.trans (hpaths.trans hx₁)⟩

theorem relocate_into (hf : m.drive.faults = []) (hw : m.drive.volume.WellFormed)
    (hbare : m.drive.volume.Bare) (hsplit : PathText.split src = .matching dir pattern)
    (htarget : m.drive.volume.directoryAt? dst = some target)
    (move moveMatch : Text → Text → Shell Unit) :
    relocate move moveMatch src dst m =
      withPaths [dir, pattern] (withMatches dir pattern (eachPair dir dst moveMatch)) m := by
  have hdst := hasWildcard_of_directoryAt? htarget
  unfold relocate
  dsimp only
  rw [hsplit, bind_apply, checkDestination_matching hf hw hbare, if_neg (by simp [hdst, htarget])]
  rfl

/-- Relocating the matches of a pattern is moving them in turn, once their names are gathered. -/
theorem relocate_matching (hf : m.drive.faults = []) (hw : m.drive.volume.WellFormed)
    (hbare : m.drive.volume.Bare) (hsplit : PathText.split src = .matching dir pattern)
    (hsource : m.drive.volume.directoryAt? dir = some source)
    (htarget : m.drive.volume.directoryAt? dst = some target) {names : List Text}
    (hnames : names = matchesIn pattern (m.drive.volume.children source.path.key))
    (hroom : RoomToMove dir pattern dst names m.heap) (move moveMatch : Text → Text → Shell Unit) :
    ∃ h d, Listed m.drive d ∧ m.heap.Bears (Heap.textBlocks ([dir, pattern] ++ names)) h ∧
      ∀ result m', m.heap.Bears (Heap.textBlocks ([dir, pattern] ++ names)) m'.heap →
        eachPair dir dst moveMatch names { m with heap := h, drive := d } = ofExcept result m' →
        ∃ heap, relocate move moveMatch src dst m = ofExcept result { m' with heap := heap } := by
  have hall := hroom.1.2
  rw [Heap.textBlocks_append] at hall ⊢
  obtain ⟨h, hheap, hpaths⟩ := withPaths_ok [dir, pattern]
    (Heap.bears_self m.heap hroom.1.1) (by omega)
    (withMatches dir pattern (eachPair dir dst moveMatch))
  obtain ⟨d, hlisted, hwith⟩ := withMatches_ok (b := m.heap) pattern hf (entriesOf_toOpen hw hsource)
  rw [← hnames] at hwith
  obtain ⟨h', hheap', hgathered⟩ := hwith { m with heap := h } _ (eachPair dir dst moveMatch) rfl
    hheap (by omega)
  have hrun := relocate_into hf hw hbare hsplit htarget move moveMatch
  rw [Nat.zero_add] at hheap'
  refine ⟨h', d, hlisted, hheap', ?_⟩
  intro result m' hleft hx
  obtain ⟨_, hheap₁, hx₁⟩ := closing_releaseTexts hx hleft
  rw [← Nat.zero_add (Heap.textBlocks [dir, pattern])] at hheap₁
  obtain ⟨heap, _, hx₂⟩ := closing_releaseTexts (hgathered.trans hx₁) hheap₁
  exact ⟨heap, hrun.trans (hpaths.trans hx₂)⟩

/-- Nothing is moved where the directory of a pattern does not open. -/
theorem relocate_unopened (hf : m.drive.faults = []) (hw : m.drive.volume.WellFormed)
    (hbare : m.drive.volume.Bare) (hsplit : PathText.split src = .matching dir pattern)
    (hsource : m.drive.volume.directoryAt? dir = none)
    (htarget : m.drive.volume.directoryAt? dst = some target) (hroom : m.heap.RoomFor [dir, pattern])
    (move moveMatch : Text → Text → Shell Unit) :
    ∃ e heap, m.drive.volume.entriesOf (PathText.toOpen dir) = .error e ∧
      relocate move moveMatch src dst m = .error (.failed e) { m with heap := heap } := by
  obtain ⟨e, he⟩ := entriesOf_toOpen_error hsource
  obtain ⟨h, hheap, hpaths⟩ := withPaths_ok [dir, pattern] (Heap.bears_self m.heap hroom.1)
    (by rw [Nat.zero_add]; exact hroom.2) (withMatches dir pattern (eachPair dir dst moveMatch))
  have hfailed : withMatches dir pattern (eachPair dir dst moveMatch) { m with heap := h } =
      ofExcept (.error e) { m with heap := h } :=
    withMatches_error (m := { m with heap := h }) hf he _
  obtain ⟨heap, _, hx⟩ := closing_releaseTexts hfailed hheap
  have hrun := relocate_into hf hw hbare hsplit htarget move moveMatch
  exact ⟨e, heap, he, hrun.trans (hpaths.trans hx)⟩

end Relocating

theorem rename_relocates (hf : m.drive.faults = []) (hw : m.drive.volume.WellFormed)
    (hbare : m.drive.volume.Bare) {src : Text} (hsplit : PathText.split src = .matching dir pattern)
    (hsource : m.drive.volume.directoryAt? dir = some source)
    (htarget : m.drive.volume.directoryAt? dst = some target) (verbose : Bool) {names : List Text}
    (hnames : names = matchesIn pattern (m.drive.volume.children source.path.key))
    (hroom : RoomToMove dir pattern dst names m.heap)
    (hlasting : m.drive.volume.Lasting source target dir dst names.dropLast) :
    Relocates m.drive.volume source target names (rename src dst verbose m) := by
  have hplan : Plan m.drive.volume source target dir dst ([] ++ names) m.heap _ :=
    ⟨pairs_of_matches hw hsource htarget hnames hroom, hlasting⟩
  obtain ⟨h, _, ⟨i, t, rfl⟩, hheap, hrun⟩ := relocate_matching hf hw hbare hsplit hsource
    htarget hnames hroom (fun a b => drive (Drive.rename a b)) (moveMatch verbose)
  obtain ⟨result, m', hx, hleft, hrelocates⟩ := eachPair_relocates
    (m := { m with heap := h, drive := { m.drive with volume := m.drive.volume.listing i t } })
    verbose hplan hf ⟨relocated_listing (.refl hw source target) i t, i, t, rfl⟩ hheap
  obtain ⟨heap, hrename⟩ := hrun result m' hleft hx
  have hsame : rename src dst verbose m =
      relocate (fun a b => drive (Drive.rename a b)) (moveMatch verbose) src dst m := rfl
  rw [hsame, hrename]
  exact hrelocates.withHeap heap

/-- A pattern is renamed into a directory: nothing is done where the destination has a wildcard or
is no directory, and otherwise the matches are moved one after the other, from where the source led
at the beginning to where the destination did, up to the first that the volume refuses to move. -/
theorem rename_matches (label : Text) (ops : List Volume.Operation) (m : Machine)
    (hf : m.drive.faults = []) (hv : m.drive.volume = (Volume.labelled label).runAll ops)
    (src dir pattern : Text) (hsplit : PathText.split src = .matching dir pattern) (dst : Text)
    (verbose : Bool) :
    let v := m.drive.volume
    (Glob.hasWildcard dst = true ∨ v.directoryAt? dst = none →
      rename src dst verbose m = .error (.failed .invalidParameter) m) ∧
    ∀ source target, v.directoryAt? dir = some source → v.directoryAt? dst = some target →
      Glob.hasWildcard dst = false →
      let names := matchesIn pattern (v.children source.path.key)
      RoomToMove dir pattern dst names m.heap →
      v.Lasting source target dir dst names.dropLast →
      Relocates v source target names (rename src dst verbose m) := by
  intro v
  have hw : v.WellFormed := by
    rw [show v = _ from hv]
    exact (Volume.wellFormed_labelled label).runAll ops
  have hbare : v.Bare := by
    rw [show v = _ from hv]
    exact (Volume.bare_labelled label).runAll ops
  constructor
  · intro hrefused
    unfold rename relocate
    dsimp only
    rw [hsplit, bind_apply, checkDestination_matching hf hw hbare, if_pos hrefused]
  · intro source target hsource htarget _ names hroom hlasting
    exact rename_relocates hf hw hbare hsplit hsource htarget verbose rfl hroom hlasting

/-- A card with two entries in `/a`, of which one is the current directory, and nothing in `/c`. -/
def withinSource : Machine :=
  Machine.boot {} ((Volume.labelled []).runAll [.makeDirectories "/a/b", .writeFile "/a/x" [1],
    .makeDirectory "/c", .changeDirectory "/a/b"]) [] {} (.hosted 0 0) .absent

/-- Typed from the root, the directories are found from everywhere: the current directory goes along. -/
theorem rename_matches_within :
    ∃ source target, withinSource.drive.volume.directoryAt? "/a" = some source ∧
      withinSource.drive.volume.directoryAt? "/c" = some target ∧
      matchesIn "*" (withinSource.drive.volume.children source.path.key) = (["b", "x"] : List Text) ∧
      Relocates withinSource.drive.volume source target ["b", "x"]
        (rename "/a/*" "/c" false withinSource) := by
  obtain ⟨source, hsource⟩ : ∃ d, withinSource.drive.volume.directoryAt? "/a" = some d :=
    Option.isSome_iff_exists.mp (by decide +kernel)
  obtain ⟨target, htarget⟩ : ∃ d, withinSource.drive.volume.directoryAt? "/c" = some d :=
    Option.isSome_iff_exists.mp (by decide +kernel)
  have hpath : (withinSource.drive.volume.directoryAt? "/a").map Node.path = some (["a"] : Path) := by
    decide +kernel
  rw [hsource] at hpath
  have hnames :
      matchesIn "*" (withinSource.drive.volume.children source.path.key) = (["b", "x"] : List Text) := by
    rw [Option.some.inj hpath]
    cbv
  have hroom : RoomToMove "/a" "*" "/c" ["b", "x"] withinSource.heap := by
    unfold RoomToMove Heap.RoomFor
    decide +kernel
  have hwellFormed : withinSource.drive.volume.WellFormed :=
    (Volume.wellFormed_labelled []).runAll _
  have hlasting := Volume.lasting_of_absolute
    (Volume.leads_of_directoryAt? hwellFormed hsource).1
    (Volume.leads_of_directoryAt? hwellFormed htarget).1 rfl rfl ["b"]
  have h := (rename_matches [] _ withinSource rfl rfl "/a/*" "/a" "*" (by decide +kernel) "/c"
    false).2 source target hsource htarget (by decide +kernel)
  simp only [hnames] at h
  exact ⟨source, target, hsource, htarget, hnames, h hroom hlasting⟩

/-- Typed from the current directory, the source leads elsewhere once that directory has moved: the
second entry is not found, though the volume would move it. -/
theorem rename_loses_way :
    withinSource.drive.faults = [] ∧ Glob.hasWildcard "/c" = false ∧
    PathText.split "../*" = .matching ".." "*" ∧
    RoomToMove ".." "*" "/c" ["b", "x"] withinSource.heap ∧
    ∃ source target, withinSource.drive.volume.directoryAt? ".." = some source ∧
      withinSource.drive.volume.directoryAt? "/c" = some target ∧
      matchesIn "*" (withinSource.drive.volume.children source.path.key) = (["b", "x"] : List Text) ∧
      ¬ Relocates withinSource.drive.volume source target ["b", "x"]
        (rename "../*" "/c" false withinSource) := by
  obtain ⟨source, hsource⟩ : ∃ d, withinSource.drive.volume.directoryAt? ".." = some d :=
    Option.isSome_iff_exists.mp (by decide +kernel)
  obtain ⟨target, htarget⟩ : ∃ d, withinSource.drive.volume.directoryAt? "/c" = some d :=
    Option.isSome_iff_exists.mp (by decide +kernel)
  have hsourcePath :
      (withinSource.drive.volume.directoryAt? "..").map Node.path = some (["a"] : Path) := by
    decide +kernel
  have htargetPath :
      (withinSource.drive.volume.directoryAt? "/c").map Node.path = some (["c"] : Path) := by
    decide +kernel
  rw [hsource, Option.map_some, Option.some.injEq] at hsourcePath
  rw [htarget, Option.map_some, Option.some.injEq] at htargetPath
  refine ⟨rfl, by decide +kernel, by decide +kernel, ?_, source, target, hsource, htarget, ?_, ?_⟩
  · unfold RoomToMove Heap.RoomFor
    decide +kernel
  · rw [hsourcePath]
    cbv
  · -- `b` is moved and `x` is not, though from there the volume would move it.
    generalize hfinal : (rename "../*" "/c" false).after withinSource = final
    have hrun : (final.drive.volume.facts? ["c", "b"]).isSome = true ∧
        (final.drive.volume.facts? ["c", "x"]).isSome = false ∧
        (((Volume.rename "/a/x" "/c/x").after final.drive.volume).facts? ["c", "x"]).isSome = true := by
      rw [← hfinal]
      cbv
    obtain ⟨hmoved, hleft, hmovable⟩ := hrun
    intro hrelocates
    rcases hend : rename "../*" "/c" false withinSource with ⟨_, m⟩ | ⟨halt, m⟩
    · rw [after_ok hend] at hfinal
      subst hfinal
      rw [hend] at hrelocates
      have hx := hrelocates.toRelocated.facts ["c", "x"]
      rw [htargetPath, hsourcePath, if_pos (by decide +kernel)] at hx
      rw [hx, Option.isSome_map] at hleft
      exact absurd hleft (by decide +kernel)
    · rw [after_error hend] at hfinal
      subst hfinal
      rw [hend] at hrelocates
      obtain ⟨done, name, todo, e, hsplit, hrelocated, hrefused, _⟩ := hrelocates
      rcases done with _ | ⟨first, _ | ⟨second, done⟩⟩
      · have habsent : withinSource.drive.volume.facts? ["c", "b"] = none := by decide +kernel
        rw [hrelocated.facts, if_neg Path.not_among_nil, if_neg Path.not_among_nil, habsent] at hmoved
        cases hmoved
      · obtain rfl : "x" = name := (List.cons.inj (List.cons.inj hsplit).2).1
        have hsourcePlace : Volume.place source "x" = "/a/x" := by
          rw [Volume.place, hsourcePath]
          rfl
        have htargetPlace : Volume.place target "x" = "/c/x" := by
          rw [Volume.place, htargetPath]
          rfl
        rw [hsourcePlace, htargetPlace] at hrefused
        rw [after_error hrefused, hleft] at hmovable
        cases hmovable
      · have hlength := congrArg List.length hsplit
        simp at hlength

end CardShell.Shell
