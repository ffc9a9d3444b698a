import CardShell.Proofs.Loader.Reliable
import CardShell.Proofs.Shell.Batch
import CardShell.Proofs.Volume.Copied

/-!
Copying one file, or the matches of a pattern, on a card that does not fail and with enough of the heap.
What a copy comes to is told by the volume before it alone: neither how the bytes are cut into pieces
nor the copies made before it make a difference.
-/

set_option autoImplicit false

namespace CardShell

open CardShell.Action

variable {v : Volume} {files : List (Path × Bytes)}

/-- A card that does not fail, with `v` and these new files on it. -/
structure Drive.Gained (v : Volume) (files : List (Path × Bytes)) (d : Drive) : Prop where
  reliable : d.Reliable
  wellFormed : d.volume.WellFormed
  grown : v.Grown files d.volume

theorem Drive.Gained.append {more : List (Path × Bytes)} {d d' : Drive} (h : d.Gained v files)
    (h' : d'.Gained d.volume more) : d'.Gained v (files ++ more) :=
  ⟨h'.reliable, h'.wellFormed, h.grown.append h'.grown⟩

theorem Drive.Gained.closeFile {d : Drive} (h : d.Gained v files) {handle : Nat}
    (hh : d.volume.files.has handle = true) :
    ∃ d', Drive.closeFile handle d = .ok () d' ∧ d'.Gained v files ∧
      d'.volume.files = d.volume.files.erase handle := by
  have hw := Volume.keeps_closeFile handle d.volume h.wellFormed
  rw [after_ok (Volume.closeFile_ok hh)] at hw
  refine ⟨_, h.reliable.closeFile_eq hh, ?_, rfl⟩
  exact ⟨h.reliable.withVolume _, hw, h.grown.withFiles _ d.volume.issued⟩

namespace Shell

open Drive

variable {m : Machine} {input output got : Nat} {source path : Path} {data : Bytes}

section OneFile

/-- Reading and writing in turn ends with all of the source written, whatever the size of the
pieces. -/
theorem copyRest_ok {chunk fuel : Nat} (hchunk : chunk ≠ 0) (hd : m.drive.Reliable)
    (hc : v.Copying input output source path data got got m.drive.volume)
    (hfuel : data.size < fuel + got) :
    ∃ d put, copyRest input output chunk fuel m = .ok () { m with drive := d } ∧ d.Reliable ∧
      data.size ≤ put ∧ v.Copying input output source path data put put d.volume := by
  induction fuel generalizing got m with
  | zero => exact ⟨m.drive, got, rfl, hd, by omega, hc⟩
  | succ fuel ih =>
    obtain ⟨part, d, hpart, _, hread, hd', hvolume⟩ := hd.read_eq input hchunk
    rw [← hvolume] at hc
    obtain ⟨u, hgot, hc'⟩ := hc.read part
    rw [onVolume_ok hgot] at hread
    have hlen := data.length_slice got part
    unfold copyRest
    rw [bind_apply, drive_ok hread]
    dsimp only
    by_cases hnil : data.slice got part = []
    · rw [hnil, List.length_nil] at hlen hc'
      rw [if_pos hnil]
      exact ⟨{ d with volume := u }, got, rfl, hd'.withVolume u, by omega, hc'⟩
    · have hpos := List.length_pos_iff.mpr hnil
      obtain ⟨u', hput, hc''⟩ := hc'.write part (by omega) rfl
      have hwrite :=
        ((hd'.withVolume u).write output (data.slice got part)).trans (onVolume_ok hput)
      have hwritten := drive_ok (m := { m with drive := { d with volume := u } }) hwrite
      rw [if_neg hnil, bind_apply, hwritten]
      dsimp only
      rw [if_neg (Nat.lt_irrefl _)]
      exact ih (m := { m with drive := { d with volume := u' } }) (hd'.withVolume u') hc''
        (by omega)

/-- What is done with both files open. -/
def pour (verbose : Bool) (src dst : Text) (input output : Nat) : Shell Unit := do
  if verbose then print ("Copying " ++ src ++ " to " ++ dst ++ "\r\n")
  let m ← get
  copyRest input output m.settings.storage.copyChunk (m.drive.volume.remaining input + 1)

theorem pour_ok (hchunk : m.settings.storage.copyChunk ≠ 0) (hd : m.drive.Reliable)
    (hc : v.Copying input output source path data 0 0 m.drive.volume) (verbose : Bool)
    (src dst : Text) :
    ∃ c d, pour verbose src dst input output m = .ok () { m with console := c, drive := d } ∧
      d.Gained v [(path, data)] ∧ d.volume.files.has input = true ∧
      d.volume.files.has output = true ∧ input ≠ output := by
  have hremaining : m.drive.volume.remaining input = data.size := by
    unfold Volume.remaining
    rw [hc.reading.file]
    dsimp only
    rw [hc.reading.data]
    rfl
  have hrest : ∀ c, ∃ d put, copyRest input output m.settings.storage.copyChunk
      (m.drive.volume.remaining input + 1) { m with console := c } =
        .ok () { m with console := c, drive := d } ∧ d.Reliable ∧
      data.size ≤ put ∧ v.Copying input output source path data put put d.volume := by
    intro c
    rw [hremaining]
    exact copyRest_ok (m := { m with console := c }) hchunk hd hc (Nat.lt_succ_self _)
  have hpour : ∃ c, pour verbose src dst input output m = copyRest input output
      m.settings.storage.copyChunk (m.drive.volume.remaining input + 1) { m with console := c } := by
    cases verbose with
    | false => exact ⟨m.console, rfl⟩
    | true => exact ⟨_, rfl⟩
  obtain ⟨c, hpour⟩ := hpour
  obtain ⟨d, put, hx, hd', hput, hc'⟩ := hrest c
  refine ⟨c, d, hpour.trans hx, ⟨hd', hc'.wellFormed, hc'.complete hput⟩, ?_, ?_, hc'.apart⟩
  · unfold Table.has
    rw [hc'.reads]
    rfl
  · unfold Table.has
    rw [hc'.writes]
    rfl

/-- A file that was opened is closed again, whatever `body` comes to. -/
theorem withFile_ok {α : Type} {m₁ : Machine} {d d' : Drive} {typed : Text} {mode : OpenMode} {h : Nat}
    (body : Nat → Shell α) {result : Except Error α}
    (hopen : Drive.openFile typed mode m.drive = .ok h d)
    (hbody : body h { m with drive := d } = ofExcept result m₁)
    (hclose : Drive.closeFile h m₁.drive = .ok () d') :
    withFile typed mode body m = ofExcept result { m₁ with drive := d' } := by
  unfold withFile
  rw [bind_apply, drive_ok hopen]
  dsimp only
  cases result with
  | ok a => exact closing_ok hbody (drive_ok hclose)
  | error e =>
    rw [closing_error (show body h { m with drive := d } = .error (.failed e) m₁ from hbody),
      after_ok (drive_ok hclose)]
    rfl

theorem withFile_error {α : Type} {typed : Text} {mode : OpenMode} {e : Error}
    (hopen : Drive.openFile typed mode m.drive = .error e m.drive) (body : Nat → Shell α) :
    withFile typed mode body m = .error (.failed e) m := by
  unfold withFile
  rw [bind_apply, drive_error hopen]

theorem copyFile_eq (verbose : Bool) (src dst : Text) :
    copyFile verbose src dst = withFile src .read fun input =>
      withFile dst Volume.forCopy (pour verbose src dst input) := rfl

/-- Where the second file does not open, the first is closed again. -/
theorem copyFile_refused (hd : m.drive.Reliable) (hw : m.drive.volume.WellFormed) (verbose : Bool)
    {src dst : Text} {e : Error}
    (h : let w := fun key => m.drive.volume.withHandle ⟨key, 0, .read⟩
      Volume.openFile src .read m.drive.volume = .error e m.drive.volume ∨
      ∃ key, Volume.openFile src .read m.drive.volume = .ok m.drive.volume.nextHandle (w key) ∧
        Volume.openFile dst Volume.forCopy (w key) = .error e (w key)) :
    ∃ d, copyFile verbose src dst m = .error (.failed e) { m with drive := d } ∧
      d.Gained m.drive.volume [] := by
  rw [copyFile_eq]
  rcases h with hsource | ⟨key, hsource, htarget⟩
  · have hrefused := (hd.change .openFile _).trans (onVolume_error hsource)
    exact ⟨m.drive, withFile_error hrefused _, hd, hw, .refl _⟩
  · have hopened := (hd.change .openFile _).trans (onVolume_ok hsource)
    have hw' := Volume.keeps_openFile src .read _ hw
    rw [after_ok hsource] at hw'
    let d : Drive := { m.drive with volume := m.drive.volume.withHandle ⟨key, 0, .read⟩ }
    have hd' : d.Reliable := hd.withVolume _
    have hrefused := (hd'.change .openFile _).trans (onVolume_error htarget)
    have hgained : d.Gained m.drive.volume [] := ⟨hd', hw', (Volume.Grown.refl _).withFiles _ _⟩
    have hhas : d.volume.files.has m.drive.volume.nextHandle = true := by
      unfold Table.has
      rw [show d.volume.files.get? _ = _ from Table.get?_set_self _ _ _]
      rfl
    obtain ⟨d', hclose, hgained', _⟩ := hgained.closeFile hhas
    have hinner : withFile dst Volume.forCopy (pour verbose src dst m.drive.volume.nextHandle)
        { m with drive := d } = ofExcept (.error e) { m with drive := d } :=
      withFile_error (m := { m with drive := d }) hrefused _
    have hx := withFile_ok (m := m) (fun input => withFile dst Volume.forCopy
      (pour verbose src dst input)) hopened hinner hclose
    exact ⟨d', hx, hgained'⟩

/-- Where both open, all is copied, and both are closed again. -/
theorem copyFile_made (hchunk : m.settings.storage.copyChunk ≠ 0) (hd : m.drive.Reliable)
    (verbose : Bool) {src dst : Text} {w u : Volume}
    (hsource : Volume.openFile src .read m.drive.volume = .ok input w)
    (htarget : Volume.openFile dst Volume.forCopy w = .ok output u)
    (hc : m.drive.volume.Copying input output source path data 0 0 u) :
    ∃ c d, copyFile verbose src dst m = .ok () { m with console := c, drive := d } ∧
      d.Gained m.drive.volume [(path, data)] := by
  let m₁ : Machine := { m with drive := { m.drive with volume := w } }
  let m₂ : Machine := { m with drive := { m.drive with volume := u } }
  obtain ⟨c, d, hpour, hgained, hinput, houtput, hapart⟩ :=
    pour_ok (m := m₂) hchunk (hd.withVolume u) hc verbose src dst
  obtain ⟨d₁, hclose₁, hgained₁, hfiles⟩ := hgained.closeFile houtput
  have hinput₁ : d₁.volume.files.has input = true := by
    rw [hfiles, Table.has, Table.get?_erase_of_ne hapart]
    exact hinput
  obtain ⟨d₂, hclose₂, hgained₂, _⟩ := hgained₁.closeFile hinput₁
  have hopened₁ := (hd.change .openFile _).trans (onVolume_ok hsource)
  have hopened₂ := ((hd.withVolume w).change .openFile _).trans (onVolume_ok htarget)
  have hpoured : pour verbose src dst input output m₂ =
      ofExcept (.ok ()) { m with console := c, drive := d } := hpour
  have hinner := withFile_ok (m := m₁) (pour verbose src dst input) hopened₂ hpoured hclose₁
  have hx := withFile_ok (m := m) (fun input => withFile dst Volume.forCopy
    (pour verbose src dst input)) hopened₁ hinner hclose₂
  exact ⟨c, d₂, hx, hgained₂⟩

/-- A copy makes the file that the volume tells, or none and gives the reason. -/
theorem copyFile_ends (hchunk : m.settings.storage.copyChunk ≠ 0) (hd : m.drive.Reliable)
    (hw : m.drive.volume.WellFormed) (verbose : Bool) (src dst : Text) :
    let made := m.drive.volume.copied src dst
    ∃ c d, copyFile verbose src dst m =
        ofExcept (made.map fun _ => ()) { m with console := c, drive := d } ∧
      d.Gained m.drive.volume made.toOption.toList := by
  intro made
  have hboth := Volume.openBoth hw src dst
  cases hmade : made with
  | error e =>
    rw [show m.drive.volume.copied src dst = _ from hmade] at hboth
    obtain ⟨d, hx, hgained⟩ := copyFile_refused hd hw verbose hboth
    exact ⟨m.console, d, hx, hgained⟩
  | ok file =>
    rw [show m.drive.volume.copied src dst = _ from hmade] at hboth
    obtain ⟨key, output, u, hsource, htarget, hcopying⟩ := hboth
    exact copyFile_made hchunk hd verbose hsource htarget hcopying

end OneFile

/-- The file is one in the second directory, with this name and the contents of the entry that has it in
the first. -/
def IsCopy (v : Volume) (source target : Node) (name : Text) (file : Path × Bytes) : Prop :=
  file.1 = target.path ++ [name] ∧ v.readable (Volume.place source name) = .ok file.2

/-- What copying these names from one directory to another has to come to: for those
that are done there are new files, and nothing else has changed; and all of them are done, or the next
one cannot be copied. -/
structure Copies (v : Volume) (source target : Node) (names done : List Text)
    (files : List (Path × Bytes)) (result : Except Error Unit) (w : Volume) : Prop where
  made : List.Forall₂ (IsCopy v source target) done files
  grown : v.Grown files w
  ends : (done = names ∧ result = .ok ()) ∨
    ∃ name todo e, names = done ++ name :: todo ∧
      v.copied (Volume.place source name) (Volume.place target name) = .error e ∧ result = .error e

variable {source target : Node} {dir dst : Text} {done todo names : List Text} {b : Heap} {held : Nat}

/-- A copy made by now is told by the volume from the beginning. -/
theorem Pairs.copied_eq {w : Volume} {name : Text}
    (hp : Pairs v source target dir dst (done ++ name :: todo) b held) (hw : v.Grown files w)
    (hmade : List.Forall₂ (IsCopy v source target) done files) :
    w.copied (PathText.join dir name) (PathText.join dst name) =
      v.copied (Volume.place source name) (Volume.place target name) := by
  have hmem : name ∈ done ++ name :: todo := List.mem_append_right _ List.mem_cons_self
  have hname := hp.isName hmem
  have hsource := hp.wellFormed.isName_of_mem hp.holds.source
  have htarget := hp.wellFormed.isName_of_mem hp.holds.target
  obtain ⟨n, hn, _⟩ := hp.entries name hmem
  have hleads := hp.leads
  rw [← hw.directory] at hleads
  rw [Volume.copied_join hname hsource htarget hleads.1 hleads.2]
  apply hw.copied_place hp.holds hsource htarget hname hn
  intro file hfile
  obtain ⟨i, hi, rfl⟩ := List.mem_iff_getElem.mp hfile
  have hdone : i < done.length := hmade.length_eq.symm ▸ hi
  exact ⟨done[i], hp.fresh _ (List.getElem_mem hdone), (hmade.get hdone hi).1⟩

/-- The names are copied in turn, until one cannot be. -/
theorem eachPair_copies (verbose : Bool) (hchunk : m.settings.storage.copyChunk ≠ 0)
    (hp : Pairs v source target dir dst (done ++ todo) b held) (hd : m.drive.Gained v files)
    (hmade : List.Forall₂ (IsCopy v source target) done files)
    (hb : b.Bears held m.heap) :
    ∃ done' files' result m', eachPair dir dst (copyFile verbose) todo m = ofExcept result m' ∧
      b.Bears held m'.heap ∧
      Copies v source target (done ++ todo) done' files' result m'.drive.volume := by
  induction todo generalizing done files m with
  | nil => exact ⟨done, files, .ok (), m, rfl, hb, hmade, hd.grown, Or.inl ⟨by simp, rfl⟩⟩
  | cons name todo ih =>
    have hmem : name ∈ done ++ name :: todo := List.mem_append_right _ List.mem_cons_self
    have heq := hp.copied_eq hd.grown hmade
    have hroom := hp.room name hmem
    generalize hx : PathText.join dir name = x at heq hroom
    generalize hy : PathText.join dst name = y at heq hroom
    obtain ⟨h, hheap, hpaths⟩ := withPaths_ok [x, y] hb hroom (copyFile verbose x y)
    obtain ⟨c, d, hcopy, hgained⟩ :=
      copyFile_ends (m := { m with heap := h }) hchunk hd.reliable hd.wellFormed verbose x y
    obtain ⟨h', hheap', hclosed⟩ := closing_releaseTexts hcopy hheap
    rw [show ({ m with heap := h } : Machine).drive.volume.copied x y = _ from heq] at hclosed hgained
    unfold eachPair
    dsimp only
    rw [hx, hy, bind_apply, hpaths, hclosed]
    have hgrown := hd.append hgained
    cases hcopied : v.copied (Volume.place source name) (Volume.place target name) with
    | error e =>
      rw [hcopied] at hgrown
      have hsame : d.Gained v (files ++ []) := hgrown
      rw [List.append_nil] at hsame
      exact ⟨done, files, .error e, _, rfl, hheap', hmade, hsame.grown,
        Or.inr ⟨name, todo, e, rfl, hcopied, rfl⟩⟩
    | ok file =>
      rw [hcopied] at hgrown
      have hstored := Volume.path_of_copied hp.holds.target
        (hp.wellFormed.isName_of_mem hp.holds.target) (hp.isName hmem) hcopied
      have hcopy : IsCopy v source target name file := ⟨hstored, (Volume.copied_ok hcopied).1⟩
      have hmade' : List.Forall₂ (IsCopy v source target) (done ++ [name]) (files ++ [file]) :=
        List.rel_append hmade (.cons hcopy .nil)
      rw [List.append_cons] at hp ⊢
      exact ih (m := { m with heap := h', console := c, drive := d }) hchunk hp hgrown hmade' hheap'

section Command

theorem gained_listing (hd : m.drive.Reliable) (hw : m.drive.volume.WellFormed) (i : Nat)
    (t : Table Nat (List Entry)) :
    Gained m.drive.volume [] { m.drive with volume := m.drive.volume.listing i t } where
  reliable := hd.withVolume _
  wellFormed := hw.withFiles rfl rfl rfl rfl hw.files
  grown :=
    have h := Volume.Grown.refl m.drive.volume
    ⟨h.free, h.made, h.others, h.directory, h.label, h.stamp, h.nextOrder⟩

theorem copy_single (hchunk : m.settings.storage.copyChunk ≠ 0) (hd : m.drive.Reliable)
    (hw : m.drive.volume.WellFormed) (hbare : m.drive.volume.Bare) {src : Text}
    (hsplit : PathText.split src = .single src) (hdst : Glob.hasWildcard dst = false)
    (hroom : m.heap.RoomFor [src, destination m.drive.volume src dst]) (verbose : Bool) :
    let made := m.drive.volume.copied src (destination m.drive.volume src dst)
    ∃ m', copy src dst verbose m = ofExcept (made.map fun _ => ()) m' ∧
      m.drive.volume.Grown made.toOption.toList m'.drive.volume := by
  intro made
  obtain ⟨h, hrun⟩ := relocate_single (m := m) hd.faults hw hbare hsplit hdst hroom
    (copyFile verbose) (copyFile verbose)
  obtain ⟨c, d, hx, hgained⟩ := copyFile_ends (m := { m with heap := h }) hchunk hd hw verbose src
    (destination m.drive.volume src dst)
  obtain ⟨heap, hcopy⟩ := hrun _ _ rfl hx
  exact ⟨_, hcopy, hgained.grown⟩

/-- A single file is copied to the destination or, if that is a directory, into it; the matches of a
pattern are copied into a directory in turn, as the directory they are in enumerates them, up to the
first that cannot be copied. For each there is a new file with the contents its source had before,
however much is copied at a time, and nothing else on the card changes; the first failure is the one
that is returned. Nothing is done where the destination has a wildcard, or is no directory and the
source is a pattern, or where the directory of the pattern does not open. -/
theorem copy_new_files (label : Text) (ops : List Volume.Operation) (m : Machine)
    (hd : m.drive.Reliable) (hv : m.drive.volume = (Volume.labelled label).runAll ops)
    (hchunk : 1 ≤ m.settings.storage.copyChunk) (src dst : Text) (verbose : Bool) :
    let v := m.drive.volume
    (Glob.hasWildcard dst = true → copy src dst verbose m = .error (.failed .invalidParameter) m) ∧
    match PathText.split src with
    | .single _ => Glob.hasWildcard dst = false →
      let target := destination v src dst
      let made := v.copied src target
      m.heap.RoomFor [src, target] →
      ∃ m', copy src dst verbose m = ofExcept (made.map fun _ => ()) m' ∧
        v.Grown made.toOption.toList m'.drive.volume
    | .matching dir pattern => match v.directoryAt? dst with
      | none => copy src dst verbose m = .error (.failed .invalidParameter) m
      | some target => match v.directoryAt? dir with
        | none => m.heap.RoomFor [dir, pattern] →
          ∃ e heap, v.entriesOf (PathText.toOpen dir) = .error e ∧
            copy src dst verbose m = .error (.failed e) { m with heap := heap }
        | some source =>
          let names := matchesIn pattern (v.children source.path.key)
          RoomToMove dir pattern dst names m.heap →
          ∃ done files result m', copy src dst verbose m = ofExcept result m' ∧
            Copies v source target names done files result m'.drive.volume := by
  intro v
  have hw : v.WellFormed := .of_runAll hv
  have hbare : v.Bare := .of_runAll hv
  have hchunk' : m.settings.storage.copyChunk ≠ 0 := Nat.ne_of_gt hchunk
  constructor
  · intro hwild
    unfold copy relocate checkDestination
    dsimp only
    rw [bind_apply, if_pos hwild]
    rfl
  · cases hsplit : PathText.split src with
    | single path =>
      cases PathText.eq_of_split_single hsplit
      intro hdst target made hroom
      exact copy_single hchunk' hd hw hbare hsplit hdst hroom verbose
    | matching dir pattern =>
      dsimp only
      cases htarget : v.directoryAt? dst with
      | none =>
        have hrefused := checkDestination_matching hd.faults hw hbare dir pattern dst
        rw [if_pos (Or.inr htarget)] at hrefused
        unfold copy relocate
        dsimp only
        rw [hsplit, bind_apply, hrefused]
      | some target =>
        dsimp only
        cases hsource : v.directoryAt? dir with
        | none =>
          intro hroom
          exact relocate_unopened hd.faults hw hbare hsplit hsource htarget hroom (copyFile verbose)
            (copyFile verbose)
        | some source =>
          intro hroom
          have hpairs : Pairs v source target dir dst
              ([] ++ matchesIn pattern (v.children source.path.key)) m.heap _ :=
            pairs_of_matches hw hsource htarget rfl hroom
          obtain ⟨h, _, ⟨i, t, rfl⟩, hheap, hrun⟩ := relocate_matching hd.faults hw hbare hsplit
            hsource htarget rfl hroom (copyFile verbose) (copyFile verbose)
          obtain ⟨done, files, result, m', hx, hleft, hcopies⟩ := eachPair_copies (m := { m with
              heap := h, drive := { m.drive with volume := m.drive.volume.listing i t } })
            verbose hchunk' hpairs (gained_listing hd hw i t) .nil hheap
          obtain ⟨heap, hcopy⟩ := hrun result m' hleft hx
          exact ⟨done, files, result, _, hcopy, hcopies⟩

/-- A card with three files in `/s`, the second of which is in `/t` already, that gives at most a byte
at the first read; two bytes are copied at a time. -/
def threeInSource : Machine :=
  let m := Machine.boot { storage := { copyChunk := 2 } } ((Volume.labelled []).runAll
    [.writeFile "/s/a" [1, 2, 3, 4, 5], .writeFile "/s/b" [6], .writeFile "/s/c" [7],
      .writeFile "/t/B" []]) [] {} (.hosted 0 0) .absent
  { m with drive := { m.drive with portions := [1] } }

/-- The copies of the three end with the second at the latest. -/
theorem copy_new_files_refused :
    ∃ source target done files result m',
      threeInSource.drive.volume.directoryAt? "/s" = some source ∧
      threeInSource.drive.volume.directoryAt? "/t" = some target ∧
      copy "/s/*" "/t" false threeInSource = ofExcept result m' ∧
      Copies threeInSource.drive.volume source target ["a", "b", "c"] done files result
        m'.drive.volume ∧
      threeInSource.drive.volume.copied (Volume.place source "b") (Volume.place target "b") =
        .error .alreadyExists := by
  obtain ⟨source, hsource⟩ : ∃ d, threeInSource.drive.volume.directoryAt? "/s" = some d :=
    Option.isSome_iff_exists.mp (by decide +kernel)
  obtain ⟨target, htarget⟩ : ∃ d, threeInSource.drive.volume.directoryAt? "/t" = some d :=
    Option.isSome_iff_exists.mp (by decide +kernel)
  have hpaths : (threeInSource.drive.volume.directoryAt? "/s").map Node.path = some (["s"] : Path) ∧
      (threeInSource.drive.volume.directoryAt? "/t").map Node.path = some (["t"] : Path) := by
    decide +kernel
  rw [hsource, htarget, Option.map_some, Option.map_some, Option.some.injEq, Option.some.injEq]
    at hpaths
  have hnames : matchesIn "*" (threeInSource.drive.volume.children source.path.key) =
      (["a", "b", "c"] : List Text) := by
    rw [hpaths.1]
    cbv
  have hroom : RoomToMove "/s" "*" "/t" ["a", "b", "c"] threeInSource.heap := by
    unfold RoomToMove Heap.RoomFor
    decide +kernel
  have hrefused : threeInSource.drive.volume.copied (Volume.place source "b")
      (Volume.place target "b") = .error .alreadyExists := by
    unfold Volume.place
    rw [hpaths.1, hpaths.2]
    decide +kernel
  have hreliable : threeInSource.drive.Reliable := ⟨by decide +kernel, by decide +kernel⟩
  have hsplit : PathText.split "/s/*" = .matching "/s" "*" := by decide +kernel
  have h := (copy_new_files [] _ threeInSource hreliable rfl (by decide +kernel) "/s/*" "/t" false).2
  simp only [hsplit, htarget, hsource, hnames] at h
  obtain ⟨done, files, result, m', hcopy, hcopies⟩ := h hroom
  exact ⟨source, target, done, files, result, m', hsource, htarget, hcopy, hcopies, hrefused⟩

end Command

end Shell

end CardShell
