import CardShell.Proofs.Loader.Load
import CardShell.Proofs.Volume.Atomic
import CardShell.Proofs.Volume.Relocated

/-!
New files with the contents of others. A volume grows by them and keeps all that it had; while one is
written, it holds as much of its source as has been written so far.
-/

set_option autoImplicit false

namespace CardShell.Volume

open CardShell.Action

variable {v u w w' : Volume} {files : List (Path × Bytes)} {path : Path} {data : Bytes}

/-- `w` is `v` with these files made one after the other, each under its path with its contents.
None of them was there, and nothing else has changed. -/
structure Grown (v : Volume) (files : List (Path × Bytes)) (w : Volume) : Prop where
  free : ∀ file ∈ files, v.node? file.1.key = none
  made : ∀ (i : Nat) path data, files[i]? = some (path, data) →
    w.node? path.key =
      some ⟨path, .file data, v.stamp, ⟨Attributes.archiveBit⟩, v.nextOrder + i⟩
  others : ∀ key, (∀ file ∈ files, file.1.key ≠ key) → w.node? key = v.node? key
  directory : w.directory = v.directory
  label : w.label = v.label
  stamp : w.stamp = v.stamp
  nextOrder : w.nextOrder = v.nextOrder + files.length

namespace Grown

theorem refl (v : Volume) : Grown v [] v where
  free := by simp
  made := by simp
  others _ _ := rfl
  directory := rfl
  label := rfl
  stamp := rfl
  nextOrder := rfl

/-- What was there is there. -/
theorem node? (h : Grown v files w) {key : Path} {n : Node} (hn : v.node? key = some n) :
    w.node? key = some n := by
  rw [h.others, hn]
  rintro file hfile rfl
  rw [h.free file hfile] at hn
  cases hn

/-- First these files, then those. -/
theorem append {more : List (Path × Bytes)} (h : Grown v files w) (h' : Grown w more w') :
    Grown v (files ++ more) w' := by
  have hfresh : ∀ file ∈ more, ∀ earlier ∈ files, earlier.1.key ≠ file.1.key := by
    rintro file hfile ⟨q, b⟩ hearlier hkey
    obtain ⟨i, hi⟩ := List.mem_iff_getElem?.mp hearlier
    have hmade := h.made i q b hi
    rw [show q.key = file.1.key from hkey, h'.free file hfile] at hmade
    cases hmade
  refine
    { free := ?_
      made := ?_
      others := ?_
      directory := h'.directory.trans h.directory
      label := h'.label.trans h.label
      stamp := h'.stamp.trans h.stamp
      nextOrder := ?_ }
  · intro file hfile
    rcases List.mem_append.mp hfile with hfile | hfile
    · exact h.free file hfile
    · rw [← h.others file.1.key (hfresh file hfile)]
      exact h'.free file hfile
  · intro i q b hi
    by_cases hlast : i < files.length
    · rw [List.getElem?_append_left hlast] at hi
      exact h'.node? (h.made i q b hi)
    · rw [List.getElem?_append_right (Nat.le_of_not_lt hlast)] at hi
      have horder : w.nextOrder + (i - files.length) = v.nextOrder + i := by
        rw [h.nextOrder]
        omega
      rw [h'.made _ q b hi, h.stamp, horder]
  · intro key hkey
    rw [h'.others key, h.others key]
    · exact fun file hfile => hkey file (List.mem_append_left _ hfile)
    · exact fun file hfile => hkey file (List.mem_append_right _ hfile)
  · rw [h'.nextOrder, h.nextOrder, List.length_append]
    omega

/-- New contents for the one new file. -/
theorem overwrite (h : Grown v [(path, data)] u) (new : Bytes) :
    Grown v [(path, new)]
      (u.updateNode path.key fun n => { n with content := .file new, stamp := u.stamp }) := by
  have hfree : v.node? path.key = none := h.free (path, data) (List.mem_singleton_self _)
  have hne : path.key ≠ [] := by
    intro he
    rw [he] at hfree
    cases hfree
  have hnode := node?_updateNode u path.key fun n =>
    { n with content := .file new, stamp := u.stamp }
  unfold updateNode at hnode ⊢
  rw [if_neg hne] at hnode ⊢
  refine ⟨?_, ?_, ?_, h.directory, h.label, h.stamp, h.nextOrder⟩
  · intro file hfile
    rw [List.mem_singleton.mp hfile]
    exact hfree
  · intro i q b hi
    obtain ⟨hlen, hfile⟩ := List.getElem?_eq_some_iff.mp hi
    have hzero : i = 0 := by simpa using hlen
    subst hzero
    cases hfile
    rw [hnode, if_pos rfl, h.made 0 path data rfl, h.stamp]
    rfl
  · intro key hkey
    have hpath : path.key ≠ key := hkey _ (List.mem_singleton_self _)
    rw [hnode, if_neg hpath.symm, h.others]
    intro file hfile
    rw [List.mem_singleton.mp hfile]
    exact hpath

/-- Open files are not looked at. -/
theorem withFiles (h : Grown v files w) (t : Table Nat OpenFile) (issued : Nat) :
    Grown v files { w with files := t, issued := issued } :=
  ⟨h.free, h.made, h.others, h.directory, h.label, h.stamp, h.nextOrder⟩

end Grown

/-- Where a new file is stored, or why none is made. -/
def newFile (v : Volume) (typed : Text) : Except Error Path := do
  let p ← v.resolve typed
  match v.node? p.key with
  | some n => throw (if n.isDirectory then .denied else .alreadyExists)
  | none => v.newPath p

/-- The file that a copy of `source` to `target` makes, or why it makes none. -/
def copied (v : Volume) (source target : Text) : Except Error (Path × Bytes) := do
  let data ← v.readable source
  let path ← v.newFile target
  return (path, data)

theorem copied_ok {s t : Text} (h : v.copied s t = .ok (path, data)) :
    v.readable s = .ok data ∧ v.newFile t = .ok path := by
  unfold copied at h
  simp only [bind, Except.bind] at h
  cases hr : v.readable s with
  | error e =>
    rw [hr] at h
    cases h
  | ok data' =>
    rw [hr] at h
    cases hnew : v.newFile t with
    | error e =>
      rw [hnew] at h
      cases h
    | ok path' =>
      rw [hnew] at h
      cases h
      exact ⟨rfl, rfl⟩

theorem newFile_ok {t : Text} {stored : Path} (h : v.newFile t = .ok stored) :
    ∃ p, v.resolve t = .ok p ∧ v.node? p.key = none ∧ v.newPath p = .ok stored := by
  unfold newFile at h
  simp only [bind, Except.bind] at h
  cases hp : v.resolve t with
  | error e =>
    rw [hp] at h
    cases h
  | ok p =>
    rw [hp] at h
    dsimp only at h
    cases hn : v.node? p.key with
    | some n =>
      rw [hn] at h
      cases h
    | none =>
      rw [hn] at h
      exact ⟨p, rfl, hn, h⟩

section Places

variable {source target n : Node} {name : Text}

theorem newFile_congr {t t' : Text} {q q' : Path} (ht : v.resolve t = .ok q)
    (ht' : v.resolve t' = .ok q') (hq : q.key = q'.key) (hleaf : q.leaf = q'.leaf) :
    v.newFile t = v.newFile t' := by
  unfold newFile
  rw [ht, ht']
  simp only [bind, Except.bind]
  rw [hq, newPath_congr hq hleaf]

theorem copied_congr {s s' t t' : Text} (hs : v.find s = v.find s')
    (ht : v.newFile t = v.newFile t') : v.copied s t = v.copied s' t' := by
  unfold copied readable
  rw [hs, ht]

/-- Copying a name from one typed directory to another is copying it from where the first leads to
where the second does. -/
theorem copied_join {dir dst : Text} (hname : Path.IsName name)
    (hsource : ∀ c ∈ source.path, Path.IsName c) (htarget : ∀ c ∈ target.path, Path.IsName c)
    (hdir : v.directory.LeadsTo dir source.path.key)
    (hdst : v.directory.LeadsTo dst target.path.key) :
    v.copied (PathText.join dir name) (PathText.join dst name) =
      v.copied (place source name) (place target name) := by
  obtain ⟨q, hq, hkey⟩ := resolve_join hname hdst
  refine copied_congr (find_join hsource hname hdir)
    (newFile_congr hq (resolve_place htarget hname v) hkey ?_)
  rw [Path.leaf, Path.leaf, List.getLast?_concat, List.getLast?_concat]

/-- A copy into a directory is stored there under the name it was given. -/
theorem path_of_copied {s : Text} (ht : v.node? target.path.key = some target)
    (htarget : ∀ c ∈ target.path, Path.IsName c) (hname : Path.IsName name)
    (h : v.copied s (place target name) = .ok (path, data)) : path = target.path ++ [name] := by
  obtain ⟨p, hp, _, hstored⟩ := newFile_ok (copied_ok h).2
  rw [resolve_place htarget hname] at hp
  cases hp
  unfold newPath at hstored
  rw [Path.parent, List.dropLast_concat, ht, Path.leaf, List.getLast?_concat] at hstored
  dsimp only at hstored
  split at hstored
  · cases hstored
    rfl
  · cases hstored

/-- Copies made before, into the same directory and under other names, make no difference to one. -/
theorem Grown.copied_place (h : Grown v files w) (hd : Holds v source target)
    (hsource : ∀ c ∈ source.path, Path.IsName c) (htarget : ∀ c ∈ target.path, Path.IsName c)
    (hname : Path.IsName name) (hn : v.node? (source.path.key ++ [name.lower]) = some n)
    (hfiles : ∀ file ∈ files, ∃ t : Text, name.lower ≠ t.lower ∧ file.1 = target.path ++ [t]) :
    w.copied (place source name) (place target name) =
      v.copied (place source name) (place target name) := by
  rw [← key_concat] at hn
  have hfind : w.find (place source name) = v.find (place source name) := by
    unfold find
    rw [resolve_place hsource hname, resolve_place hsource hname]
    simp only [bind, Except.bind]
    rw [h.node? hn, hn]
  have hfree : w.node? (target.path ++ [name]).key = v.node? (target.path ++ [name]).key := by
    apply h.others
    intro file hfile hkey
    obtain ⟨t, ht, hpath⟩ := hfiles file hfile
    rw [hpath, key_concat, key_concat] at hkey
    exact ht (List.singleton_inj.mp (List.append_cancel_left hkey)).symm
  have hnew : w.newFile (place target name) = v.newFile (place target name) := by
    unfold newFile newPath
    rw [resolve_place htarget hname, resolve_place htarget hname]
    simp only [bind, Except.bind]
    rw [hfree, Path.parent, List.dropLast_concat, h.node? hd.target, hd.target]
  unfold copied readable
  rw [hfind, hnew]

end Places

/-- How the new file of a copy is opened. -/
def forCopy : OpenMode := .write ∪ .createNew

theorem prepare_forCopy (v : Volume) (p : Path) :
    v.prepare p forCopy = match v.node? p.key with
      | some n => if n.isDirectory then .error .denied else .error .alreadyExists
      | none => (v.newPath p).map fun stored => v.insert stored (.file (.ofList [])) := by
  unfold prepare
  cases v.node? p.key with
  | none => rfl
  | some n => rfl

/-- A new file is opened under the next handle, or nothing happens. -/
theorem openFile_forCopy (typed : Text) (v : Volume) :
    match v.newFile typed with
    | .error e => openFile typed forCopy v = .error e v
    | .ok stored => ∃ p, v.resolve typed = .ok p ∧ v.node? p.key = none ∧
        v.newPath p = .ok stored ∧ openFile typed forCopy v = .ok v.nextHandle
          ((v.insert stored (.file (.ofList []))).withHandle ⟨p.key, 0, forCopy⟩) := by
  unfold newFile
  cases hp : v.resolve typed with
  | error e => exact openFile_unresolved forCopy hp
  | ok p =>
    have hprep := prepare_forCopy v p
    simp only [bind, Except.bind]
    cases hn : v.node? p.key with
    | some n =>
      rw [hn] at hprep
      cases hdir : n.isDirectory with
      | true => exact openFile_unprepared hp (by simpa [hdir] using hprep)
      | false => exact openFile_unprepared hp (by simpa [hdir] using hprep)
    | none =>
      rw [hn] at hprep
      cases hs : v.newPath p with
      | error e =>
        rw [hs] at hprep
        exact openFile_unprepared hp hprep
      | ok stored =>
        rw [hs] at hprep
        refine ⟨p, rfl, hn, hs, ?_⟩
        rcases openFile_prepared hp hprep with ⟨e, ha, _⟩ | ⟨position, hposition, hx⟩
        · exact absurd ha (by decide)
        · rw [hx, hposition (by decide)]
          rfl

theorem nextHandle_ne (v : Volume) (issued : Nat) (hi : issued = v.issued + 1) :
    v.nextHandle ≠ { v with issued := issued }.nextHandle := by
  unfold nextHandle
  dsimp only
  omega

theorem grown_insert (hv : v.WellFormed) {p stored : Path} (hn : v.node? p.key = none)
    (hs : v.newPath p = .ok stored) (data : Bytes) :
    stored.key = p.key ∧ Grown v [(stored, data)] (v.insert stored (.file data)) := by
  have hp : p ≠ [] := by
    rintro rfl
    cases hn
  obtain ⟨d, hd, _, rfl, hkey⟩ := hv.newPath hp hs
  rw [← hv.key_path hd] at hd
  rw [← hkey] at hn
  have hnode := node?_insert hv (.file data) hd hn
  refine ⟨hkey, ?_, ?_, ?_, rfl, rfl, rfl, rfl⟩
  · intro file hfile
    rw [List.mem_singleton.mp hfile]
    exact hn
  · intro i path b hi
    obtain ⟨hlen, hfile⟩ := List.getElem?_eq_some_iff.mp hi
    have hzero : i = 0 := by simpa using hlen
    subst hzero
    cases hfile
    rw [hnode, if_pos rfl]
    rfl
  · intro key hkey
    rw [hnode, if_neg]
    exact fun he => hkey _ (List.mem_singleton_self _) he.symm

/-- `u` is `v` with a new file at `path`, that `output` is writing: it holds the first `put` bytes of
the file at `source`, of which `input` has read `got`. -/
structure Copying (v : Volume) (input output : Nat) (source path : Path) (data : Bytes)
    (got put : Nat) (u : Volume) : Prop where
  wellFormed : u.WellFormed
  apart : input ≠ output
  reads : u.files.get? input = some ⟨source, got, .read⟩
  writes : u.files.get? output = some ⟨path.key, put, forCopy⟩
  source : v.dataAt source = .ok data
  grown : Grown v [(path, .ofList (data.toList.take put))] u

variable {input output : Nat} {source : Path} {got put : Nat}

namespace Copying

theorem node (h : Copying v input output source path data got put u) :
    u.node? path.key = some ⟨path, .file (.ofList (data.toList.take put)), v.stamp,
      ⟨Attributes.archiveBit⟩, v.nextOrder⟩ := h.grown.made 0 path _ rfl

/-- The source is still what it was. -/
theorem dataAt_source (h : Copying v input output source path data got put u) :
    u.dataAt source = .ok data := by
  have hsource := h.source
  obtain ⟨n, hn, _⟩ := dataAt_ok hsource
  unfold dataAt at hsource ⊢
  rw [h.grown.node? hn]
  rw [hn] at hsource
  exact hsource

theorem reading (h : Copying v input output source path data got put u) :
    u.Reading input source data got := ⟨openFile?_of_get? h.reads, h.dataAt_source⟩

theorem read (h : Copying v input output source path data got put u) (count : Nat) :
    ∃ u', Volume.read input count u = .ok (data.slice got count) u' ∧
      Copying v input output source path data (got + (data.slice got count).length) put u' := by
  obtain ⟨hread, _⟩ := read_reading h.reading count
  have hw := keeps_read input count u h.wellFormed
  rw [after_ok hread] at hw
  refine ⟨_, hread, ?_⟩
  unfold updateFile at hw ⊢
  rw [h.reads] at hw ⊢
  exact
    { wellFormed := hw
      apart := h.apart
      reads := Table.get?_set_self _ _ _
      writes := (Table.get?_set_of_ne (Ne.symm h.apart) _ _).trans h.writes
      source := h.source
      grown := h.grown.withFiles _ u.issued }

/-- What was read last is written where the new file ends. -/
theorem write (h : Copying v input output source path data got put u) (count : Nat)
    (hput : put ≤ data.size) (hgot : got = put + (data.slice put count).length) :
    ∃ u', Volume.write output (data.slice put count) u = .ok (data.slice put count).length u' ∧
      Copying v input output source path data got got u' := by
  have hdata : u.dataAt path.key = .ok (.ofList (data.toList.take put)) := by
    unfold dataAt
    rw [h.node]
    rfl
  have hmode : forCopy.contains .write = true := by decide
  have hwrite := write_ok (data.slice put count) (openFile?_of_get? h.writes) hmode hdata
  have hw := keeps_write output (data.slice put count) u h.wellFormed
  rw [after_ok hwrite] at hw
  refine ⟨_, hwrite, ?_⟩
  have hsplice : (Bytes.ofList (data.toList.take put)).splice put (data.slice put count) =
      .ofList (data.toList.take got) := by
    have hlen : (data.toList.take put).length = put := by
      rw [List.length_take, Bytes.length_toList]
      omega
    have hbytes : data.slice put count = (data.toList.drop put).take count := Bytes.slice_eq _ _ _
    rw [← Bytes.toList_inj, Bytes.toList_splice, Bytes.toList_extend, Bytes.toList_ofList,
      Bytes.size_ofList, hlen, Nat.sub_self, List.replicate_zero, List.append_nil, List.take_take,
      Nat.min_self, List.drop_eq_nil_of_le (by omega), List.append_nil, Bytes.toList_ofList, hbytes,
      ← List.take_add, hgot, hbytes, List.take_eq_take_iff, List.length_take, List.length_drop]
    omega
  rw [hsplice] at hw ⊢
  have hfiles : (u.updateNode path.key fun n => { n with
      content := .file (.ofList (data.toList.take got)), stamp := u.stamp }).files.get? output =
      some ⟨path.key, put, forCopy⟩ := by
    rw [files_updateNode, h.writes]
  unfold updateFile at hw ⊢
  rw [hfiles] at hw ⊢
  exact
    { wellFormed := hw
      apart := h.apart
      reads := by
        refine (Table.get?_set_of_ne h.apart _ _).trans ?_
        rw [files_updateNode, h.reads]
      writes := by
        refine (Table.get?_set_self _ _ _).trans ?_
        rw [hgot]
      source := h.source
      grown := (h.grown.overwrite _).withFiles _ _ }

/-- Where all has been read, all has been written. -/
theorem complete (h : Copying v input output source path data got got u) (hgot : data.size ≤ got) :
    Grown v [(path, data)] u := by
  have hall : data.toList.take got = data.toList := List.take_of_length_le hgot
  have hgrown := h.grown
  rwa [hall, Bytes.ofList_toList] at hgrown

end Copying

/-- Both files are opened, or the reason why nothing is made shows on the way. -/
theorem openBoth (hv : v.WellFormed) (source target : Text) :
    match v.copied source target with
    | .error e => openFile source .read v = .error e v ∨
        ∃ key, openFile source .read v = .ok v.nextHandle (v.withHandle ⟨key, 0, .read⟩) ∧
          openFile target forCopy (v.withHandle ⟨key, 0, .read⟩) =
            .error e (v.withHandle ⟨key, 0, .read⟩)
    | .ok (path, data) => ∃ key output u,
        openFile source .read v = .ok v.nextHandle (v.withHandle ⟨key, 0, .read⟩) ∧
        openFile target forCopy (v.withHandle ⟨key, 0, .read⟩) = .ok output u ∧
        Copying v v.nextHandle output key path data 0 0 u := by
  have hsource := openFile_readable source v
  unfold copied
  cases hr : v.readable source with
  | error e =>
    rw [hr] at hsource
    exact Or.inl hsource
  | ok data =>
    rw [hr] at hsource
    obtain ⟨key, hdata, hopen⟩ := hsource
    have htarget := openFile_forCopy target (v.withHandle ⟨key, 0, .read⟩)
    have hsame : (v.withHandle ⟨key, 0, .read⟩).newFile target = v.newFile target := rfl
    rw [hsame] at htarget
    simp only [bind, Except.bind]
    cases hnew : v.newFile target with
    | error e =>
      rw [hnew] at htarget
      exact Or.inr ⟨key, hopen, htarget⟩
    | ok stored =>
      rw [hnew] at htarget
      obtain ⟨p, _, hn, hs, hx⟩ := htarget
      have hw := keeps_openFile source .read v hv
      rw [after_ok hopen] at hw
      have hw' := keeps_openFile target forCopy _ hw
      rw [after_ok hx] at hw'
      have hapart : v.nextHandle ≠ (v.withHandle ⟨key, 0, .read⟩).nextHandle :=
        nextHandle_ne v (v.issued + 1) rfl
      obtain ⟨hkey, hgrown⟩ := grown_insert hv hn hs (.ofList [])
      refine ⟨key, _, _, hopen, hx, ?_⟩
      exact
        { wellFormed := hw'
          apart := hapart
          reads := (Table.get?_set_of_ne hapart _ _).trans (Table.get?_set_self _ _ _)
          writes := by
            rw [hkey]
            exact Table.get?_set_self _ _ _
          source := hdata
          grown := hgrown.withFiles _ _ }

end CardShell.Volume
