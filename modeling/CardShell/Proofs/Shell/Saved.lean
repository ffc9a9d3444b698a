import CardShell.Proofs.Loader.Search
import CardShell.Proofs.Shell.Copy
import CardShell.Proofs.Volume.Written

/-!
Saving and loading again. A save makes one new file with the bytes of its range, and a load from
that file puts them, or the first of them, wherever there is room for them below the system area. A
save that is refused leaves everything as it was.
-/

set_option autoImplicit false

namespace CardShell

namespace Memory

/-- The `count` bytes from `address` lie in RAM. -/
structure Covers (m : Memory) (address count : Nat) : Prop where
  base_le : m.base ≤ address
  le_end : address + count ≤ m.base + m.size

variable {m : Memory} {address count : Nat}

theorem offset?_of_covers (h : m.Covers address count) :
    m.offset? address count = .ok (address - m.base) := by
  have hbase := h.base_le
  have hend := h.le_end
  unfold offset?
  rw [if_neg (by omega)]

theorem offset?_of_not_covers (h : ¬ m.Covers address count) :
    m.offset? address count = .error .invalidParameter := by
  unfold offset?
  rw [if_pos]
  by_cases hbase : m.base ≤ address
  · have hend : ¬ address + count ≤ m.base + m.size := fun hend => h ⟨hbase, hend⟩
    omega
  · omega

theorem slice_of_covers (h : m.Covers address count) :
    ∃ data, m.slice address count = .ok data ∧ data.length = count := by
  have hlength : ((List.range' (address - m.base) count).map m.cell).length = count := by
    rw [List.length_map, List.length_range']
  refine ⟨_, ?_, hlength⟩
  unfold slice
  rw [offset?_of_covers h]
  rfl

end Memory

namespace Volume

variable {v w : Volume} {typed : Text} {p stored : Path} {data : List UInt8}

/-- Nothing is at the path, but the directory it would be in is there. -/
structure Vacant (v : Volume) (typed : Text) (p : Path) : Prop where
  resolves : v.resolve typed = .ok p
  free : v.node? p.key = none
  directory : v.isDirectoryAt p.parent.key = true

/-- `w` has a file with these bytes at `key`, and is as `v` is elsewhere. -/
structure Holding (v : Volume) (key : Path) (data : List UInt8) (w : Volume) : Prop where
  file : w.dataAt key = .ok (.ofList data)
  others : ∀ k, k ≠ key → w.node? k = v.node? k

theorem Vacant.newPath (h : v.Vacant typed p) : ∃ stored, v.newPath p = .ok stored := by
  have hdirectory := h.directory
  unfold isDirectoryAt at hdirectory
  unfold Volume.newPath
  cases hn : v.node? p.parent.key with
  | none =>
    rw [hn] at hdirectory
    cases hdirectory
  | some n =>
    rw [hn] at hdirectory
    exact ⟨_, if_pos hdirectory⟩

theorem Vacant.newFile (h : v.Vacant typed p) : ∃ stored, v.newFile typed = .ok stored := by
  obtain ⟨stored, hs⟩ := h.newPath
  refine ⟨stored, ?_⟩
  unfold Volume.newFile
  rw [h.resolves]
  simp only [bind, Except.bind]
  rw [h.free]
  exact hs

theorem Grown.dataAt (h : Grown v [(stored, .ofList data)] w) :
    w.dataAt stored.key = .ok (.ofList data) := by
  unfold Volume.dataAt
  rw [h.made 0 stored _ rfl]
  rfl

theorem Grown.holding (h : Grown v [(stored, .ofList data)] w) : v.Holding stored.key data w := by
  refine ⟨h.dataAt, fun k hk => h.others k fun file hfile => ?_⟩
  rw [List.mem_singleton.mp hfile]
  exact hk.symm

theorem Holding.of_alike {key : Path} {d d' : Drive} (h : v.Holding key data d.volume)
    (halike : d.Alike d') : v.Holding key data d'.volume := by
  refine ⟨?_, fun k hk => ?_⟩
  · unfold Volume.dataAt
    rw [halike.node?]
    exact h.file
  · rw [halike.node?]
    exact h.others k hk

/-- The new file is found where the path leads. -/
theorem Grown.readable (h : Grown v [(stored, .ofList data)] w) (hp : v.resolve typed = .ok p)
    (hkey : stored.key = p.key) : w.readable typed = .ok (.ofList data) := by
  have hp' : w.resolve typed = .ok p := by
    unfold resolve at hp ⊢
    rw [h.directory, hp]
  have hmade := h.made 0 stored _ rfl
  rw [hkey] at hmade
  unfold Volume.readable find
  rw [hp']
  simp only [bind, Except.bind, hmade]
  rfl

/-- What is written first to a new file is what it holds. -/
theorem write_new (hv : v.WellFormed) (h : v.Vacant typed p) (data : List UInt8) :
    ∃ stored handle u w, openFile typed forCopy v = .ok handle u ∧
      write handle data u = .ok data.length w ∧ w.files.has handle = true ∧
      stored.key = p.key ∧ Grown v [(stored, .ofList data)] w := by
  obtain ⟨stored, hnew⟩ := h.newFile
  have hopen := openFile_forCopy typed v
  rw [hnew] at hopen
  obtain ⟨p', hp, hn, hs, hx⟩ := hopen
  rw [h.resolves] at hp
  cases hp
  obtain ⟨hkey, hgrown⟩ := grown_insert hv hn hs (.ofList [])
  rw [← hkey] at hx
  let u := (v.insert stored (.file (.ofList []))).withHandle ⟨stored.key, 0, forCopy⟩
  have hu : Grown v [(stored, .ofList [])] u := hgrown.withFiles _ _
  have hget : u.files.get? v.nextHandle = some ⟨stored.key, 0, forCopy⟩ :=
    Table.get?_set_self _ _ _
  have hmode : forCopy.contains .write = true := by decide
  have hwrite := write_ok data (openFile?_of_get? hget) hmode hu.dataAt
  rw [Bytes.splice_empty] at hwrite
  refine ⟨stored, v.nextHandle, u, _, hx, hwrite, ?_, hkey, ?_⟩
  · rw [has_updateFile, files_updateNode, Table.has, hget]
    rfl
  · unfold updateFile
    rw [files_updateNode, hget]
    exact (hu.overwrite _).withFiles _ _

end Volume

namespace Shell

open CardShell.Action

variable {m : Machine} {typed : Text} {p : Path} {data : List UInt8} {address size : Nat}

section Saving

/-- What a save does with the opened file. -/
def put (data : List UInt8) (h : Nat) : Shell Unit := do
  if (← drive (Drive.write h data)) < data.length then fail .denied

theorem save_of_slice (hslice : m.memory.slice address size = .ok data) (typed : Text) :
    save typed address size m = withFile typed Volume.forCopy (put data) m := by
  unfold save
  rw [bind_apply, askMemory_ok hslice]
  rfl

/-- A save makes the file and changes nothing else. -/
theorem save_new (hd : m.drive.Reliable) (hw : m.drive.volume.WellFormed)
    (h : m.drive.volume.Vacant typed p) (hslice : m.memory.slice address size = .ok data) :
    ∃ d stored, save typed address size m = .ok () { m with drive := d } ∧ d.Reliable ∧
      stored.key = p.key ∧ m.drive.volume.Grown [(stored, .ofList data)] d.volume := by
  obtain ⟨stored, handle, u, w, hopen, hwrite, hhas, hkey, hgrown⟩ := Volume.write_new hw h data
  have hopened := (hd.change .openFile _).trans (Drive.onVolume_ok hopen)
  have hwritten := ((hd.withVolume u).write handle data).trans (Drive.onVolume_ok hwrite)
  have hclose := (hd.withVolume w).closeFile_eq hhas
  let m₁ : Machine := { m with drive := { m.drive with volume := u } }
  let m₂ : Machine := { m with drive := { m.drive with volume := w } }
  have hput : put data handle m₁ = ofExcept (.ok ()) m₂ := by
    unfold put
    rw [bind_apply, drive_ok (m := m₁) hwritten]
    dsimp only
    rw [if_neg (Nat.lt_irrefl _)]
    rfl
  have hx := withFile_ok (m := m) (put data) hopened hput hclose
  rw [save_of_slice hslice]
  exact ⟨_, stored, hx, hd.withVolume _, hkey, hgrown.withFiles _ w.issued⟩

theorem save_outside (h : ¬ m.memory.Covers address size) (typed : Text) :
    save typed address size m = .error (.failed .invalidParameter) m := by
  have hslice : m.memory.slice address size = .error .invalidParameter := by
    unfold Memory.slice
    rw [Memory.offset?_of_not_covers h]
    rfl
  unfold save
  rw [bind_apply, askMemory_error hslice]

theorem openFile_existing {v : Volume} {found : Path × Node} (h : v.find typed = .ok found) :
    ∃ e, Volume.openFile typed Volume.forCopy v = .error e v := by
  have hopen := Volume.openFile_forCopy typed v
  cases hnew : v.newFile typed with
  | error e =>
    rw [hnew] at hopen
    exact ⟨e, hopen⟩
  | ok stored =>
    obtain ⟨p, hp, hn, _⟩ := Volume.newFile_ok hnew
    unfold Volume.find at h
    rw [hp] at h
    simp only [bind, Except.bind, hn] at h
    cases h

/-- Whatever faults are set, nothing is saved over what is there. -/
theorem save_existing {found : Path × Node} (h : m.drive.volume.find typed = .ok found)
    (address size : Nat) : ∃ e d, save typed address size m = .error (.failed e) { m with drive := d } ∧
      d.volume = m.drive.volume := by
  obtain ⟨e, hopen⟩ := openFile_existing h
  have hrefused : ∃ e, Drive.openFile typed Volume.forCopy m.drive =
      .error e (m.drive.ticked .openFile) := by
    obtain ⟨e, hx⟩ | hx := Drive.change_cases .openFile
      (Volume.openFile typed Volume.forCopy) m.drive
    · exact ⟨e, hx⟩
    · exact ⟨e, hx.trans (Drive.onVolume_error hopen)⟩
  obtain ⟨e, hrefused⟩ := hrefused
  cases hslice : m.memory.slice address size with
  | error e =>
    refine ⟨e, m.drive, ?_, rfl⟩
    unfold save
    rw [bind_apply, askMemory_error hslice]
  | ok data =>
    refine ⟨e, m.drive.ticked .openFile, ?_, rfl⟩
    rw [save_of_slice hslice]
    unfold withFile
    rw [bind_apply, drive_error hrefused]

end Saving

section Loading

theorem Filled.take {file : Bytes} {i n : Nat} {m' : Machine} (h : Filled file i 0 n m m') :
    Filled (.ofList (file.toList.take n)) i 0 n m m' := by
  refine ⟨h.rest, h.base, h.size, fun j => ?_⟩
  rw [h.cell]
  split
  · next hj =>
    rw [Bytes.byteAt_eq, Bytes.byteAt_eq, Bytes.toList_ofList, List.getElem?_take_of_lt (by omega)]
  · rfl

theorem Filled.laid_take {file : Bytes} {n : Nat} {m' : Machine}
    (h : Filled file (address - m.memory.base) 0 n m m') (ha : Admitted m address n)
    (hn : n ≤ file.size) : m.memory.Laid address (.ofList (file.toList.take n)) m'.memory := by
  have hsize : (Bytes.ofList (file.toList.take n)).size = n := by
    rw [Bytes.size_ofList, List.length_take, Bytes.length_toList, Nat.min_eq_left hn]
  have htaken := h.take
  generalize Bytes.ofList (file.toList.take n) = data at hsize htaken ⊢
  subst hsize
  exact htaken.laid ha

/-- A load lays in the first bytes of its file. -/
theorem load_laid (hd : m.drive.Reliable) {file : Bytes}
    (hread : m.drive.volume.readable typed = .ok file)
    (href : m.refusal? address (loadCount size file.size) = none) :
    ∃ m', load typed address size m = .ok (loadCount size file.size) m' ∧ m.drive.Alike m'.drive ∧
      m.memory.Laid address (.ofList (file.toList.take (loadCount size file.size))) m'.memory := by
  obtain ⟨m', hx, halike⟩ := load_unrefused hd address size hread href
  obtain ⟨n, _, hf, _, hok⟩ := load_spec typed address size m
  obtain ⟨rfl, hadm, _, _⟩ := hok _ _ hx
  have hfile := Volume.fileAt?_of_readable hread
  have hlen : m.drive.volume.loadLength typed size = loadCount size file.size := by
    unfold Volume.loadLength
    rw [hfile]
    rfl
  rw [after_ok hx, hfile, Option.getD_some] at hf
  rw [hlen] at hadm
  exact ⟨m', hx, halike, hf.laid_take hadm (loadCount_le size file.size)⟩

/-- Below the system area a load is not refused. -/
theorem refusal?_eq_none (hm : m.Mapped) {count : Nat}
    (hbase : m.settings.memory.ramStart ≤ address)
    (hsystem : address + count ≤ m.settings.memory.systemAddress) :
    m.refusal? address count = none := by
  have hover : m.settings.memory.overlapsSystem address count = false := by
    unfold MemoryMap.overlapsSystem
    rw [decide_eq_false (Nat.not_lt.mpr hsystem), Bool.and_false]
  have hcovers : m.memory.Covers address count := by
    have hlast := hm.valid.system_le
    refine ⟨?_, ?_⟩
    · rw [hm.spans.base]
      exact hbase
    · rw [hm.spans.base, hm.spans.size]
      omega
  unfold Machine.refusal?
  rw [hover, Memory.offset?_of_covers hcovers]
  rfl

end Loading

section Both

/-- What a save puts on the card, a load puts into RAM, all of it or the first `k` bytes; and no
other byte of RAM and no other file changes. A save from outside RAM or onto what is there fails,
and the card stays as it is. -/
theorem save_then_load (m : Machine) :
    (∀ label ops typed p a b n, m.Mapped → m.drive.Reliable →
      m.drive.volume = (Volume.labelled label).runAll ops → m.drive.volume.Vacant typed p →
      m.memory.Covers a n → m.settings.memory.ramStart ≤ b →
      b + n ≤ m.settings.memory.systemAddress →
      ∃ data m₁, m.memory.slice a n = .ok data ∧ data.length = n ∧
        save typed a n m = .ok () m₁ ∧ m₁.memory = m.memory ∧
        m.drive.volume.Holding p.key data m₁.drive.volume ∧
        ∀ k, ∃ m₂, load typed b k m₁ = .ok (loadCount k n) m₂ ∧
          m.memory.Laid b (.ofList (data.take (loadCount k n))) m₂.memory ∧
          m.drive.volume.Holding p.key data m₂.drive.volume) ∧
    (∀ typed a n, ¬ m.memory.Covers a n →
      save typed a n m = .error (.failed .invalidParameter) m) ∧
    ∀ typed a n found, m.drive.volume.find typed = .ok found →
      ∃ e d, save typed a n m = .error (.failed e) { m with drive := d } ∧
        d.volume = m.drive.volume := by
  refine ⟨fun label ops typed p a b n hm hd hv hvacant hcovers hbase hsystem => ?_,
    fun typed a n h => save_outside h typed, fun typed a n found h => save_existing h a n⟩
  obtain ⟨data, hslice, hlength⟩ := Memory.slice_of_covers hcovers
  obtain ⟨d, stored, hsave, hd', hkey, hgrown⟩ := save_new hd (.of_runAll hv) hvacant hslice
  let m₁ : Machine := { m with drive := d }
  have hholding : m.drive.volume.Holding p.key data d.volume := hkey ▸ hgrown.holding
  have hread : d.volume.readable typed = .ok (.ofList data) :=
    hgrown.readable hvacant.resolves hkey
  have hsize : (Bytes.ofList data).size = n := hlength
  refine ⟨data, m₁, hslice, hlength, hsave, rfl, hholding, fun k => ?_⟩
  have hm₁ : m₁.Mapped := ⟨hm.valid, hm.spans⟩
  have hle := loadCount_le k (Bytes.ofList data).size
  have href : m₁.refusal? b (loadCount k (Bytes.ofList data).size) = none := by
    refine refusal?_eq_none hm₁ hbase ?_
    rw [hsize] at hle ⊢
    exact Nat.le_trans (Nat.add_le_add_left hle b) hsystem
  obtain ⟨m₂, hload, halike, hlaid⟩ := load_laid (m := m₁) hd' hread href
  rw [hsize] at hload hlaid
  exact ⟨m₂, hload, hlaid, hholding.of_alike halike⟩

/-- Four bytes of RAM, and an empty card. -/
def fourInRam : Machine :=
  let m := Machine.boot {} (.labelled []) [] {} (.hosted 0 0) .absent
  { m with memory := m.memory.store 0 [1, 2, 3, 4] }

/-- The first three come back two places on, over the last two of them. -/
theorem save_then_load_overlapping : ∃ m₁ m₂,
    save "/a" 0x040000 4 fourInRam = .ok () m₁ ∧ load "/a" 0x040002 3 m₁ = .ok 3 m₂ ∧
    (List.range' 0x040000 6).map m₂.memory.byte? = [1, 2, 1, 2, 3, 0].map some ∧
    m₂.drive.volume.dataAt ["a"] = .ok (.ofList [1, 2, 3, 4]) := by
  have hm : fourInRam.Mapped := ⟨Settings.valid_default, rfl, rfl⟩
  have hd : fourInRam.drive.Reliable := ⟨rfl, by decide⟩
  have hvacant : fourInRam.drive.volume.Vacant "/a" ["a"] :=
    ⟨by decide +kernel, by decide +kernel, by decide +kernel⟩
  have hcovers : fourInRam.memory.Covers 0x040000 4 := ⟨by decide, by decide⟩
  obtain ⟨data, m₁, hslice, -, hsave, -, -, hload⟩ := (save_then_load fourInRam).1 [] [] "/a" ["a"]
    0x040000 0x040002 4 hm hd rfl hvacant hcovers (by decide) (by decide)
  have hdata : fourInRam.memory.slice 0x040000 4 = .ok [1, 2, 3, 4] := by decide +kernel
  cases hslice.symm.trans hdata
  obtain ⟨m₂, hx, hlaid, hholding⟩ := hload 3
  refine ⟨m₁, m₂, hsave, hx, ?_, hholding.file⟩
  rw [funext hlaid.byte]
  decide +kernel

end Both

end Shell

end CardShell
