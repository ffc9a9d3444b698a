import CardShell.Proofs.Loader.Bounds

/-!
Loading from a card whose driver never fails. What becomes of a load is then told by the volume, the
map and RAM alone, and a load that is refused leaves the next one the same chances.
-/

set_option autoImplicit false

namespace CardShell

namespace Drive

open CardShell.Action

variable {α : Type} {d d₁ d₂ : Drive}

/-- No fault is set, and no read is bound to give nothing. -/
structure Reliable (d : Drive) : Prop where
  faults : d.faults = []
  portions : 0 ∉ d.portions

/-- `d₂` is reliable, and paths lead to the same entries on it as on `d₁`. -/
structure Alike (d₁ d₂ : Drive) : Prop where
  reliable : d₂.Reliable
  root : d₂.volume.root = d₁.volume.root
  nodes : d₂.volume.nodes = d₁.volume.nodes
  directory : d₂.volume.directory = d₁.volume.directory

theorem Reliable.alike (h : d.Reliable) : d.Alike d := ⟨h, rfl, rfl, rfl⟩

theorem Alike.trans {d₃ : Drive} (h : d₁.Alike d₂) (h' : d₂.Alike d₃) : d₁.Alike d₃ :=
  ⟨h'.reliable, h'.root.trans h.root, h'.nodes.trans h.nodes, h'.directory.trans h.directory⟩

theorem Alike.node? (h : d₁.Alike d₂) (key : Path) : d₂.volume.node? key = d₁.volume.node? key := by
  unfold Volume.node?
  rw [h.root, h.nodes]

theorem Alike.readable (h : d₁.Alike d₂) (path : Text) :
    d₂.volume.readable path = d₁.volume.readable path := by
  have hfind : d₂.volume.find path = d₁.volume.find path := by
    unfold Volume.find Volume.resolve Volume.missing Volume.isDirectoryAt
    simp only [h.directory, h.node?]
  unfold Volume.readable
  rw [hfind]

theorem Reliable.withVolume (h : d.Reliable) (v : Volume) : Reliable { d with volume := v } :=
  ⟨h.faults, h.portions⟩

/-- Open files are not looked at. -/
theorem Reliable.withFiles (h : d.Reliable) (files : Table Nat OpenFile) (issued : Nat) :
    d.Alike { d with volume := { d.volume with files := files, issued := issued } } :=
  ⟨h.withVolume _, rfl, rfl, rfl⟩

theorem Reliable.change (h : d.Reliable) (p : Primitive) (x : VolumeAction α) :
    change p x d = onVolume x d := by
  unfold Drive.change
  rw [bind_apply, check_of_faultless h.faults]

theorem Reliable.fired (h : d.Reliable) (p : Primitive) : fired p d = .ok none d := by
  rw [fired_apply, ticked_of_faultless h.faults, h.faults]
  rfl

theorem Reliable.openFile (h : d.Reliable) (path : Text) :
    match d.volume.readable path with
    | .error e => openFile path .read d = .error e d
    | .ok data => ∃ handle d' key, openFile path .read d = .ok handle d' ∧
        d.Alike d' ∧ d'.volume.Reading handle key data 0 := by
  have hx := Volume.openFile_readable path d.volume
  unfold Drive.openFile
  rw [h.change]
  cases hr : d.volume.readable path with
  | error e =>
    rw [hr] at hx
    exact onVolume_error hx
  | ok data =>
    rw [hr] at hx
    obtain ⟨key, hd, hx⟩ := hx
    exact ⟨_, _, key, onVolume_ok hx, h.withFiles _ _, Volume.reading_withHandle hd⟩

theorem Reliable.after_closeFile (h : d.Reliable) (handle : Nat) :
    d.Alike ((closeFile handle).after d) := by
  rw [Drive.after_closeFile, ticked_of_faultless h.faults]
  exact h.withFiles _ _

theorem Reliable.closeFile_eq (h : d.Reliable) {handle : Nat}
    (hh : d.volume.files.has handle = true) : Drive.closeFile handle d =
      .ok () { d with volume := { d.volume with files := d.volume.files.erase handle } } := by
  unfold Drive.closeFile release
  rw [bind_apply, h.fired]
  simp only [bind_apply]
  unfold outcome
  rw [onVolume_ok (Volume.closeFile_ok hh)]
  rfl

theorem Reliable.closeFile (h : d.Reliable) {handle : Nat} (hh : d.volume.files.has handle = true) :
    ∃ d', closeFile handle d = .ok () d' ∧ d.Alike d' :=
  ⟨_, h.closeFile_eq hh, h.withFiles _ _⟩

/-- A read asks the volume for some bytes at least, if it is asked for any. -/
theorem Reliable.read_eq (h : d.Reliable) (handle : Nat) {count : Nat} (hc : count ≠ 0) :
    ∃ part d', part ≠ 0 ∧ part ≤ count ∧
      Drive.read handle count d = onVolume (Volume.read handle part) d' ∧
      d'.Reliable ∧ d'.volume = d.volume := by
  have hpart : min count (d.portions.headD count) ≠ 0 := by
    have hportions := h.portions
    cases hp : d.portions with
    | nil =>
      rw [List.headD_nil]
      omega
    | cons n rest =>
      rw [hp, List.mem_cons, not_or] at hportions
      rw [List.headD_cons]
      omega
  refine ⟨_, { d with portions := d.portions.tail }, hpart, Nat.min_le_left _ _, ?_,
    ⟨h.faults, fun hp => h.portions (List.mem_of_mem_tail hp)⟩, rfl⟩
  unfold Drive.read
  rw [bind_apply, check_of_faultless h.faults]
  simp only
  rw [bind_apply, h.fired]
  rfl

/-- A read gives some of the bytes that come next, and at least one if there is one left. -/
theorem Reliable.read (h : d.Reliable) {handle count done : Nat} {key : Path} {data : Bytes}
    (hr : d.volume.Reading handle key data done) (hc : count ≠ 0) :
    ∃ part d', part ≠ 0 ∧ part ≤ count ∧ read handle count d = .ok (data.slice done part) d' ∧
      d.Alike d' ∧ d'.volume.Reading handle key data (done + (data.slice done part).length) := by
  obtain ⟨part, d', hpart, hle, hx, hd', hvolume⟩ := h.read_eq handle hc
  rw [← hvolume] at hr
  obtain ⟨hread, hreading⟩ := Volume.read_reading hr part
  rw [onVolume_ok hread] at hx
  refine ⟨part, _, hpart, hle, hx, ?_, hreading⟩
  unfold Volume.updateFile
  rw [Volume.openFile?_ok hr.file]
  have hroot : d'.volume.root = d.volume.root := congrArg Volume.root hvolume
  have hnodes : d'.volume.nodes = d.volume.nodes := congrArg Volume.nodes hvolume
  have hdirectory : d'.volume.directory = d.volume.directory := congrArg Volume.directory hvolume
  exact ⟨⟨hd'.faults, hd'.portions⟩, hroot, hnodes, hdirectory⟩

theorem Reliable.write (h : d.Reliable) (handle : Nat) (bytes : List UInt8) :
    Drive.write handle bytes d = onVolume (Volume.write handle bytes) d := by
  unfold Drive.write
  rw [bind_apply, check_of_faultless h.faults]
  simp only
  rw [bind_apply, h.fired]
  rfl

end Drive

namespace Machine

/-- Why `size` bytes are not loaded at an address. -/
def refusal? (m : Machine) (address size : Nat) : Option Error :=
  if m.settings.memory.overlapsSystem address size then some .overlappingSystem
  else match m.memory.offset? address size with
    | .error e => some e
    | .ok _ => none

/-- What becomes of an attempt to load a whole file: its bytes, or why they are not loaded. -/
def verdict (m : Machine) (path : Text) (address : Nat) : Except Error Bytes :=
  match m.drive.volume.readable path with
  | .error e => .error e
  | .ok data => match m.refusal? address data.size with
    | some e => .error e
    | none => .ok data

end Machine

namespace Shell

open CardShell.Action

variable {m : Machine} {data : Bytes} {h i count : Nat} {key : Path}

/-- The loop of a load comes to its end. -/
theorem fill_of_reliable (fuel done : Nat) (m : Machine) (hd : m.drive.Reliable)
    (hr : m.drive.volume.Reading h key data done) (hcount : count ≤ data.size) (hdone : done ≤ count)
    (hfuel : count ≤ fuel + done) :
    ∃ m', fill h i count fuel done m = .ok count m' ∧ m.drive.Alike m'.drive ∧
      m'.drive.volume.files.has h = true := by
  have hopen : m.drive.volume.files.has h = true := by
    rw [Table.has, Volume.openFile?_ok hr.file]
    rfl
  induction fuel generalizing done m with
  | zero =>
    have hend : done = count := by omega
    subst hend
    exact ⟨m, rfl, hd.alike, hopen⟩
  | succ fuel ih =>
    by_cases hc : count ≤ done
    · have hend : done = count := by omega
      subst hend
      refine ⟨m, ?_, hd.alike, hopen⟩
      rw [fill, if_pos hc]
      rfl
    · have hleft : count - done ≠ 0 := by omega
      obtain ⟨part, d, hpart, hle, hx, halike, hr'⟩ := hd.read hr hleft
      have hlen := data.length_slice done part
      have hne : data.slice done part ≠ [] := by
        intro hnil
        rw [hnil, List.length_nil] at hlen
        omega
      have hpos := List.length_pos_iff.mpr hne
      let m₁ : Machine :=
        { m with drive := d, memory := m.memory.store (i + done) (data.slice done part) }
      have hgo : fill h i count (fuel + 1) done m =
          fill h i count fuel (done + (data.slice done part).length) m₁ := by
        rw [fill, if_neg hc, bind_apply, drive_ok hx]
        simp only
        rw [if_neg hne, bind_apply, modify_apply]
      have hopen₁ : m₁.drive.volume.files.has h = true := by
        rw [Table.has, Volume.openFile?_ok hr'.file]
        rfl
      obtain ⟨m', hx', halike', hopen'⟩ := ih (done + (data.slice done part).length) m₁
        halike.reliable hr' (by omega) (by omega) hopen₁
      exact ⟨m', hgo.trans hx', halike.trans halike', hopen'⟩

/-- How much of a file of `length` bytes a load of at most `size` is to load. -/
def loadCount (size length : Nat) : Nat := if size = 0 then length else min length size

theorem loadCount_le (size length : Nat) : loadCount size length ≤ length := by
  unfold loadCount
  split
  · exact Nat.le_refl _
  · exact Nat.min_le_left _ _

theorem loadFrom_of_reliable (hd : m.drive.Reliable) (hr : m.drive.volume.Reading h key data 0)
    (address size : Nat) :
    loadFrom address size h m = match m.refusal? address (loadCount size data.size) with
      | some e => .error (.failed e) m
      | none => fill h (address - m.memory.base) (loadCount size data.size)
          (loadCount size data.size) 0 m := by
  have hsize : Drive.fileSize h m.drive = .ok data.size m.drive :=
    Drive.ask_of_faultless .fileSize hd.faults (Volume.fileSize_reading hr)
  unfold loadFrom Machine.refusal?
  rw [bind_apply, drive_ok hsize]
  dsimp only
  rw [bind_apply, get_apply, ← loadCount]
  dsimp only
  by_cases ho : m.settings.memory.overlapsSystem address (loadCount size data.size) = true
  · rw [if_pos ho, if_pos ho]
    rfl
  · rw [if_neg ho, if_neg ho]
    cases hi : m.memory.offset? address (loadCount size data.size) with
    | error e =>
      simp only
      rw [bind_apply, askMemory_error hi]
    | ok i =>
      obtain ⟨_, _, rfl⟩ := offset?_ok hi
      simp only
      rw [bind_apply, askMemory_ok hi]

/-- A load of a file that can be read, where nothing speaks against its range, loads all of it. -/
theorem load_unrefused (hd : m.drive.Reliable) {path : Text} (address size : Nat)
    (hread : m.drive.volume.readable path = .ok data)
    (href : m.refusal? address (loadCount size data.size) = none) :
    ∃ m', load path address size m = .ok (loadCount size data.size) m' ∧
      m.drive.Alike m'.drive := by
  have hopen := hd.openFile path
  rw [hread] at hopen
  obtain ⟨h, d, key, ho, halike, hr⟩ := hopen
  let m₁ : Machine := { m with drive := d }
  have hfrom := loadFrom_of_reliable (m := m₁) halike.reliable hr address size
  rw [show m₁.refusal? address _ = none from href] at hfrom
  obtain ⟨m', hx, halike', hh⟩ := fill_of_reliable (i := address - m₁.memory.base) _ 0 m₁
    halike.reliable hr (loadCount_le size data.size) (Nat.zero_le _) (Nat.le_refl _)
  obtain ⟨d', hc, hclosed⟩ := halike'.reliable.closeFile hh
  refine ⟨{ m' with drive := d' }, ?_, halike.trans (halike'.trans hclosed)⟩
  rw [load_eq]
  unfold withFile
  rw [bind_apply, drive_ok ho]
  exact closing_ok (hfrom.trans hx) (drive_ok hc)

/-- A load from a reliable card ends as the verdict says, and the next one finds the card alike. -/
theorem load_of_reliable (hd : m.drive.Reliable) (path : Text) (address : Nat) :
    match m.verdict path address with
    | .error e => ∃ d, m.drive.Alike d ∧ load path address 0 m = .error (.failed e) { m with drive := d }
    | .ok data => ∃ m', load path address 0 m = .ok data.size m' ∧ m.drive.Alike m'.drive := by
  have hopen := hd.openFile path
  unfold Machine.verdict
  cases hread : m.drive.volume.readable path with
  | error e =>
    rw [hread] at hopen
    refine ⟨m.drive, hd.alike, ?_⟩
    rw [load_eq]
    unfold withFile
    rw [bind_apply, drive_error hopen]
  | ok data =>
    dsimp only
    cases href : m.refusal? address data.size with
    | none => exact load_unrefused hd address 0 hread href
    | some e =>
      rw [hread] at hopen
      obtain ⟨h, d, key, ho, halike, hr⟩ := hopen
      let m₁ : Machine := { m with drive := d }
      have hfrom := loadFrom_of_reliable (m := m₁) halike.reliable hr address 0
      rw [show m₁.refusal? address (loadCount 0 data.size) = some e from href] at hfrom
      refine ⟨(Drive.closeFile h).after d, halike.trans (halike.reliable.after_closeFile h), ?_⟩
      rw [load_eq]
      unfold withFile
      rw [bind_apply, drive_ok ho]
      simp only
      rw [closing_error hfrom, after_drive]

end Shell

end CardShell
