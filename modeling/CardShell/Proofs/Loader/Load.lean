import CardShell.Loader
import CardShell.Proofs.Machine

/-!
Loading. The bytes that a load puts into RAM are the first of the file, they lie between its
address and the end of what it may load, and none of them lies in the system area.
-/

set_option autoImplicit false

namespace CardShell

namespace Volume

def fileAt? (v : Volume) (typed : Text) : Option Bytes :=
  match v.find typed with
  | .ok (_, n) => n.data?
  | .error _ => none

/-- The file that can be opened for reading at a path, or why there is none. -/
def readable (v : Volume) (typed : Text) : Except Error Bytes :=
  match v.find typed with
  | .ok (_, n) => match n.data? with
    | some data => .ok data
    | none => .error .denied
  | .error e => .error e

/-- How many bytes a load of at most `size` is to load; 0 stands for no bound. -/
def loadLength (v : Volume) (typed : Text) (size : Nat) : Nat :=
  let length := ((v.fileAt? typed).map Bytes.size).getD 0
  if size = 0 then length else min length size

/-- A handle from which the file `data` is read, `done` bytes of it so far. -/
structure Reading (v : Volume) (h : Nat) (key : Path) (data : Bytes) (done : Nat) : Prop where
  file : v.openFile? h = .ok ⟨key, done, .read⟩
  data : v.dataAt key = .ok data

variable {v w : Volume} {h : Nat} {key : Path} {data : Bytes} {done : Nat}

theorem fileAt?_of_readable {typed : Text} (h : v.readable typed = .ok data) :
    v.fileAt? typed = some data := by
  unfold readable at h
  unfold fileAt?
  cases hf : v.find typed with
  | error e =>
    rw [hf] at h
    cases h
  | ok found =>
    rw [hf] at h
    simp only at h ⊢
    cases hd : found.2.data? with
    | none =>
      rw [hd] at h
      cases h
    | some data' =>
      rw [hd] at h
      cases h
      rfl

theorem prepare_read (v : Volume) (p : Path) :
    v.prepare p .read = match v.node? p.key with
      | some n => if n.isDirectory then .error .denied else .ok v
      | none => .error (v.missing p) := by
  unfold prepare
  cases v.node? p.key with
  | none => rfl
  | some n => rfl

/-- A file that can be read is opened under the next handle, and nothing else is. -/
theorem openFile_readable (typed : Text) (v : Volume) :
    match v.readable typed with
    | .error e => openFile typed .read v = .error e v
    | .ok data => ∃ key, v.dataAt key = .ok data ∧
        openFile typed .read v = .ok v.nextHandle (v.withHandle ⟨key, 0, .read⟩) := by
  unfold readable find
  cases hp : v.resolve typed with
  | error e => exact openFile_unresolved .read hp
  | ok p =>
    have hprep := prepare_read v p
    simp only [bind, Except.bind]
    cases hn : v.node? p.key with
    | none =>
      rw [hn] at hprep
      exact openFile_unprepared hp hprep
    | some n =>
      rw [hn] at hprep
      simp only [pure, Except.pure]
      unfold Node.data?
      cases hc : n.content with
      | directory =>
        have hdir : n.isDirectory = true := by
          rw [Node.isDirectory, hc]
          rfl
        simp only [hdir, if_true] at hprep
        exact openFile_unprepared hp hprep
      | file data =>
        have hdir : n.isDirectory = false := by
          rw [Node.isDirectory, hc]
          rfl
        simp only [hdir, Bool.false_eq_true, if_false] at hprep
        refine ⟨p.key, ?_, ?_⟩
        · unfold dataAt
          rw [hn, Option.bind_some, Node.data?, hc]
        · rcases openFile_prepared hp hprep with ⟨e, ha, _⟩ | ⟨position, hposition, hx⟩
          · exact absurd ha (by decide)
          · rw [hx, hposition (by decide)]

theorem reading_withHandle (hd : v.dataAt key = .ok data) :
    (v.withHandle ⟨key, 0, .read⟩).Reading v.nextHandle key data 0 :=
  ⟨openFile?_of_get? (Table.get?_set_self _ _ _), hd⟩

theorem openFile_read {typed : Text} (ho : openFile typed .read v = .ok h w) :
    ∃ key data, v.fileAt? typed = some data ∧ w.Reading h key data 0 := by
  have hx := openFile_readable typed v
  cases hr : v.readable typed with
  | error e =>
    rw [hr] at hx
    simp only [ho] at hx
    cases hx
  | ok data =>
    rw [hr] at hx
    obtain ⟨key, hd, hx⟩ := hx
    rw [ho] at hx
    cases hx
    exact ⟨key, data, fileAt?_of_readable hr, reading_withHandle hd⟩

theorem fileSize_reading (hr : v.Reading h key data done) : v.fileSize h = .ok data.size := by
  unfold fileSize
  rw [hr.file]
  simp only [bind, Except.bind, hr.data]
  rfl

/-- A read gives the bytes that come next, and moves the handle behind them. -/
theorem read_reading (hr : v.Reading h key data done) (count : Nat) :
    let w := v.updateFile h fun g =>
      { g with position := g.position + (data.slice done count).length }
    read h count v = .ok (data.slice done count) w ∧
      w.Reading h key data (done + (data.slice done count).length) := by
  have hget := openFile?_ok hr.file
  have hmode : OpenMode.read.contains .read = true := by decide
  refine ⟨read_ok count hr.file hmode hr.data, ?_, ?_⟩
  · unfold updateFile
    rw [hget]
    exact openFile?_of_get? (Table.get?_set_self _ _ _)
  · unfold updateFile
    rw [hget]
    exact hr.data

end Volume

/-- The bytes that follow in a file, one by one. -/
theorem Bytes.getElem?_slice (b : Bytes) (start count k : Nat) :
    ((b.slice start count)[k]?).getD 0 = if k < count then b.byteAt (start + k) else 0 := by
  rw [slice_eq, byteAt_eq, List.getElem?_take]
  split
  · rw [List.getElem?_drop]
  · rfl

theorem Bytes.length_slice (b : Bytes) (start count : Nat) :
    (b.slice start count).length = min count (b.size - start) := by
  rw [slice_eq, List.length_take, List.length_drop, length_toList]

namespace Drive

variable {d : Drive} {h : Nat} {key : Path} {data : Bytes} {done : Nat}

/-- A read of a file: it fails, or gives the bytes that come next; if it gives none of those left,
that was bound to happen. -/
theorem read_reading (hr : d.volume.Reading h key data done) {count : Nat} (hc : count ≠ 0) :
    (∃ e d', read h count d = .error e d' ∧ d'.blanks ≤ d.blanks) ∨
    ∃ part d', part ≤ count ∧ read h count d = .ok (data.slice done part) d' ∧
      d'.volume.Reading h key data (done + (data.slice done part).length) ∧
      d'.blanks ≤ d.blanks ∧ (part = 0 → d'.blanks < d.blanks) := by
  rcases read_cases h count d with ⟨e, hx⟩ | ⟨hx, hb⟩ | ⟨part, hp, hzero, hb, hx⟩
  · exact Or.inl ⟨e, _, hx, Nat.le_of_eq (blanks_ticked (by decide) d)⟩
  · have hnone : data.slice done 0 = [] := by
      rw [Bytes.slice_eq, List.take_zero]
    refine Or.inr ⟨0, _, Nat.zero_le _, by rw [hnone]; exact hx, ?_, Nat.le_of_lt hb, fun _ => hb⟩
    rw [hnone]
    exact hr
  · obtain ⟨hw, hr'⟩ := Volume.read_reading (v := d.dealt.volume) hr part
    rw [onVolume_ok hw] at hx
    exact Or.inr ⟨part, _, hp, hx, hr', hb, hzero hc⟩

theorem openFile_read_ok {path : Text} {d' : Drive} (ho : openFile path .read d = .ok h d') :
    ∃ key data, d.volume.fileAt? path = some data ∧ d'.volume.Reading h key data 0 ∧
      d'.blanks = d.blanks ∧ d'.waiting .fileSize = d.waiting .fileSize := by
  rcases change_cases .openFile (Volume.openFile path .read) d with ⟨e, hx⟩ | hx
  · rw [openFile, hx] at ho
    cases ho
  · rw [openFile, hx] at ho
    cases hv : Volume.openFile path .read (d.ticked .openFile).volume with
    | error e w =>
      rw [onVolume_error hv] at ho
      cases ho
    | ok h' w =>
      rw [onVolume_ok hv] at ho
      cases ho
      obtain ⟨key, data, hf, hr⟩ := Volume.openFile_read hv
      exact ⟨key, data, hf, hr, blanks_ticked (by decide) d, waiting_ticked_of_ne (by decide) d⟩

end Drive

namespace Shell

open CardShell.Action

/-- Only the card and RAM differ, and the RAM of `m'` is that of `m` with bytes `start` to `stop` of
`data` in their places from offset `i` on. -/
structure Filled (data : Bytes) (i start stop : Nat) (m m' : Machine) : Prop where
  rest : ∃ d x, m' = { m with drive := d, memory := x }
  base : m'.memory.base = m.memory.base
  size : m'.memory.size = m.memory.size
  cell : ∀ j, m'.memory.cell j =
    if i + start ≤ j ∧ j < i + stop then data.byteAt (j - i) else m.memory.cell j

variable {data : Bytes} {h i count start mid stop : Nat} {key : Path} {m m' m₁ m₂ : Machine}

theorem Filled.settings (h : Filled data i start stop m m') : m'.settings = m.settings := by
  obtain ⟨d, x, rfl⟩ := h.rest
  rfl

theorem Filled.executor (h : Filled data i start stop m m') : m'.executor = m.executor := by
  obtain ⟨d, x, rfl⟩ := h.rest
  rfl

theorem filled_drive (m : Machine) (d : Drive) :
    Filled data i start start m { m with drive := d } := by
  refine ⟨⟨d, m.memory, rfl⟩, rfl, rfl, fun j => ?_⟩
  rw [if_neg (by omega)]

theorem Filled.withDrive (h : Filled data i start stop m m') (d : Drive) :
    Filled data i start stop m { m' with drive := d } := by
  refine ⟨?_, h.base, h.size, h.cell⟩
  obtain ⟨_, x, rfl⟩ := h.rest
  exact ⟨d, x, rfl⟩

theorem Filled.trans (hle : start ≤ mid) (hle' : mid ≤ stop) (h₁ : Filled data i start mid m m₁)
    (h₂ : Filled data i mid stop m₁ m₂) : Filled data i start stop m m₂ := by
  refine ⟨?_, by rw [h₂.base, h₁.base], by rw [h₂.size, h₁.size], fun j => ?_⟩
  · obtain ⟨_, _, rfl⟩ := h₁.rest
    obtain ⟨d, x, rfl⟩ := h₂.rest
    exact ⟨d, x, rfl⟩
  · rw [h₂.cell, h₁.cell]
    by_cases hlow : i + start ≤ j
    · by_cases hmid : j < i + mid
      · rw [if_neg (by omega), if_pos ⟨hlow, hmid⟩, if_pos (by omega)]
      · by_cases hhigh : j < i + stop
        · rw [if_pos (by omega), if_pos ⟨hlow, hhigh⟩]
        · rw [if_neg (by omega), if_neg (by omega), if_neg (by omega)]
    · rw [if_neg (by omega), if_neg (by omega), if_neg (by omega)]

/-- Storing the bytes of a file that come next. -/
theorem filled_store (m : Machine) (d : Drive) (done part : Nat) :
    Filled data i done (done + (data.slice done part).length) m
      { m with drive := d, memory := m.memory.store (i + done) (data.slice done part) } := by
  refine ⟨⟨_, _, rfl⟩, rfl, rfl, fun j => ?_⟩
  have hlen := data.length_slice done part
  unfold Memory.cell Memory.store
  simp only
  rw [Bytes.byteAt_splice]
  by_cases hj : i + done ≤ j ∧ j < i + done + (data.slice done part).length
  · rw [if_pos hj, if_pos (by omega), Bytes.getElem?_slice, if_pos (by omega)]
    congr 1
    omega
  · rw [if_neg hj, if_neg (by omega)]

/-- The loop of a load. It puts the bytes from `done` to some `n` in place; it returns `n`, and falls
short of `count` only if a read that was bound to give nothing is used up. -/
theorem fill_spec (fuel done : Nat) (m : Machine) (hr : m.drive.volume.Reading h key data done)
    (hcount : count ≤ data.size) (hdone : done ≤ count) (hfuel : count ≤ fuel + done) :
    ∃ n, done ≤ n ∧ n ≤ count ∧ Filled data i done n m ((fill h i count fuel done).after m) ∧
      ((fill h i count fuel done).after m).drive.blanks ≤ m.drive.blanks ∧
      ∀ r m', fill h i count fuel done m = .ok r m' →
        r = n ∧ (n < count → m'.drive.blanks < m.drive.blanks) := by
  induction fuel generalizing done m with
  | zero =>
    refine ⟨done, Nat.le_refl _, hdone, filled_drive m m.drive, Nat.le_refl _, fun r m' hx => ?_⟩
    cases hx
    exact ⟨rfl, by omega⟩
  | succ fuel ih =>
    by_cases hc : count ≤ done
    · have hx : fill h i count (fuel + 1) done m = .ok done m := by
        rw [fill, if_pos hc]
        rfl
      rw [after_ok hx]
      refine ⟨done, Nat.le_refl _, hdone, filled_drive m _, Nat.le_refl _, fun r m' hx' => ?_⟩
      rw [hx] at hx'
      cases hx'
      exact ⟨rfl, by omega⟩
    · have hne : count - done ≠ 0 := by omega
      rcases Drive.read_reading hr hne with
        ⟨e, d, hx, hb⟩ | ⟨part, d, hpart, hx, hr', hb, hzero⟩
      · have hfail : fill h i count (fuel + 1) done m = .error (.failed e) { m with drive := d } := by
          rw [fill, if_neg hc, bind_apply, drive_error hx]
        rw [after_error hfail]
        refine ⟨done, Nat.le_refl _, hdone, filled_drive m _, hb, fun r m' hx' => ?_⟩
        rw [hfail] at hx'
        cases hx'
      · have hlen := data.length_slice done part
        by_cases hnil : data.slice done part = []
        · have hend : fill h i count (fuel + 1) done m = .ok done { m with drive := d } := by
            rw [fill, if_neg hc, bind_apply, drive_ok hx]
            simp only
            rw [if_pos hnil]
            rfl
          rw [after_ok hend]
          refine ⟨done, Nat.le_refl _, hdone, filled_drive m _, hb, fun r m' hx' => ?_⟩
          rw [hend] at hx'
          cases hx'
          rw [hnil, List.length_nil] at hlen
          exact ⟨rfl, fun _ => hzero (by omega)⟩
        · have hpos := List.length_pos_iff.mpr hnil
          let m₁ : Machine :=
            { m with drive := d, memory := m.memory.store (i + done) (data.slice done part) }
          have hgo : fill h i count (fuel + 1) done m =
              fill h i count fuel (done + (data.slice done part).length) m₁ := by
            rw [fill, if_neg hc, bind_apply, drive_ok hx]
            simp only
            rw [if_neg hnil, bind_apply, modify_apply]
          obtain ⟨n, hle, hn, hf, hb', hok⟩ := ih (done + (data.slice done part).length) m₁ hr'
            (by omega) (by omega)
          rw [after_congr hgo, hgo]
          refine ⟨n, by omega, hn, (filled_store m d done part).trans (by omega) hle hf,
            Nat.le_trans hb' hb, fun r m' hx' => ?_⟩
          obtain ⟨hrn, hshort⟩ := hok r m' hx'
          exact ⟨hrn, fun hlt => Nat.lt_of_lt_of_le (hshort hlt) hb⟩

theorem after_closeFile (h : Nat) (m : Machine) :
    ∃ d, (drive (Drive.closeFile h)).after m = { m with drive := d } ∧
      d.blanks = m.drive.blanks := by
  refine ⟨_, after_drive _ m, ?_⟩
  unfold Drive.closeFile
  rw [Drive.after_release]
  exact Drive.blanks_ticked (by decide) m.drive

/-- What a load does with the opened file. -/
def loadFrom (address size h : Nat) : Shell Nat := do
  let fileSize ← drive (Drive.fileSize h)
  let count := if size = 0 then fileSize else min fileSize size
  if (← get).settings.memory.overlapsSystem address count then fail .overlappingSystem
  let i ← askMemory fun m => m.offset? address count
  fill h i count count 0

theorem load_eq (path : Text) (address size : Nat) :
    load path address size = withFile path .read (loadFrom address size) := rfl

theorem offset?_ok {m : Memory} {address count i : Nat} (h : m.offset? address count = .ok i) :
    m.base ≤ address ∧ address + count ≤ m.base + m.size ∧ i = address - m.base := by
  unfold Memory.offset? at h
  split at h
  · cases h
  · cases h
    omega

/-- What must hold before a load of `count` bytes writes any of them. -/
structure Admitted (m : Machine) (address count : Nat) : Prop where
  base_le : m.memory.base ≤ address
  le_end : address + count ≤ m.memory.base + m.memory.size
  free : m.settings.memory.overlapsSystem address count = false

/-- Either a load stops before the first byte, with RAM as it was, or its range is admitted and
the loop runs. -/
theorem loadFrom_cases (address size : Nat) {m : Machine}
    (hr : m.drive.volume.Reading h key data 0) :
    let count := if size = 0 then data.size else min data.size size
    (∃ e d, loadFrom address size h m = .error (.failed e) { m with drive := d } ∧
      d.blanks = m.drive.blanks ∧
      (m.drive.waiting .fileSize = 0 →
        m.settings.memory.overlapsSystem address count = true → e = .overlappingSystem)) ∨
    ∃ d, Admitted m address count ∧ d.volume = m.drive.volume ∧ d.blanks = m.drive.blanks ∧
      loadFrom address size h m =
        fill h (address - m.memory.base) count count 0 { m with drive := d } := by
  intro count
  unfold loadFrom
  rw [bind_apply]
  have hblanks := Drive.blanks_ticked (p := .fileSize) (by decide) m.drive
  rcases Drive.ask_cases .fileSize (fun v => v.fileSize h) m.drive with ⟨e, hx⟩ | ⟨n, hn, hx⟩
  · refine Or.inl ⟨e, _, by rw [Drive.fileSize, drive_error hx], hblanks, fun hw _ => ?_⟩
    exfalso
    unfold Drive.ask at hx
    rw [bind_apply, Drive.check_of_waiting hw] at hx
    simp only at hx
    rw [Drive.onVolume_ok (query_ok (Volume.fileSize_reading hr))] at hx
    cases hx
  · rw [Volume.fileSize_reading hr] at hn
    cases hn
    rw [Drive.fileSize, drive_ok hx]
    simp only
    rw [bind_apply, get_apply]
    simp only
    by_cases ho : m.settings.memory.overlapsSystem address count = true
    · rw [if_pos ho]
      exact Or.inl ⟨.overlappingSystem, _, rfl, hblanks, fun _ _ => rfl⟩
    · rw [if_neg ho]
      cases hi : m.memory.offset? address count with
      | error e =>
        refine Or.inl ⟨e, m.drive.ticked .fileSize, ?_, hblanks, fun _ h => absurd h ho⟩
        rw [bind_apply, askMemory_error (m := { m with drive := m.drive.ticked .fileSize }) hi]
      | ok i =>
        obtain ⟨hbase, hend, rfl⟩ := offset?_ok hi
        refine Or.inr ⟨m.drive.ticked .fileSize, ⟨hbase, hend, by simpa using ho⟩, rfl, hblanks, ?_⟩
        rw [bind_apply, askMemory_ok (m := { m with drive := m.drive.ticked .fileSize }) hi]

/-- A load puts some `n` bytes of the file in place and changes nothing else in RAM. It writes only
where its whole range is admitted, and returns `n`, which falls short of the range only if a read
that was bound to give nothing is used up. -/
theorem load_spec (path : Text) (address size : Nat) (m : Machine) :
    let count := m.drive.volume.loadLength path size
    let data := (m.drive.volume.fileAt? path).getD (.ofList [])
    ∃ n, n ≤ count ∧
      Filled data (address - m.memory.base) 0 n m ((load path address size).after m) ∧
      (0 < n → Admitted m address count) ∧
      ∀ r m', load path address size m = .ok r m' →
        r = n ∧ Admitted m address count ∧ m.drive.volume.fileAt? path = some data ∧
          (n < count → m'.drive.blanks < m.drive.blanks) := by
  intro count data
  rcases withFile_cases path .read (loadFrom address size) m with ⟨e, d, _, hx⟩ | ⟨h, d, ho, hx⟩
  · rw [load_eq, after_error hx, hx]
    refine ⟨0, Nat.zero_le _, filled_drive m _, fun h => absurd h (by omega), fun r m' h => ?_⟩
    cases h
  · obtain ⟨key, file, hfile, hr, hb, _⟩ := Drive.openFile_read_ok ho
    have hdata : data = file := by
      simp only [data, hfile, Option.getD_some]
    have hcount : count = if size = 0 then file.size else min file.size size := by
      simp only [count, Volume.loadLength, hfile, Option.map_some, Option.getD_some]
    obtain ⟨dc, hclose, hbc⟩ := after_closeFile h ((loadFrom address size h).after { m with drive := d })
    have hafter : (load path address size).after m =
        { (loadFrom address size h).after { m with drive := d } with drive := dc } := by
      rw [load_eq, Action.after, hx, ← hclose, ← after_closing]
      rfl
    rw [hafter, load_eq, hx, hdata]
    rcases loadFrom_cases address size (m := { m with drive := d }) hr with
      ⟨e, d', hl, _⟩ | ⟨d', hadm, hv, hb', hl⟩
    · rw [after_error hl]
      refine ⟨0, Nat.zero_le _, filled_drive m _, fun h => absurd h (by omega), fun r m' h => ?_⟩
      rw [closing_error hl] at h
      cases h
    · rw [← hcount] at hadm hl
      have hle : count ≤ file.size := by
        rw [hcount]
        split <;> omega
      obtain ⟨n, _, hn, hf, _, hok⟩ := fill_spec (i := address - m.memory.base) count 0
        { m with drive := d' } (hv ▸ hr) hle (Nat.zero_le _) (Nat.le_refl _)
      rw [after_congr hl]
      have hfill := (filled_drive m d').trans (Nat.zero_le _) (Nat.zero_le n) hf
      refine ⟨n, hn, hfill.withDrive dc, fun _ => ⟨hadm.1, hadm.2, hadm.3⟩, fun r m' h => ?_⟩
      obtain ⟨t, ht, hc⟩ := closing_ok_inv h
      rw [hl] at ht
      obtain ⟨hrn, hshort⟩ := hok r t ht
      obtain ⟨dt, hct, hbt⟩ := after_closeFile _ t
      rw [after_ok hc] at hct
      refine ⟨hrn, ⟨hadm.1, hadm.2, hadm.3⟩, hfile, fun hlt => ?_⟩
      rw [hct]
      simp only
      rw [hbt, ← hb, ← hb']
      exact hshort hlt

/-- Running an image concerns the executor alone. -/
theorem keeps_runImage {P : Machine → Prop} (hP : ∀ m x, P m → P { m with executor := x })
    (address : Nat) (params : Text) : Keeps P (runImage address params) := by
  refine keeps_bind (keeps_askMemory _) fun count => keeps_bind keeps_get fun m => ?_
  cases ExecMode.detect (m.memory.tail? address count) with
  | none => exact keeps_fail _
  | some mode =>
    refine keeps_bind (keeps_zoom _ fun m hm => hP m _ hm) fun status => ?_
    cases Error.ofCode? status with
    | some e => exact keeps_fail _
    | none => exact keeps_pure _

end Shell

end CardShell
