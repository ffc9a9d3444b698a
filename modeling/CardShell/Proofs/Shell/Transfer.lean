import CardShell.Proofs.FileTable
import CardShell.Proofs.Shell.Saved

/-!
Files written and read by programs, byte by byte and in blocks of RAM. Where the cuts are makes no
difference: what is written through the number of a new file is the file, and what is read through
the number of a file is the file from the position on. Both hold for files that have a number; the
257th that is open has that of the first.
-/

set_option autoImplicit false

namespace CardShell

open CardShell.Action

/-- The driver fails no call, and a read gives all it can. -/
structure Drive.Prompt (d : Drive) : Prop where
  faults : d.faults = []
  portions : d.portions = []

namespace Drive

variable {d : Drive}

theorem Prompt.reliable (h : d.Prompt) : d.Reliable := by
  refine ⟨h.faults, ?_⟩
  rw [h.portions]
  exact List.not_mem_nil

theorem Prompt.withVolume (h : d.Prompt) (v : Volume) : Prompt { d with volume := v } :=
  ⟨h.faults, h.portions⟩

theorem Prompt.read (h : d.Prompt) (handle count : Nat) :
    Drive.read handle count d = onVolume (Volume.read handle count) d := by
  have hportion : portion count d = .ok count d := by
    unfold portion
    rw [modifyGet_apply, h.portions, List.headD_nil, Nat.min_self, List.tail_nil, ← h.portions]
  unfold Drive.read
  rw [bind_apply, check_of_faultless h.faults]
  dsimp only
  rw [bind_apply, h.reliable.fired]
  simp only [Option.isSome_none, Bool.false_eq_true, if_false]
  rw [bind_apply, hportion]

theorem Prompt.openFile {path : Text} {mode : OpenMode} {handle : Nat} {d' : Drive} (h : d.Prompt)
    (hopen : Drive.openFile path mode d = .ok handle d') :
    ∃ w, Volume.openFile path mode d.volume = .ok handle w ∧ d' = { d with volume := w } := by
  have hx : Drive.openFile path mode d = onVolume (Volume.openFile path mode) d :=
    change_of_faultless h.faults .openFile _
  rw [hopen] at hx
  cases hy : Volume.openFile path mode d.volume with
  | error e w =>
    rw [onVolume_error hy] at hx
    cases hx
  | ok a w =>
    rw [onVolume_ok hy] at hx
    cases hx
    exact ⟨w, rfl, rfl⟩

end Drive

theorem Bytes.splice_end (data bytes : List UInt8) :
    (ofList data).splice data.length bytes = ofList (data ++ bytes) := by
  rw [← toList_inj, toList_splice, toList_extend, size_ofList, toList_ofList, Nat.sub_self,
    List.replicate_zero, List.append_nil, List.take_length, List.drop_eq_nil_of_le (by omega),
    List.append_nil, toList_ofList]

/-- The next byte, as the head of a slice. -/
theorem Bytes.slice_one (b : Bytes) (pos : Nat) :
    b.slice pos 1 = if pos < b.size then [b.byteAt pos] else [] := by
  rw [slice_eq, byteAt_eq]
  split
  · next hlt =>
    rw [← length_toList] at hlt
    rw [List.drop_eq_getElem_cons hlt, List.getElem?_eq_getElem hlt]
    rfl
  · next hge =>
    rw [← length_toList] at hge
    rw [List.drop_eq_nil_of_le (Nat.le_of_not_lt hge), List.take_nil]

/-- Two slices, the second from where the first ends. -/
theorem Bytes.slice_append (b : Bytes) (pos x y : Nat) :
    b.slice pos x ++ b.slice (min (pos + x) b.size) y = b.slice pos (x + y) := by
  rw [slice_eq, slice_eq, slice_eq, List.take_add, List.drop_drop, ← length_toList]
  obtain hle | hge := Nat.le_total (pos + x) b.toList.length
  · rw [Nat.min_eq_left hle]
  · -- the first slice ran into the end, so the second is empty
    rw [Nat.min_eq_right hge, List.drop_length, List.drop_eq_nil_of_le hge]

namespace Memory

variable {m : Memory} {address : Nat} {bytes : List UInt8}

theorem covers_congr {m' : Memory} {count : Nat} (hbase : m'.base = m.base)
    (hsize : m'.size = m.size) (h : m.Covers address count) : m'.Covers address count := by
  refine ⟨?_, ?_⟩
  · rw [hbase]
    exact h.base_le
  · rw [hbase, hsize]
    exact h.le_end

@[simp] theorem base_store (m : Memory) (i : Nat) (bytes : List UInt8) :
    (m.store i bytes).base = m.base := rfl

@[simp] theorem size_store (m : Memory) (i : Nat) (bytes : List UInt8) :
    (m.store i bytes).size = m.size := rfl

/-- What is stored in RAM is there. -/
theorem slice_store (h : m.Covers address bytes.length) :
    (m.store (address - m.base) bytes).slice address bytes.length = .ok bytes := by
  have hcovers : (m.store (address - m.base) bytes).Covers address bytes.length :=
    ⟨h.base_le, h.le_end⟩
  unfold slice
  rw [offset?_of_covers hcovers]
  refine congrArg Except.ok (List.ext_getElem ?_ fun i hi hi' => ?_)
  · rw [List.length_map, List.length_range']
  · rw [List.getElem_map, List.getElem_range']
    show (m.cells.splice (address - m.base) bytes).byteAt (address - m.base + 1 * i) = bytes[i]
    rw [Bytes.byteAt_splice, if_pos (by omega), Nat.one_mul, Nat.add_sub_cancel_left,
      List.getElem?_eq_getElem hi']
    rfl

end Memory

namespace Volume

variable {u v w : Volume} {typed : Text} {mode : OpenMode} {p : Path} {h : Nat} {key : Path}
  {data bytes : List UInt8}

/-- The mode opens the path as an empty file that can be written. -/
structure Creates (v : Volume) (typed : Text) (mode : OpenMode) : Prop where
  writes : mode.contains .write = true
  empties : mode.contains .createNew = true ∨ mode.contains .createAlways = true ∨
    ∀ found, v.find typed ≠ .ok found

theorem Replaced.holding (h : v.Replaced key data w) : v.Holding key data w := by
  obtain ⟨n, _, _, _, hn⟩ := h.file
  exact ⟨dataAt_of_content hn rfl, h.others⟩

theorem prepare_creates (hv : v.WellFormed) (hp : v.resolve typed = .ok p)
    (hc : v.Creates typed mode) (hu : v.prepare p mode = .ok u) : v.Holding p.key [] u := by
  rcases prepare_cases hu with ⟨n, hn, hfile, hnew, hro, rfl⟩ | ⟨stored, hn, _, hs, rfl⟩
  · have hfind : v.find typed = .ok (p.key, n) := by
      unfold find
      rw [hp]
      simp only [bind, Except.bind, hn]
      rfl
    -- a file is there, so of the three ways to start from nothing only this one is left
    have hemptied : mode.contains .createAlways = true := by
      rcases hc.empties with hnew' | halways | hnone
      · rw [hnew] at hnew'
        cases hnew'
      · exact halways
      · exact absurd hfind (hnone _)
    rw [if_pos hemptied]
    exact (replaced_updateNode hv hn hfile (hro hc.writes) []).holding
  · obtain ⟨hkey, hgrown⟩ := grown_insert hv hn hs (.ofList [])
    rw [← hkey]
    exact hgrown.holding

theorem openFile_creates (hv : v.WellFormed) (hc : v.Creates typed mode)
    (ho : openFile typed mode v = .ok h w) :
    ∃ p, v.resolve typed = .ok p ∧ v.Holding p.key [] w ∧
      w.files.get? h = some ⟨p.key, 0, mode⟩ := by
  rcases openFile_cases typed mode v with ⟨e, hx⟩ | ⟨p, u, hp, hu, _⟩
  · rw [ho] at hx
    cases hx
  · have hholding := prepare_creates hv hp hc hu
    have hx := openFile_positioned hp hu hholding.file
    rw [ho, Bytes.size_ofList, List.length_nil, ite_self] at hx
    cases hx
    exact ⟨p, hp, ⟨hholding.file, hholding.others⟩, Table.get?_set_self _ _ _⟩

theorem readable_ok {file : Bytes} (h : v.readable typed = .ok file) :
    ∃ p n, v.resolve typed = .ok p ∧ v.node? p.key = some n ∧ n.content = .file file := by
  unfold readable at h
  cases hf : v.find typed with
  | error e =>
    rw [hf] at h
    cases h
  | ok found =>
    obtain ⟨p, hp, _, hn⟩ := find_ok hf
    rw [hf] at h
    simp only at h
    unfold Node.data? at h
    cases hc : found.2.content with
    | directory =>
      rw [hc] at h
      cases h
    | file data =>
      rw [hc] at h
      cases h
      exact ⟨p, found.2, hp, hn, hc⟩

/-- A mode that empties nothing opens the file as it is. -/
theorem openFile_keeps {file : Bytes} (hr : v.readable typed = .ok file)
    (hm : mode.contains .createAlways = false) (ho : openFile typed mode v = .ok h w) :
    ∃ key, w.dataAt key = .ok file ∧
      w.files.get? h = some ⟨key, if mode.contains .append then file.size else 0, mode⟩ := by
  obtain ⟨p, n, hp, hn, hc⟩ := readable_ok hr
  have hdata := dataAt_of_content hn hc
  rcases openFile_cases typed mode v with ⟨e, hx⟩ | ⟨p', u, hp', hu, _⟩
  · rw [ho] at hx
    cases hx
  · rw [hp] at hp'
    cases hp'
    have hsame : u = v := by
      rcases prepare_cases hu with ⟨_, _, _, _, _, he⟩ | ⟨_, hnone, _⟩
      · rw [hm] at he
        exact he
      · rw [hn] at hnone
        cases hnone
    subst hsame
    have hx := openFile_positioned hp hu hdata
    rw [ho] at hx
    cases hx
    exact ⟨p.key, hdata, Table.get?_set_self _ _ _⟩

theorem get?_updateFile {f : OpenFile} (hf : v.files.get? h = some f) (g : OpenFile → OpenFile) :
    (v.updateFile h g).files.get? h = some (g f) := by
  unfold updateFile
  rw [hf]
  exact Table.get?_set_self _ _ _

theorem dataAt_updateFile (v : Volume) (h : Nat) (g : OpenFile → OpenFile) (key : Path) :
    (v.updateFile h g).dataAt key = v.dataAt key := by
  unfold dataAt
  rw [node?_updateFile]

theorem Holding.updateFile (hw : v.Holding key data w) (h : Nat) (g : OpenFile → OpenFile) :
    v.Holding key data (w.updateFile h g) := by
  refine ⟨?_, fun k hk => ?_⟩
  · rw [dataAt_updateFile]
    exact hw.file
  · rw [node?_updateFile]
    exact hw.others k hk

theorem Holding.overwrite (hw : v.Holding key data w) (bytes : List UInt8) (stamp : Stamp) :
    v.Holding key bytes
      (w.updateNode key fun n => { n with content := .file (.ofList bytes), stamp := stamp }) := by
  have hnode := node?_updateNode w key fun n =>
    { n with content := .file (.ofList bytes), stamp := stamp }
  obtain ⟨n, hn, _⟩ := dataAt_ok hw.file
  have hkey := hnode key
  rw [if_pos rfl, hn, Option.map_some] at hkey
  refine ⟨dataAt_of_content hkey rfl, fun k hk => ?_⟩
  rw [hnode, if_neg hk]
  exact hw.others k hk

/-- Bytes written where the file ends are added to it. -/
theorem write_end (hw : v.Holding key data w)
    (hf : w.files.get? h = some ⟨key, data.length, mode⟩) (hm : mode.contains .write = true)
    (bytes : List UInt8) :
    ∃ w', write h bytes w = .ok bytes.length w' ∧ v.Holding key (data ++ bytes) w' ∧
      w'.files.get? h = some ⟨key, (data ++ bytes).length, mode⟩ := by
  have hwrite := write_ok bytes (openFile?_of_get? hf) hm hw.file
  dsimp only at hwrite
  rw [Bytes.splice_end] at hwrite
  refine ⟨_, hwrite, (hw.overwrite _ _).updateFile _ _, ?_⟩
  rw [get?_updateFile (by rw [files_updateNode, hf]), List.length_append]

end Volume

namespace Shell

variable {m m₁ : Machine} {n : UInt8} {i : Nat} {path : Text}

section Number

/-- The file that a program has opened has the number it was told, if the slot of the file has a number. -/
theorem openFile_numbered {mode : UInt8} (hfree : m.files.free? = some i) (hi : i < 255)
    (hopen : Api.openFile path mode m = .ok n m₁) (hn : n ≠ 0) :
    ∃ h d, Drive.openFile path ⟨mode⟩ m.drive = .ok h d ∧
      m₁ = { m with files := m.files.put i h, drive := d } ∧ m₁.files.handle? n = .ok h := by
  cases hd : Drive.openFile path ⟨mode⟩ m.drive with
  | error e d =>
    have hx := FileTable.openFile_error (s := (m.files, m.drive)) hfree hd
    have hzero := FileTable.fopen_error rfl hx
    rw [hopen] at hzero
    cases hzero
    exact absurd rfl hn
  | ok h d =>
    have hx := FileTable.openFile_ok (s := (m.files, m.drive)) hfree hd
    have hnumber := FileTable.fopen_ok rfl hx
    rw [hopen] at hnumber
    cases hnumber
    refine ⟨h, d, rfl, rfl, ?_⟩
    rw [FileTable.handle?_eq, FileTable.shown_put (FileTable.free?_le_length hfree) hi]
    unfold FileTable.Holdings.update
    rw [if_pos rfl]
    rfl

theorem handle_ok {h : Nat} (hh : m.files.handle? n = .ok h) : Api.handle n m = .ok h m := by
  unfold Api.handle
  rw [bind_apply, get_apply]
  dsimp only
  unfold ofExcept
  rw [hh]
  rfl

theorem orElse_ok {α : Type} {default a : α} {x : Shell α} (h : x m = .ok a m₁) :
    Api.orElse default x m = .ok a m₁ := by
  unfold Api.orElse
  rw [bind_apply, outcome_ok h]
  rfl

theorem status_ok {x : Shell Unit} (h : x m = .ok () m₁) : Api.status x m = .ok 0 m₁ := by
  unfold Api.status
  rw [bind_apply, outcome_ok h]
  rfl

end Number

/-- Number `n` stands for a handle that writes the file at `key`, right behind the bytes `data` that are
all of it; elsewhere the card is as `v` has it. -/
structure Writing (v : Volume) (n : UInt8) (key : Path) (data : List UInt8) (m : Machine) : Prop where
  prompt : m.drive.Prompt
  open_ : ∃ h mode, m.files.handle? n = .ok h ∧
    m.drive.volume.files.get? h = some ⟨key, data.length, mode⟩ ∧ mode.contains .write = true
  holding : v.Holding key data m.drive.volume

/-- A call that writes: one byte, or a block that has been put at an address. -/
inductive Put
  | byte (b : UInt8)
  | block (bytes : List UInt8) (address : Nat)

namespace Put

def bytes : Put → List UInt8
  | byte b => [b]
  | block bytes _ => bytes

/-- What it answers where all is written: a status for a byte, a count for a block. -/
def answer : Put → Nat
  | byte _ => 0
  | block bytes _ => bytes.length

def Fits (memory : Memory) : Put → Prop
  | byte _ => True
  | block bytes address => memory.Covers address bytes.length

def run (n : UInt8) : Put → Shell Nat
  | byte b => do return (← Api.putByte n b).toNat
  | block bytes address => do
    modify fun m => { m with memory := m.memory.store (address - m.memory.base) bytes }
    Api.write n address bytes.length

end Put

variable {v : Volume} {key : Path} {data : List UInt8}

/-- One write of the driver. The handle is the same before and after. -/
theorem Writing.write (hw : Writing v n key data m) (bytes : List UInt8) :
    ∃ h d, m.files.handle? n = .ok h ∧ Drive.write h bytes m.drive = .ok bytes.length d ∧
      Writing v n key (data ++ bytes) { m with drive := d } := by
  obtain ⟨h, mode, hh, hf, hm⟩ := hw.open_
  obtain ⟨w, hx, hholding, hf'⟩ := Volume.write_end hw.holding hf hm bytes
  have hwrite := (hw.prompt.reliable.write h bytes).trans (Drive.onVolume_ok hx)
  exact ⟨h, _, hh, hwrite, hw.prompt.withVolume w, ⟨h, mode, hh, hf', hm⟩, hholding⟩

theorem Writing.putByte (hw : Writing v n key data m) (b : UInt8) :
    ∃ d, Api.putByte n b m = .ok 0 { m with drive := d } ∧
      Writing v n key (data ++ [b]) { m with drive := d } := by
  obtain ⟨h, d, hh, hx, hw'⟩ := hw.write [b]
  refine ⟨d, status_ok ?_, hw'⟩
  rw [bind_apply, handle_ok hh]
  dsimp only
  rw [bind_apply, drive_ok hx]
  rfl

theorem Writing.writeBlock {address count : Nat} {bytes : List UInt8} (hw : Writing v n key data m)
    (hslice : m.memory.slice address count = .ok bytes) :
    ∃ d, Api.write n address count m = .ok bytes.length { m with drive := d } ∧
      Writing v n key (data ++ bytes) { m with drive := d } := by
  obtain ⟨h, d, hh, hx, hw'⟩ := hw.write bytes
  refine ⟨d, orElse_ok ?_, hw'⟩
  rw [bind_apply, handle_ok hh]
  dsimp only
  rw [bind_apply, askMemory_ok hslice]
  exact drive_ok hx

/-- Every call adds its bytes and says so. -/
theorem Writing.put (hw : Writing v n key data m) (c : Put) (hc : c.Fits m.memory) :
    ∃ m', c.run n m = .ok c.answer m' ∧ Writing v n key (data ++ c.bytes) m' ∧
      m'.memory.base = m.memory.base ∧ m'.memory.size = m.memory.size := by
  cases c with
  | byte b =>
    obtain ⟨d, hx, hw'⟩ := hw.putByte b
    refine ⟨_, ?_, hw', rfl, rfl⟩
    unfold Put.run
    dsimp only
    rw [bind_apply, hx]
    rfl
  | block bytes address =>
    let m₁ : Machine :=
      { m with memory := m.memory.store (address - m.memory.base) bytes }
    have hw₁ : Writing v n key data m₁ := ⟨hw.prompt, hw.open_, hw.holding⟩
    obtain ⟨d, hx, hw'⟩ := hw₁.writeBlock (Memory.slice_store hc)
    refine ⟨_, ?_, hw', rfl, rfl⟩
    unfold Put.run
    dsimp only
    rw [bind_apply, modify_apply]
    exact hx

theorem Put.fits_congr {memory memory' : Memory} (hbase : memory'.base = memory.base)
    (hsize : memory'.size = memory.size) {c : Put} (h : c.Fits memory) : c.Fits memory' := by
  cases c with
  | byte b => trivial
  | block bytes address => exact Memory.covers_congr hbase hsize h

theorem Writing.puts (hw : Writing v n key data m) (cs : List Put)
    (hcs : ∀ c ∈ cs, c.Fits m.memory) :
    ∃ m', cs.mapM (Put.run n) m = .ok (cs.map Put.answer) m' ∧
      Writing v n key (data ++ cs.flatMap Put.bytes) m' := by
  induction cs generalizing data m with
  | nil =>
    refine ⟨m, rfl, ?_⟩
    rw [List.flatMap_nil, List.append_nil]
    exact hw
  | cons c cs ih =>
    obtain ⟨hc, hrest⟩ := List.forall_mem_cons.mp hcs
    obtain ⟨m₁, hx, hw₁, hbase, hsize⟩ := hw.put c hc
    -- RAM stays where it is, so the blocks that fitted before the call still do
    obtain ⟨m₂, hx₂, hw₂⟩ := ih hw₁ fun c' hc' => Put.fits_congr hbase hsize (hrest c' hc')
    refine ⟨m₂, ?_, ?_⟩
    · rw [List.mapM_cons, bind_apply, hx]
      dsimp only
      rw [bind_apply, hx₂]
      rfl
    · rw [List.flatMap_cons, ← List.append_assoc]
      exact hw₂

/-- Number `n` stands for a handle that reads this file, `pos` bytes of it so far. -/
structure Reads (n : UInt8) (file : Bytes) (pos : Nat) (m : Machine) : Prop where
  prompt : m.drive.Prompt
  within : pos ≤ file.size
  open_ : ∃ h key mode, m.files.handle? n = .ok h ∧
    m.drive.volume.files.get? h = some ⟨key, pos, mode⟩ ∧ mode.contains .read = true ∧
    m.drive.volume.dataAt key = .ok file

/-- A call that reads: one byte, or a block into RAM. -/
inductive Get
  | byte
  | block (address count : Nat)

namespace Get

def asked : Get → Nat
  | byte => 1
  | block _ count => count

def Fits (memory : Memory) : Get → Prop
  | byte => True
  | block address count => memory.Covers address count

/-- The bytes that a program gets: none with a byte where the file was at its end before, and with a
block as many as the call counts. -/
def run (n : UInt8) : Get → Shell (List UInt8)
  | byte => do
    let ended ← Api.atEnd n
    let c ← Api.getByte n
    return if ended = 1 then [] else [UInt8.ofNat c]
  | block address count => do
    let got ← Api.read n address count
    askMemory fun m => m.slice address got

end Get

variable {file : Bytes} {pos : Nat}

/-- One read of the driver, and whether it leaves the file at its end. -/
theorem Reads.read (hr : Reads n file pos m) (count : Nat) :
    ∃ h d, m.files.handle? n = .ok h ∧ Drive.read h count m.drive = .ok (file.slice pos count) d ∧
      Drive.atEnd h d = .ok (decide (file.size ≤ pos + count)) d ∧
      Reads n file (min (pos + count) file.size) { m with drive := d } := by
  obtain ⟨h, key, mode, hh, hf, hm, hdata⟩ := hr.open_
  have hmoved : pos + (file.slice pos count).length = min (pos + count) file.size := by
    have hwithin := hr.within
    rw [Bytes.length_slice]
    omega
  have hread := Volume.read_ok count (Volume.openFile?_of_get? hf) hm hdata
  have hf' := Volume.get?_updateFile hf fun g =>
    { g with position := g.position + (file.slice pos count).length }
  have hdata' := (Volume.dataAt_updateFile m.drive.volume h (fun g =>
    { g with position := g.position + (file.slice pos count).length }) key).trans hdata
  dsimp only at hread hf'
  rw [hmoved] at hf'
  generalize m.drive.volume.updateFile h _ = w at hread hf' hdata'
  have hprompt := hr.prompt.withVolume w
  have hend : w.atEnd h = .ok (decide (file.size ≤ pos + count)) := by
    unfold Volume.atEnd
    rw [Volume.openFile?_of_get? hf']
    simp only [bind, Except.bind, hdata', pure, Except.pure, Except.ok.injEq, decide_eq_decide]
    omega
  exact ⟨h, _, hh, (hr.prompt.read h count).trans (Drive.onVolume_ok hread),
    Drive.ask_of_faultless .atEnd hprompt.faults hend,
    hprompt, Nat.min_le_right _ _, h, key, mode, hh, hf', hm, hdata'⟩

theorem Reads.atEnd (hr : Reads n file pos m) :
    Api.atEnd n m = .ok (if pos = file.size then 1 else 0) m := by
  obtain ⟨h, key, mode, hh, hf, hm, hdata⟩ := hr.open_
  have hwithin := hr.within
  have hend : m.drive.volume.atEnd h = .ok (decide (pos = file.size)) := by
    unfold Volume.atEnd
    rw [Volume.openFile?_of_get? hf]
    simp only [bind, Except.bind, hdata, pure, Except.pure, Except.ok.injEq, decide_eq_decide]
    omega
  have hasked : Drive.atEnd h m.drive = .ok (decide (pos = file.size)) m.drive :=
    Drive.ask_of_faultless .atEnd hr.prompt.faults hend
  have hended : Api.orElse false (do drive (Drive.atEnd (← Api.handle n))) m =
      .ok (decide (pos = file.size)) m := by
    refine orElse_ok ?_
    rw [bind_apply, handle_ok hh]
    exact drive_ok hasked
  unfold Api.atEnd
  rw [bind_apply, hended]
  simp only [decide_eq_true_eq]
  rfl

/-- The next byte, or 0 behind the last; the end bit says that no byte is left. -/
theorem Reads.getByte (hr : Reads n file pos m) :
    ∃ d, Api.getByte n m = .ok ((file.byteAt pos).toNat +
        if file.size ≤ pos + 1 then Api.endBit else 0) { m with drive := d } ∧
      Reads n file (min (pos + 1) file.size) { m with drive := d } := by
  obtain ⟨h, d, hh, hread, hend, hr'⟩ := hr.read 1
  refine ⟨d, orElse_ok ?_, hr'⟩
  have hbyte : (file.slice pos 1).headD 0 = file.byteAt pos := by
    rw [Bytes.slice_one]
    split
    · rfl
    · next hge =>
      rw [← Bytes.length_toList] at hge
      rw [Bytes.byteAt_eq, List.getElem?_eq_none (Nat.le_of_not_lt hge)]
      rfl
  rw [bind_apply, handle_ok hh]
  dsimp only
  rw [bind_apply, drive_ok hread]
  dsimp only
  rw [bind_apply, drive_ok (m := { m with drive := d }) hend]
  dsimp only
  rw [hbyte]
  simp only [decide_eq_true_eq]
  rfl

theorem Reads.seek (hr : Reads n file pos m) {k : Nat} (hk : k ≤ file.size) :
    ∃ d, Api.seek n k m = .ok 0 { m with drive := d } ∧ Reads n file k { m with drive := d } := by
  obtain ⟨h, key, mode, hh, hf, hm, hdata⟩ := hr.open_
  have hseek : Volume.seek h k m.drive.volume =
      .ok () (m.drive.volume.updateFile h fun f => { f with position := k }) := by
    obtain ⟨hlt, _⟩ | ⟨_, hx⟩ := Volume.seek_ok k (Volume.openFile?_of_get? hf) hdata
    · omega
    · rw [hx, Nat.min_eq_left hk]
  have hf' := Volume.get?_updateFile hf fun f => { f with position := k }
  have hdata' := (Volume.dataAt_updateFile m.drive.volume h
    (fun f => { f with position := k }) key).trans hdata
  generalize m.drive.volume.updateFile h _ = w at hseek hf' hdata'
  have hcall : Drive.seek h k m.drive = .ok () { m.drive with volume := w } :=
    (Drive.change_of_faultless hr.prompt.faults .seek _).trans (Drive.onVolume_ok hseek)
  refine ⟨_, status_ok ?_, hr.prompt.withVolume w, hk, h, key, mode, hh, hf', hm, hdata'⟩
  rw [bind_apply, handle_ok hh]
  exact drive_ok hcall

theorem Reads.readBlock (hr : Reads n file pos m) {address count : Nat}
    (hc : m.memory.Covers address count) :
    ∃ d, let bytes := file.slice pos count
      let m' := { m with drive := d, memory := m.memory.store (address - m.memory.base) bytes }
      Api.read n address count m = .ok bytes.length m' ∧
      m'.memory.slice address bytes.length = .ok bytes ∧
      Reads n file (min (pos + count) file.size) m' := by
  obtain ⟨h, d, hh, hread, _, hr'⟩ := hr.read count
  have hlength := file.length_slice pos count
  have hcovers : m.memory.Covers address (file.slice pos count).length := by
    have hend := hc.le_end
    exact ⟨hc.base_le, by omega⟩
  refine ⟨d, orElse_ok ?_, Memory.slice_store hcovers, hr'.prompt, hr'.within, hr'.open_⟩
  rw [bind_apply, handle_ok hh]
  dsimp only
  rw [bind_apply, askMemory_ok (Memory.offset?_of_covers hc)]
  dsimp only
  rw [bind_apply, drive_ok hread]
  rfl

/-- The end bit lies beyond the byte. -/
theorem ofNat_endBit (b : UInt8) (p : Prop) [Decidable p] :
    UInt8.ofNat (b.toNat + if p then Api.endBit else 0) = b := by
  rw [← UInt8.toNat_inj, UInt8.toNat_ofNat']
  have hlt := b.toNat_lt
  unfold Api.endBit
  split <;> omega

/-- Every call gets the bytes that come next, as many as it asks for or as there are. -/
theorem Reads.get (hr : Reads n file pos m) (c : Get) (hc : c.Fits m.memory) :
    ∃ m', c.run n m = .ok (file.slice pos c.asked) m' ∧
      Reads n file (min (pos + c.asked) file.size) m' ∧
      m'.memory.base = m.memory.base ∧ m'.memory.size = m.memory.size := by
  cases c with
  | byte =>
    obtain ⟨d, hx, hr'⟩ := hr.getByte
    simp only [Get.asked]
    refine ⟨_, ?_, hr', rfl, rfl⟩
    unfold Get.run
    dsimp only
    rw [bind_apply, hr.atEnd]
    dsimp only
    rw [bind_apply, hx]
    dsimp only
    rw [Bytes.slice_one]
    have hwithin := hr.within
    by_cases hend : pos = file.size
    · rw [if_pos hend, if_pos rfl, if_neg (by omega)]
      rfl
    · rw [if_neg hend, ofNat_endBit, if_neg (by decide), if_pos (by omega)]
      rfl
  | block address count =>
    obtain ⟨d, hx, hslice, hr'⟩ := hr.readBlock hc
    refine ⟨_, ?_, hr', m.memory.base_store _ _, m.memory.size_store _ _⟩
    unfold Get.run
    dsimp only
    rw [bind_apply, hx]
    exact askMemory_ok hslice

theorem Get.fits_congr {memory memory' : Memory} (hbase : memory'.base = memory.base)
    (hsize : memory'.size = memory.size) {c : Get} (h : c.Fits memory) : c.Fits memory' := by
  cases c with
  | byte => trivial
  | block address count => exact Memory.covers_congr hbase hsize h

theorem Reads.gets (hr : Reads n file pos m) (cs : List Get) (hcs : ∀ c ∈ cs, c.Fits m.memory) :
    ∃ chunks m', cs.mapM (Get.run n) m = .ok chunks m' ∧
      chunks.flatten = file.slice pos (cs.map Get.asked).sum ∧
      Reads n file (min (pos + (cs.map Get.asked).sum) file.size) m' := by
  induction cs generalizing pos m with
  | nil =>
    have hnone : file.slice pos 0 = [] := by rw [Bytes.slice_eq, List.take_zero]
    refine ⟨[], m, rfl, hnone.symm, ?_⟩
    rw [List.map_nil, List.sum_nil, Nat.add_zero, Nat.min_eq_left hr.within]
    exact hr
  | cons c cs ih =>
    obtain ⟨hc, hrest⟩ := List.forall_mem_cons.mp hcs
    obtain ⟨m₁, hx, hr₁, hbase, hsize⟩ := hr.get c hc
    obtain ⟨chunks, m₂, hx₂, hchunks, hr₂⟩ :=
      ih hr₁ fun c' hc' => Get.fits_congr hbase hsize (hrest c' hc')
    -- a call that hits the end leaves nothing to those after it
    have hmoved : min (min (pos + c.asked) file.size + (cs.map Get.asked).sum) file.size =
        min (pos + (c.asked + (cs.map Get.asked).sum)) file.size := by omega
    refine ⟨file.slice pos c.asked :: chunks, m₂, ?_, ?_, ?_⟩
    · rw [List.mapM_cons, bind_apply, hx]
      dsimp only
      rw [bind_apply, hx₂]
      rfl
    · rw [List.flatten_cons, hchunks, Bytes.slice_append, List.map_cons, List.sum_cons]
    · rw [List.map_cons, List.sum_cons, ← hmoved]
      exact hr₂

/-- What a program finds that has read `pos` bytes of a file: whether that is all of it, the next byte,
the bytes of any calls that follow, and those from a place where it goes on instead. -/
structure Continues (n : UInt8) (file : Bytes) (pos : Nat) (m : Machine) : Prop where
  ended : Api.atEnd n m = .ok (if pos = file.size then 1 else 0) m
  next : ∃ m', Api.getByte n m =
      .ok ((file.byteAt pos).toNat + if file.size ≤ pos + 1 then Api.endBit else 0) m' ∧
    Reads n file (min (pos + 1) file.size) m'
  rest : ∀ cs : List Get, (∀ c ∈ cs, c.Fits m.memory) →
    ∃ chunks m', cs.mapM (Get.run n) m = .ok chunks m' ∧
      chunks.flatten = (file.toList.drop pos).take (cs.map Get.asked).sum ∧
      Reads n file (min (pos + (cs.map Get.asked).sum) file.size) m'
  seek : ∀ k ≤ file.size, ∃ m', Api.seek n k m = .ok 0 m' ∧ Reads n file k m'

theorem Reads.continues (hr : Reads n file pos m) : Continues n file pos m := by
  refine ⟨hr.atEnd, ?_, fun cs hcs => ?_, fun k hk => ?_⟩
  · obtain ⟨d, hx, hr'⟩ := hr.getByte
    exact ⟨_, hx, hr'⟩
  · obtain ⟨chunks, m', hx, hchunks, hr'⟩ := hr.gets cs hcs
    rw [Bytes.slice_eq] at hchunks
    exact ⟨chunks, m', hx, hchunks, hr'⟩
  · obtain ⟨d, hx, hr'⟩ := hr.seek hk
    exact ⟨_, hx, hr'⟩

/-- A program that has opened a file in one of the first 255 slots writes it through the number, if the
open made or emptied it, and reads it through the number, if the open left it as it was. -/
theorem transfers_by_number {mode : UInt8} (hd : m.drive.Prompt) (hfree : m.files.free? = some i)
    (hi : i < 255) (hopen : Api.openFile path mode m = .ok n m₁) (hn : n ≠ 0) :
    (∀ label ops, m.drive.volume = (Volume.labelled label).runAll ops →
      m.drive.volume.Creates path ⟨mode⟩ →
      ∃ p, m.drive.volume.resolve path = .ok p ∧ m.drive.volume.Holding p.key [] m₁.drive.volume ∧
        ∀ cs : List Put, (∀ c ∈ cs, c.Fits m₁.memory) →
          ∃ m₂, cs.mapM (Put.run n) m₁ = .ok (cs.map Put.answer) m₂ ∧
            m.drive.volume.Holding p.key (cs.flatMap Put.bytes) m₂.drive.volume) ∧
    ∀ file, m.drive.volume.readable path = .ok file → OpenMode.contains ⟨mode⟩ .read = true →
      OpenMode.contains ⟨mode⟩ .createAlways = false →
      Reads n file (if OpenMode.contains ⟨mode⟩ .append then file.size else 0) m₁ ∧
      ∀ pos m', Reads n file pos m' → Continues n file pos m' := by
  obtain ⟨h, d, hdrive, hm₁, hh⟩ := openFile_numbered hfree hi hopen hn
  obtain ⟨w, hvolume, rfl⟩ := hd.openFile hdrive
  subst hm₁
  refine ⟨fun label ops hv hcreates => ?_, fun file hread hmode hkeeps => ?_⟩
  · obtain ⟨p, hp, hholding, hf⟩ := Volume.openFile_creates (.of_runAll hv) hcreates hvolume
    have hw : Writing m.drive.volume n p.key []
        { m with files := m.files.put i h, drive := { m.drive with volume := w } } :=
      ⟨hd.withVolume w, ⟨h, ⟨mode⟩, hh, hf, hcreates.writes⟩, hholding⟩
    refine ⟨p, hp, hholding, fun cs hcs => ?_⟩
    obtain ⟨m₂, hx, hw₂⟩ := hw.puts cs hcs
    exact ⟨m₂, hx, hw₂.holding⟩
  · obtain ⟨key, hdata, hf⟩ := Volume.openFile_keeps hread hkeeps hvolume
    refine ⟨⟨hd.withVolume w, ?_, h, key, ⟨mode⟩, hh, hf, hmode, hdata⟩, fun pos m' hr => hr.continues⟩
    split
    · exact Nat.le_refl _
    · exact Nat.zero_le _

/-- An empty card. -/
def blank : Machine := .boot {} (.labelled []) [] {} (.hosted 0 0) .absent

/-- A card with a file of four bytes. -/
def fourOnCard : Machine :=
  .boot {} ((Volume.labelled []).runAll [.writeFile "/f" [1, 2, 3, 4]]) [] {} (.hosted 0 0) .absent

/-- Four bytes written by three calls, and read by four; the last two of them find one byte and none. -/
theorem transfers_of_first_number :
    (∃ m₁ m₂, Api.openFile "/f" 6 blank = .ok 1 m₁ ∧
      [.byte 1, .block [2, 3] 0x040000, .byte 4].mapM (Put.run 1) m₁ = .ok [0, 2, 0] m₂ ∧
      m₂.drive.volume.dataAt ["f"] = .ok (.ofList [1, 2, 3, 4])) ∧
    ∃ m₁ chunks m₂, Api.openFile "/f" 1 fourOnCard = .ok 1 m₁ ∧
      [.byte, .block 0x040000 2, .block 0x040000 2, .byte].mapM (Get.run 1) m₁ = .ok chunks m₂ ∧
      chunks.flatten = [1, 2, 3, 4] ∧ Api.atEnd 1 m₂ = .ok 1 m₂ := by
  refine ⟨?_, ?_⟩
  · have hd : blank.drive.Prompt := ⟨rfl, rfl⟩
    have hopen : Api.openFile "/f" 6 blank = .ok 1 ((Api.openFile "/f" 6).after blank) := by
      rfl
    have hcreates : blank.drive.volume.Creates "/f" ⟨6⟩ := ⟨by decide, .inl (by decide)⟩
    have hpath : blank.drive.volume.resolve "/f" = .ok ["f"] := by decide +kernel
    obtain ⟨p, hp, -, hputs⟩ := (transfers_by_number hd rfl (by decide) hopen (by decide)).1 [] []
      rfl hcreates
    cases hpath.symm.trans hp
    obtain ⟨m₂, hx, hholding⟩ := hputs [.byte 1, .block [2, 3] 0x040000, .byte 4] (by
      simp only [List.forall_mem_cons]
      exact ⟨trivial, ⟨by decide +kernel, by decide +kernel⟩, trivial, List.forall_mem_nil _⟩)
    exact ⟨_, m₂, hopen, hx, hholding.file⟩
  · have hd : fourOnCard.drive.Prompt := ⟨rfl, rfl⟩
    have hopen : Api.openFile "/f" 1 fourOnCard =
        .ok 1 ((Api.openFile "/f" 1).after fourOnCard) := rfl
    have hread : fourOnCard.drive.volume.readable "/f" = .ok (.ofList [1, 2, 3, 4]) := by
      decide +kernel
    obtain ⟨hreads, hlaw⟩ := (transfers_by_number hd rfl (by decide) hopen (by decide)).2 _ hread
      (by decide) (by decide)
    obtain ⟨chunks, m₂, hx, hchunks, hreads₂⟩ := (hlaw _ _ hreads).rest
      [.byte, .block 0x040000 2, .block 0x040000 2, .byte] (by
        simp only [List.forall_mem_cons]
        exact ⟨trivial, ⟨by decide +kernel, by decide +kernel⟩,
          ⟨by decide +kernel, by decide +kernel⟩, trivial, List.forall_mem_nil _⟩)
    exact ⟨_, chunks, m₂, hopen, hx, hchunks, (hlaw _ _ hreads₂).ended⟩

section Crowded

/-- An open changes nothing for a number in use, whatever number it gives. -/
theorem Reads.openFile {other : Text} {data : Bytes} (hr : Reads n file pos m)
    (hnumbered : m.drive.volume.Numbered) (hissued : m.drive.volume.issued < Volume.handleLimit)
    (hfree : m.files.free? = some i) (hread : m.drive.volume.readable other = .ok data) :
    ∃ f, let v := m.drive.volume
      let m₁ : Machine := { m with
        files := m.files.put i v.nextHandle
        drive := { m.drive with volume := v.withHandle f } }
      Api.openFile other 1 m = .ok (UInt8.ofNat (i + 1)) m₁ ∧ Reads n file pos m₁ := by
  obtain ⟨h, key, mode, hh, hf, hm, hdata⟩ := hr.open_
  have hx := Volume.openFile_readable other m.drive.volume
  rw [hread] at hx
  obtain ⟨key', _, hx⟩ := hx
  have hcall : Drive.openFile other .read m.drive = _ :=
    (Drive.change_of_faultless hr.prompt.faults .openFile _).trans (Drive.onVolume_ok hx)
  have hopen := FileTable.fopen_ok (m := m) rfl
    (FileTable.openFile_ok (s := (m.files, m.drive)) hfree hcall)
  -- handles only repeat once all have been given out
  have hne : h ≠ m.drive.volume.nextHandle := by
    have hle := hnumbered.files.le h (by rw [Table.has, hf]; rfl)
    rw [Volume.nextHandle_of_lt hissued]
    omega
  refine ⟨⟨key', 0, .read⟩, hopen, hr.prompt.withVolume _, hr.within, h, key, mode,
    FileTable.handle?_put hfree hh _, ?_, hm, hdata⟩
  exact (Table.get?_set_of_ne hne _ _).trans hf

/-- Number 1 has read the one byte of a file, which is open `k` times besides, and each time has one
slot of 257. -/
structure Crowded (k : Nat) (m : Machine) : Prop where
  reads : Reads 1 (.ofList [120]) 1 m
  file : m.drive.volume.readable "/a" = .ok (.ofList [120])
  numbered : m.drive.volume.Numbered
  issued : m.drive.volume.issued = k + 2
  capacity : m.files.capacity = 257
  length : m.files.slots.length = k + 1
  taken : ∀ slot ∈ m.files.slots, slot.isSome = true

theorem Crowded.open_ {k : Nat} (hc : Crowded k m) (hk : k < 256) :
    ∃ m₁, Api.openFile "/a" 1 m = .ok (UInt8.ofNat (k + 2)) m₁ ∧ Crowded (k + 1) m₁ := by
  have hfree : m.files.free? = some (k + 1) := by
    rw [FileTable.free?_of_taken hc.taken (by rw [hc.length, hc.capacity]; omega), hc.length]
  have hissued : m.drive.volume.issued < Volume.handleLimit := by
    rw [hc.issued]
    exact Nat.lt_of_lt_of_le (Nat.add_lt_add_right hk 2) (by decide)
  obtain ⟨f, hopen, hreads⟩ := hc.reads.openFile hc.numbered hissued hfree hc.file
  have hslots := m.files.slots_put_length m.drive.volume.nextHandle
  rw [hc.length] at hslots
  refine ⟨_, hopen, hreads, hc.file, ⟨?_, ?_⟩, congrArg (· + 1) hc.issued, hc.capacity, ?_, ?_⟩
  · exact (hc.numbered.files.mono (Nat.le_succ _)).set m.drive.volume.nextHandle_le f
  · exact hc.numbered.listings.mono (Nat.le_succ _)
  · rw [hslots, List.length_append, hc.length]
    rfl
  · rw [hslots]
    exact FileTable.taken_append hc.taken _

/-- Room for 257 open files, one of which is open and read to its end. -/
def readOnce : Machine :=
  let m : Machine := .boot { storage := { maxOpenFiles := 257 } }
    ((Volume.labelled []).runAll [.writeFile "/a" [120]]) [] {} (.hosted 0 0) .absent
  (Api.getByte 1).after ((Api.openFile "/a" 1).after m)

theorem crowded_readOnce : Crowded 0 readOnce := by
  have hfiles : readOnce.drive.volume.files = [(2, ⟨["a"], 1, .read⟩)] := by decide +kernel
  have hget : readOnce.drive.volume.files.get? 2 = some ⟨["a"], 1, .read⟩ := by
    rw [hfiles]
    rfl
  have hreads : Reads 1 (.ofList [120]) 1 readOnce :=
    ⟨⟨by decide +kernel, by decide +kernel⟩, by decide, 2, ["a"], .read, by decide +kernel, hget,
      by decide, by decide +kernel⟩
  have hnumbered : readOnce.drive.volume.Numbered := by
    refine ⟨?_, Table.numbered_nil _⟩
    rw [hfiles]
    exact (Table.numbered_nil _).set (by decide +kernel) _
  exact ⟨hreads, by decide +kernel, hnumbered, by decide +kernel, by decide +kernel,
    by decide +kernel, by decide +kernel⟩

/-- The machine after so many opens of the file. -/
def opened : Nat → Machine
  | 0 => readOnce
  | k + 1 => (Api.openFile "/a" 1).after (opened k)

theorem crowded_opened {k : Nat} (hk : k ≤ 256) : Crowded k (opened k) := by
  induction k with
  | zero => exact crowded_readOnce
  | succ k ih =>
    obtain ⟨m₁, hopen, hc⟩ := (ih (Nat.le_of_succ_le hk)).open_ hk
    rw [opened, after_ok hopen]
    exact hc

/-- The 257th file is open under number 1, which has come to the end of the first: none of it is read. -/
theorem number_of_257th_file :
    (opened 255).drive.volume.readable "/a" = .ok (.ofList [120]) ∧
    ∃ m₁ m₂, Api.openFile "/a" 1 (opened 255) = .ok 1 m₁ ∧ Api.atEnd 1 m₁ = .ok 1 m₁ ∧
      Api.getByte 1 m₁ = .ok Api.endBit m₂ := by
  have hc := crowded_opened (k := 255) (by decide)
  obtain ⟨m₁, hopen, hc₁⟩ := hc.open_ (by decide)
  obtain ⟨d, hbyte, -⟩ := hc₁.reads.getByte
  exact ⟨hc.file, m₁, _, hopen, hc₁.reads.atEnd, hbyte⟩

end Crowded

end Shell

end CardShell
