import CardShell.Proofs.Loader.Load

/-!
What a load may do to RAM, by addresses: it stays in its range and below the system area, it is
refused where the two meet, and what it returns is what it has put there.
-/

set_option autoImplicit false

namespace CardShell

namespace Memory

def byte? (m : Memory) (address : Nat) : Option UInt8 :=
  if m.base ≤ address ∧ address < m.base + m.size then some (m.cell (address - m.base)) else none

/-- RAM lies where the map has it. -/
structure Spans (m : Memory) (map : MemoryMap) : Prop where
  base : m.base = map.ramStart
  size : m.size = map.lastRam - map.ramStart + 1

theorem spans_ofMap (map : MemoryMap) : (ofMap map).Spans map := ⟨rfl, rfl⟩

end Memory

/-- A machine with a map that a configuration may have, and RAM that follows it. -/
structure Machine.Mapped (m : Machine) : Prop where
  valid : m.settings.Valid
  spans : m.memory.Spans m.settings.memory

theorem Machine.mapped_boot {settings : Settings} (hs : settings.Valid) (volume : Volume)
    (table : List Record) (console : Console) (clock : Clock) (executor : Executor) :
    (Machine.boot settings volume table console clock executor).Mapped :=
  ⟨hs, Memory.spans_ofMap settings.memory⟩

theorem Settings.valid_default : Settings.Valid {} := by
  constructor <;> decide

namespace Shell

open CardShell.Action

/-- What a load from `m` promises. -/
structure LoadLaw (path : Text) (address size : Nat) (m : Machine) : Prop where
  /-- No byte outside the range of the load changes. -/
  outside : ∀ a, ¬ (address ≤ a ∧ a < address + m.drive.volume.loadLength path size) →
    ((load path address size).after m).memory.byte? a = m.memory.byte? a
  /-- No byte of the system area changes. -/
  system : ∀ a, m.settings.memory.systemAddress ≤ a →
    ((load path address size).after m).memory.byte? a = m.memory.byte? a
  /-- If the file opens and its length can be told, a range that meets the system area is refused. -/
  refused : ∀ h m', drive (Drive.openFile path .read) m = .ok h m' →
    m.drive.waiting .fileSize = 0 →
    (∃ a, address ≤ a ∧ a < address + m.drive.volume.loadLength path size ∧
      m.settings.memory.systemAddress ≤ a ∧ a ≤ m.settings.memory.lastRam) →
    ∃ m', load path address size m = .error (.failed .overlappingSystem) m' ∧
      m'.memory = m.memory
  /-- The bytes that are reported lie in RAM, and they are all of the range unless a read that was
  bound to give nothing has been used up. -/
  loaded : ∀ n m', load path address size m = .ok n m' →
    ∃ data, m.drive.volume.fileAt? path = some data ∧
      n ≤ m.drive.volume.loadLength path size ∧
      m'.memory.slice address n = .ok (data.toList.take n) ∧
      (m'.drive.blanks = m.drive.blanks → n = m.drive.volume.loadLength path size)

variable {m m' : Machine} {data : Bytes} {address count n : Nat}

theorem Admitted.below_system (h : Admitted m address count) (hm : m.Mapped) (hn : 0 < count) :
    address + count ≤ m.settings.memory.systemAddress := by
  have hend := h.le_end
  have hfree := h.free
  have hle := hm.valid.ramStart_le
  rw [hm.spans.base, hm.spans.size] at hend
  have hlast : address ≤ m.settings.memory.lastRam := by omega
  unfold MemoryMap.overlapsSystem at hfree
  simpa [hlast] using hfree

/-- A byte that lies behind what was put in place, or before it, is as it was. -/
theorem Filled.byte?_eq (h : Filled data (address - m.memory.base) 0 n m m')
    (hb : 0 < n → m.memory.base ≤ address) {a : Nat} (ha : ¬ (address ≤ a ∧ a < address + n)) :
    m'.memory.byte? a = m.memory.byte? a := by
  unfold Memory.byte?
  rw [h.base, h.size]
  split
  · rw [h.cell, if_neg]
    intro hj
    exact ha (by omega)
  · rfl

theorem Filled.slice_eq (h : Filled data (address - m.memory.base) 0 n m m')
    (ha : Admitted m address count) (hn : n ≤ count) (hd : n ≤ data.size) :
    m'.memory.slice address n = .ok (data.toList.take n) := by
  have hbase := ha.base_le
  have hend := ha.le_end
  have hoff : m'.memory.offset? address n = .ok (address - m.memory.base) := by
    unfold Memory.offset?
    rw [h.base, h.size, if_neg (by omega)]
  unfold Memory.slice
  rw [hoff]
  simp only [bind, Except.bind, pure, Except.pure, Except.ok.injEq]
  apply List.ext_getElem
  · simp [hd]
  · intro j hj _
    rw [List.length_map, List.length_range'] at hj
    rw [List.getElem_map, List.getElem_range', h.cell, if_pos (by omega), List.getElem_take,
      Bytes.byteAt_eq, List.getElem?_eq_getElem (by rw [Bytes.length_toList]; omega)]
    simp

/-- A range that meets the system area is refused once the file is open. -/
theorem load_refused {path : Text} {size h : Nat} (ho : drive (Drive.openFile path .read) m = .ok h m')
    (hw : m.drive.waiting .fileSize = 0)
    (hover : m.settings.memory.overlapsSystem address (m.drive.volume.loadLength path size) = true) :
    ∃ m', load path address size m = .error (.failed .overlappingSystem) m' ∧
      m'.memory = m.memory := by
  obtain ⟨d, hopen, rfl⟩ := drive_ok_inv ho
  obtain ⟨key, data, hfile, hr, _, hwait⟩ := Drive.openFile_read_ok hopen
  rcases withFile_cases path .read (loadFrom address size) m with ⟨e, d', ho', _⟩ | ⟨h', d', ho', hx⟩
  · rw [hopen] at ho'
    cases ho'
  · rw [hopen] at ho'
    cases ho'
    have hlen : m.drive.volume.loadLength path size =
        if size = 0 then data.size else min data.size size := by
      simp only [Volume.loadLength, hfile, Option.map_some, Option.getD_some]
    rw [hlen] at hover
    rcases loadFrom_cases address size (m := { m with drive := d }) hr with
      ⟨e, d', hl, _, he⟩ | ⟨d', hadm, _⟩
    · rw [hw] at hwait
      cases he hwait hover
      exact ⟨_, by rw [load_eq, hx, closing_error hl], by rw [after_drive]⟩
    · have hfree := hadm.free
      simp only [hover] at hfree
      cases hfree

theorem loadLaw_of_mapped (hm : m.Mapped) (path : Text) (address size : Nat) :
    LoadLaw path address size m := by
  obtain ⟨n, hn, hf, hadm, hok⟩ := load_spec path address size m
  refine
    { outside := ?_
      system := ?_
      refused := ?_
      loaded := ?_ }
  · intro a ha
    refine hf.byte?_eq (fun h => (hadm h).base_le) ?_
    omega
  · intro a ha
    refine hf.byte?_eq (fun h => (hadm h).base_le) ?_
    rintro ⟨hlow, hhigh⟩
    have hpos : 0 < n := by omega
    have hbelow := (hadm hpos).below_system hm (by omega)
    omega
  · rintro h m' ho hw ⟨a, hlow, hhigh, hsys, hlast⟩
    refine load_refused ho hw ?_
    unfold MemoryMap.overlapsSystem
    rw [Bool.and_eq_true, decide_eq_true_eq, decide_eq_true_eq]
    omega
  · intro r m' hr
    obtain ⟨rfl, ha, hfile, hshort⟩ := hok r m' hr
    refine ⟨_, hfile, hn, ?_, fun hb => ?_⟩
    · rw [after_ok hr] at hf
      refine hf.slice_eq ha hn ?_
      have hle : m.drive.volume.loadLength path size ≤
          ((m.drive.volume.fileAt? path).map Bytes.size).getD 0 := by
        unfold Volume.loadLength
        simp only
        split <;> omega
      rw [hfile, Option.map_some, Option.getD_some] at hle
      omega
    · rcases Nat.lt_or_ge r (m.drive.volume.loadLength path size) with hlt | hge
      · have hless := hshort hlt
        omega
      · exact Nat.le_antisymm hn hge

theorem mapped_load (hm : m.Mapped) (path : Text) (address size : Nat) :
    ((load path address size).after m).Mapped := by
  obtain ⟨n, _, hf, _⟩ := load_spec path address size m
  refine ⟨by rw [hf.settings]; exact hm.valid, ?_, ?_⟩
  · rw [hf.base, hf.settings, hm.spans.base]
  · rw [hf.size, hf.settings, hm.spans.size]

end Shell

end CardShell
