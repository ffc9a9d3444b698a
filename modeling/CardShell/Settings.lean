import CardShell.Error

/-!
The settings of a machine, with the defaults of the stock layout, and what is wrong with them.
-/

set_option autoImplicit false

namespace CardShell

/-- Addresses of the external RAM; `systemAddress` is the first byte kept for the firmware. -/
structure MemoryMap where
  ramStart : Nat := 0x040000
  lastRam : Nat := 0x0BFFFF
  systemAddress : Nat := 0x0BC000
  defaultLoadAddress : Nat := 0x040000
  starLoadAddress : Nat := 0x0B0000
  deriving DecidableEq, Repr, Inhabited

structure DisplaySettings where
  columns : Nat := 80
  colours : Nat := 16
  textPalette : Bool := true
  deriving DecidableEq, Repr, Inhabited

/-- Where command words without a record are looked up. -/
structure SearchSettings where
  commandDir : Text := "/mos/"
  binaryDir : Text := "/bin/"
  extension : Text := ".bin"
  maxCommandLength : Nat := 246
  deriving DecidableEq, Repr, Inhabited

structure StorageSettings where
  volumeLabel : Text := []
  maxOpenFiles : Nat := 8
  copyChunk : Nat := 1024
  deriving DecidableEq, Repr, Inhabited

structure Settings where
  memory : MemoryMap := {}
  display : DisplaySettings := {}
  search : SearchSettings := {}
  storage : StorageSettings := {}
  heapSize : Nat := 32768
  deriving DecidableEq, Repr, Inhabited

namespace Settings

/-- The system area lies in RAM, and the widths that divide are not 0. -/
structure Valid (s : Settings) : Prop where
  ramStart_le : s.memory.ramStart ≤ s.memory.lastRam
  ramStart_le_system : s.memory.ramStart ≤ s.memory.systemAddress
  system_le : s.memory.systemAddress ≤ s.memory.lastRam
  columns_ne : s.display.columns ≠ 0
  chunk_ne : s.storage.copyChunk ≠ 0

def addressText (a : Nat) : Text := "&" ++ Numeral.hexUpper 6 a

/-- What is wrong with the settings, the first fault first. -/
def fault? (s : Settings) : Option Text :=
  let m := s.memory
  if m.lastRam < m.ramStart then
    some ("ram_start " ++ addressText m.ramStart ++ " is above last_ram " ++ addressText m.lastRam)
  else if m.systemAddress < m.ramStart ∨ m.lastRam < m.systemAddress then
    some ("system_address " ++ addressText m.systemAddress ++ " is outside RAM")
  else if s.display.columns = 0 then some "display.columns must be non-zero"
  else if s.storage.copyChunk = 0 then some "storage.copy_chunk must be non-zero"
  else none

def checked (s : Settings) : Except Error Settings :=
  match s.fault? with
  | some reason => .error (.badSettings reason)
  | none => .ok s

theorem fault?_eq_none_iff (s : Settings) : s.fault? = none ↔ s.Valid := by
  have ite_none {p : Prop} [Decidable p] (t : Text) (o : Option Text) :
      (if p then some t else o) = none ↔ ¬ p ∧ o = none := by
    by_cases h : p <;> simp [h]
  unfold fault?
  simp only [ite_none, and_true]
  constructor
  · rintro ⟨h1, h2, h3, h4⟩
    exact ⟨by omega, by omega, by omega, h3, h4⟩
  · rintro ⟨h1, h2, h3, h4, h5⟩
    exact ⟨by omega, by omega, h4, h5⟩

end Settings

end CardShell
