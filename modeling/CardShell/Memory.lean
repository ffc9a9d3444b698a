import CardShell.Bytes
import CardShell.Error
import CardShell.Settings

/-!
The external RAM from `base` on. Cells that were never written hold 0, so only the part up to the
last written cell is kept.
-/

set_option autoImplicit false

namespace CardShell

structure Memory where
  base : Nat
  size : Nat
  cells : Bytes := .ofList []
  deriving Inhabited

namespace Memory

def ofMap (map : MemoryMap) : Memory := { base := map.ramStart, size := map.lastRam - map.ramStart + 1 }

def cell (m : Memory) (i : Nat) : UInt8 := m.cells.byteAt i

/-- One past the last address, in 32 bits. -/
def limit (m : Memory) : Nat := (m.base + m.size) % 0x100000000

/-- The offset of `address`, if the `count` bytes from there lie in RAM. -/
def offset? (m : Memory) (address count : Nat) : Except Error Nat :=
  if address < m.base ∨ m.size < address - m.base + count then .error .invalidParameter
  else .ok (address - m.base)

def slice (m : Memory) (address count : Nat) : Except Error (List UInt8) := do
  let i ← m.offset? address count
  return (List.range' i count).map m.cell

/-- How many bytes lie from `address` to the end of RAM. -/
def tailLength (m : Memory) (address : Nat) : Except Error Nat := do
  let count := m.limit - address
  let _ ← m.offset? address count
  return count

/-- The byte `i` places behind `address`, among the `count` bytes from there. -/
def tail? (m : Memory) (address count i : Nat) : Option UInt8 :=
  if i < count then some (m.cell (address - m.base + i)) else none

/-- Stores `bytes` from offset `i` on. -/
def store (m : Memory) (i : Nat) (bytes : List UInt8) : Memory :=
  { m with cells := m.cells.splice i bytes }

def poke (m : Memory) (address : Nat) (bytes : List UInt8) : Except Error Memory := do
  let i ← m.offset? address bytes.length
  return m.store i bytes

end Memory

end CardShell
