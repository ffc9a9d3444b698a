import CardShell.Command.Dispatch

/-!
The calls that loaded programs make. They answer with a status, 0 for success, or with the count
or number that is asked for; none of them asks anything on the console.
-/

set_option autoImplicit false

namespace CardShell.Api

open Shell

variable {α : Type}

/-- The status that a computation ends with. -/
def status (x : Shell α) : Shell UInt8 := do return statusOf (← outcome x)

/-- The value that a computation ends with, or `default` if it fails. -/
def orElse (default : α) (x : Shell α) : Shell α := do
  match ← outcome x with
  | .ok a => return a
  | .error _ => return default

def runLine (line : Text) : Shell UInt8 := status (execute line false)

def list (path : Text) : Shell UInt8 := status (Shell.list path false)

def delete (path : Text) : Shell UInt8 := status (Shell.delete path true false)

def rename (src dst : Text) : Shell UInt8 := status (Shell.rename src dst false)

def copy (src dst : Text) : Shell UInt8 := status (Shell.copy src dst false)

def makeDirectory (path : Text) : Shell UInt8 := status (drive (Drive.makeDirectory path))

def changeDirectory (path : Text) : Shell UInt8 := do
  let s ← status (drive (Drive.changeDirectory path))
  refreshDirectory
  return s

def load (path : Text) (address size : Nat) : Shell UInt8 := status (Shell.load path address size)

def save (path : Text) (address size : Nat) : Shell UInt8 := status (Shell.save path address size)

/-- The number of the opened file, or 0. -/
def openFile (path : Text) (mode : UInt8) : Shell UInt8 :=
  orElse 0 (files (FileTable.openFile path ⟨mode⟩))

/-- Closes a file, or all for 0, and returns the number it was given. -/
def closeFile (number : UInt8) : Shell UInt8 := do
  discard (outcome (files (FileTable.close number)))
  return number

def handle (number : UInt8) : Shell Nat := do ofExcept ((← get).files.handle? number)

/-- Set in the answer of `getByte` once the file is at its end. -/
def endBit : Nat := 256

/-- The next byte, with `endBit` once the read leaves the file at its end; 0 on failure. -/
def getByte (number : UInt8) : Shell Nat := orElse 0 do
  let h ← handle number
  let bytes ← drive (Drive.read h 1)
  let atEnd ← drive (Drive.atEnd h)
  return (bytes.headD 0).toNat + if atEnd then endBit else 0

def putByte (number byte : UInt8) : Shell UInt8 := status do
  let h ← handle number
  if (← drive (Drive.write h [byte])) ≠ 1 then fail .denied

def read (number : UInt8) (address count : Nat) : Shell Nat := orElse 0 do
  let h ← handle number
  let i ← askMemory fun m => m.offset? address count
  let bytes ← drive (Drive.read h count)
  modify fun m => { m with memory := m.memory.store i bytes }
  return bytes.length

def write (number : UInt8) (address count : Nat) : Shell Nat := orElse 0 do
  let h ← handle number
  let bytes ← askMemory fun m => m.slice address count
  drive (Drive.write h bytes)

def seek (number : UInt8) (offset : Nat) : Shell UInt8 := status do
  let h ← handle number
  drive (Drive.seek h offset)

def atEnd (number : UInt8) : Shell UInt8 := do
  return if ← orElse false (do drive (Drive.atEnd (← handle number))) then 1 else 0

def errorText (code : UInt8) : Text := Error.messageFor code

end CardShell.Api
