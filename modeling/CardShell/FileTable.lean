import CardShell.Drive

/-!
The numbers by which programs know their open files: slot `i` has number `i + 1`, cut to 8 bits.
Slots beyond `slots` are free.
-/

set_option autoImplicit false

namespace CardShell

structure FileTable where
  capacity : Nat
  slots : List (Option Nat) := []
  deriving DecidableEq, Repr, Inhabited

namespace FileTable

/-- The handles in the table, in the order of their slots. -/
def handles (t : FileTable) : List Nat := t.slots.filterMap id

def openCount (t : FileTable) : Nat := t.handles.length

def free? (t : FileTable) : Option Nat :=
  match t.slots.findIdx? Option.isNone with
  | some i => some i
  | none => if t.slots.length < t.capacity then some t.slots.length else none

def put (t : FileTable) (i h : Nat) : FileTable :=
  { t with slots := if i < t.slots.length then t.slots.set i (some h) else t.slots ++ [some h] }

def at? (t : FileTable) (i : Nat) : Option Nat := (t.slots[i]?).join

def clear (t : FileTable) (i : Nat) : FileTable := { t with slots := t.slots.set i none }

def clearAll (t : FileTable) : FileTable := { t with slots := [] }

def handle? (t : FileTable) (number : UInt8) : Except Error Nat :=
  match number.toNat with
  | 0 => .error .invalidObject
  | i + 1 => match t.at? i with
    | some h => .ok h
    | none => .error .invalidObject

/-- Closes all of `hs` and reports the first failure. -/
def closeEach : List Nat → DriveAction Unit
  | [] => return
  | h :: hs => do
    let first ← Action.outcome (Drive.closeFile h)
    let rest ← Action.outcome (closeEach hs)
    Action.ofExcept first
    Action.ofExcept rest

abbrev TableAction := Action Error (FileTable × Drive)

def onDrive {α : Type} (x : DriveAction α) : TableAction α :=
  Action.zoom Prod.snd (fun d s => (s.1, d)) id x

def openFile (path : Text) (mode : OpenMode) : TableAction UInt8 := do
  match (← get).1.free? with
  | none => throw .tooManyOpenFiles
  | some i =>
    let h ← onDrive (Drive.openFile path mode)
    modify fun s => (s.1.put i h, s.2)
    return UInt8.ofNat (i + 1)

/-- Closes one number; a number that names no slot closes all. -/
def close (number : UInt8) : TableAction Unit := do
  let t := (← get).1
  let n := number.toNat
  if 1 ≤ n ∧ n ≤ t.capacity then
    match t.at? (n - 1) with
    | none => return
    | some h =>
      modify fun s => (s.1.clear (n - 1), s.2)
      onDrive (Drive.closeFile h)
  else
    modify fun s => (s.1.clearAll, s.2)
    onDrive (closeEach t.handles)

end FileTable

end CardShell
