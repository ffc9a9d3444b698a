import CardShell.Clock
import CardShell.Command.Table
import CardShell.Console
import CardShell.Executor
import CardShell.FileTable
import CardShell.Halt
import CardShell.Heap
import CardShell.Memory
import CardShell.Variable.Expand

/-!
The machine: the card and what programs have open on it, heap and RAM, console, clock and
executor, and what the shell keeps from one command to the next.
-/

set_option autoImplicit false

namespace CardShell

def hotkeyCount : Nat := 12

structure Machine where
  settings : Settings
  drive : Drive
  files : FileTable
  heap : Heap
  memory : Memory
  console : Console
  clock : Clock
  executor : Executor
  /-- The current directory as the shell shows it. -/
  directory : Text
  table : List Record
  store : Variables
  hotkeys : Vector (Option Text) hotkeyCount
  cardDelay : Bool
  deriving Inhabited

namespace Machine

def boot (settings : Settings) (volume : Volume) (table : List Record) (console : Console)
    (clock : Clock) (executor : Executor) : Machine where
  settings := settings
  drive := { volume := volume }
  files := { capacity := settings.storage.maxOpenFiles }
  heap := { capacity := settings.heapSize }
  memory := .ofMap settings.memory
  console := console
  clock := clock
  executor := executor
  directory := volume.currentDirectory
  table := table
  store := .system
  hotkeys := .replicate hotkeyCount none
  cardDelay := false

def readings (m : Machine) : Readings := ⟨m.clock.now, m.directory⟩

def hotkey? (m : Machine) : (n : Nat) → Option Text
  | 0 => none
  | n + 1 => (m.hotkeys[n]?).join

/-- The prompt, or `*` if it cannot be expanded. -/
def prompt (m : Machine) : Text :=
  match m.store.get? "CLI$Prompt" with
  | none => "*"
  | some v => match Expand.value m.store m.readings v.value with
    | .ok t => t
    | .error _ => "*"

end Machine

abbrev Shell := Action Halt Machine

namespace Shell

variable {α : Type}

def fail (e : Error) : Shell α := throw (.failed e)

def stop (why : Stop) : Shell α := throw (.stopped why)

/-- A part of the machine at work; its errors are failures. -/
def on {τ : Type} (part : Machine → τ) (put : τ → Machine → Machine) (x : Action Error τ α) :
    Shell α :=
  Action.zoom part put .failed x

def drive (x : DriveAction α) : Shell α := on Machine.drive (fun d m => { m with drive := d }) x

def heap (x : Action Error Heap α) : Shell α := on Machine.heap (fun h m => { m with heap := h }) x

def files (x : FileTable.TableAction α) : Shell α :=
  on (fun m => (m.files, m.drive)) (fun s m => { m with files := s.1, drive := s.2 }) x

def executor (x : Action Error Executor α) : Shell α :=
  on Machine.executor (fun e m => { m with executor := e }) x

def ofExcept (x : Except Error α) : Shell α := Action.ofExcept (Halt.ofExcept x)

def askMemory (f : Memory → Except Error α) : Shell α := do ofExcept (f (← get).memory)

/-- The outcome as a value; a stop stays a stop. -/
def outcome (x : Shell α) : Shell (Except Error α) := fun m =>
  match x m with
  | .ok a m => .ok (.ok a) m
  | .error (.failed e) m => .ok (.error e) m
  | .error (.stopped why) m => .error (.stopped why) m

def printBytes (bytes : List UInt8) : Shell Unit :=
  modify fun m => { m with console := m.console.put bytes }

def print (t : Text) : Shell Unit := printBytes t.bytes

def report (e : Error) : Shell Unit := print ("\r\n" ++ e.message ++ "\r\n")

def readLine (max : Nat) : Shell LineInput := modifyGet fun m =>
  let (input, console) := m.console.readLine max
  (input, { m with console := console })

def release (bytes : Nat) : Shell Unit := modify fun m => { m with heap := m.heap.release bytes }

def releaseTexts : List Text → Shell Unit
  | [] => return
  | t :: ts => do
    release (Heap.textBlock t)
    releaseTexts ts

def reserveTexts : List Text → Shell (Except Error Unit)
  | [] => return .ok ()
  | t :: ts => do
    match ← outcome (heap (Heap.reserve (Heap.textBlock t))) with
    | .error e => return .error e
    | .ok _ => match ← reserveTexts ts with
      | .ok _ => return .ok ()
      | .error e => do
        release (Heap.textBlock t)
        return .error e

/-- `body` with texts on the heap, which leave it on every exit; `otherwise` where they do not
fit. -/
def withTexts (ts : List Text) (otherwise body : Shell α) : Shell α := do
  match ← reserveTexts ts with
  | .error _ => otherwise
  | .ok _ => Action.closing (releaseTexts ts) body

def withFile (path : Text) (mode : OpenMode) (body : Nat → Shell α) : Shell α := do
  let h ← drive (Drive.openFile path mode)
  Action.closing (drive (Drive.closeFile h)) (body h)

def withListing (path : Text) (body : Nat → Shell α) : Shell α := do
  let h ← drive (Drive.openListing path)
  Action.closing (drive (Drive.closeListing h)) (body h)

/-- Takes the current directory over from the card; stays as it is if the card fails. -/
def refreshDirectory : Shell Unit := do
  match ← outcome (drive Drive.currentDirectory) with
  | .ok path => modify fun m => { m with directory := path }
  | .error _ => return

/-- Sets the clock, and the display's before it. -/
def setClock (t : DateTime) : Shell Unit := do
  if !t.isValid ∨ t.year < 1980 ∨ 2235 < t.year then fail .invalidParameter
  printBytes [23, 0, 0x87, 1, UInt8.ofNat (t.year - 1980), UInt8.ofNat t.month, UInt8.ofNat t.day,
    UInt8.ofNat t.hour, UInt8.ofNat t.minute, UInt8.ofNat t.second]
  on Machine.clock (fun c m => { m with clock := c }) (Clock.set t)

/-- Sets or clears function key `n`, counted from 1, and returns what it held. -/
def setHotkey (n : Nat) (t : Option Text) : Shell (Option Text) := do
  let m ← get
  if h : n - 1 < hotkeyCount ∧ n ≠ 0 then
    set { m with hotkeys := m.hotkeys.set (n - 1) t h.1 }
    return m.hotkey? n
  else fail .invalidParameter

end Shell

end CardShell
