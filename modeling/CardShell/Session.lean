import CardShell.Command.Dispatch
import CardShell.Host.Import

/-!
The shell on a host: settings, volume, `autoexec.txt`, and the prompt until the input ends. How a text
is read as settings is a parameter.
-/

set_option autoImplicit false

namespace CardShell

namespace Shell

def lineLength : Nat := 255

def autoexecName : Text := "autoexec.txt"

def reporting (x : Shell Unit) : Shell Unit := do
  match ← outcome x with
  | .ok _ => return
  | .error e => report e

def autoexec : Shell Unit := do
  if ← drive (Drive.isThere autoexecName) then reporting (executeFile autoexecName)

/-- Prompts for a line and runs it; false once the input has ended. -/
def turn : Shell Bool := do
  print (← get).prompt
  match ← readLine lineLength with
  | .confirmed line => do
    reporting (execute line true)
    return true
  | .cancelled =>
    if (← get).console.atEnd then return false
    print "\r\nEscape\r\n"
    return true

def turns : (fuel : Nat) → Shell Unit
  | 0 => return
  | fuel + 1 => do if ← turn then turns fuel

/-- The number of turns that an input of `n` bytes can last: each but the last takes a byte. -/
def turnsFor (n : Nat) : Nat := n + 1

def prompting (inputSize : Nat) : Shell Unit := do
  turns (turnsFor inputSize)
  print "\r\n"

end Shell

namespace Host

/-- What the host was asked to supply: nothing, something that is not there, or something. -/
inductive Supply (α : Type)
  | unasked
  | missing
  | given (a : α)
  deriving Inhabited

structure Launch where
  settings : Supply Text
  root : Supply HostTree
  input : List UInt8
  /-- Seconds of the host's clock. -/
  seconds : Nat
  deriving Inhabited

def settingsOf (read : Text → Except Error Settings) : Supply Text → Except Error Settings
  | .unasked => .ok {}
  | .missing => .error .hostFile
  | .given t => read t

def volumeOf (s : Settings) (root : Supply HostTree) : Except Error Volume :=
  let fill : VolumeAction Unit := match root with
    | .unasked => Volume.populate
    | .missing => do
      Volume.makeDirectories "/"
      throw .hostFile
    | .given t => discard (Volume.importTree "/" t)
  match fill (.labelled s.storage.volumeLabel) with
  | .ok _ v => .ok v.mount
  | .error e _ => .error e

def console (s : Settings) (input : List UInt8) : Console where
  keyboard := .stream input false
  columns := s.display.columns
  colours := UInt8.ofNat s.display.colours
  foreground := 0
  background := 0

def machine (read : Text → Except Error Settings) (l : Launch) : Except Error Machine := do
  let s ← settingsOf read l.settings
  let v ← volumeOf s l.root
  return .boot s v Builtin.records (console s l.input) (.hosted l.seconds 0) .absent

/-- What the host sees: what was printed, and the exit status. -/
structure Result where
  output : List UInt8
  status : Nat
  fault : Option Error
  deriving Inhabited

def runWith (read : Text → Except Error Settings) (l : Launch) : Result :=
  match machine read l with
  | .error e => ⟨[], 1, some e⟩
  | .ok m =>
    let session : Shell Unit := do
      Shell.autoexec
      Shell.prompting l.input.length
    match session m with
    | .ok _ m => ⟨m.console.output, 0, none⟩
    | .error _ m => ⟨m.console.output, 101, none⟩

end Host

end CardShell
