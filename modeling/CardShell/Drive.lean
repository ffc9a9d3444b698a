import CardShell.Volume.Files
import CardShell.Glob

/-!
The card's driver: a volume whose primitives can be made to fail once, on cue. A fault waits for
its primitive to be called `after` times and fires on the call after that. A read may also give
less than it was asked for.
-/

set_option autoImplicit false

namespace CardShell

/-- What a fault can be set on. The last three make a primitive fall short instead of fail. -/
inductive Primitive
  | mount | label | currentDirectory | changeDirectory | stat | makeDirectory | unlink | rename
  | openFile | closeFile | read | write | seek | atEnd | fileSize
  | openListing | readListing | closeListing
  | shortWrite | shortRead | endListing
  deriving DecidableEq, Repr, Inhabited

structure Fault where
  on : Primitive
  after : Nat
  code : UInt8
  deriving DecidableEq, Repr, Inhabited

/-- What the faults do on a call of `p`: the first one set on `p` fires and is gone, or counts the
call. -/
def Fault.consult (p : Primitive) : List Fault → Option UInt8 × List Fault
  | [] => (none, [])
  | f :: fs =>
    if f.on = p then
      match f.after with
      | 0 => (some f.code, fs)
      | n + 1 => (none, { f with after := n } :: fs)
    else
      let (code, fs) := consult p fs
      (code, f :: fs)

structure Drive where
  volume : Volume
  faults : List Fault := []
  /-- The most bytes that each of the coming reads gives; behind the list a read gives all it can. -/
  portions : List Nat := []
  deriving Inhabited

abbrev DriveAction := Action Error Drive

namespace Drive

variable {α : Type}

def fired (p : Primitive) : DriveAction (Option UInt8) := modifyGet fun d =>
  let (code, faults) := Fault.consult p d.faults
  (code, { d with faults := faults })

def check (p : Primitive) : DriveAction Unit := do
  match (← fired p).bind Error.ofCode? with
  | some e => throw e
  | none => return

def onVolume (x : VolumeAction α) : DriveAction α :=
  Action.zoom Drive.volume (fun v d => { d with volume := v }) id x

def ask (p : Primitive) (f : Volume → Except Error α) : DriveAction α := do
  check p
  onVolume (Action.query f)

def change (p : Primitive) (x : VolumeAction α) : DriveAction α := do
  check p
  onVolume x

/-- A close releases the handle even when a fault fires; the fault's error wins. -/
def release (p : Primitive) (x : VolumeAction Unit) : DriveAction Unit := do
  let code ← fired p
  let result ← Action.outcome (onVolume x)
  match code.bind Error.ofCode? with
  | some e => throw e
  | none => Action.ofExcept result

def mount : DriveAction Unit := change .mount (modify Volume.mount)

def label : DriveAction Text := ask .label fun v => .ok v.label

def currentDirectory : DriveAction Text := ask .currentDirectory fun v => .ok v.currentDirectory

def changeDirectory (path : Text) : DriveAction Unit :=
  change .changeDirectory (Volume.changeDirectory path)

def stat (path : Text) : DriveAction Entry := ask .stat fun v => v.stat path

def makeDirectory (path : Text) : DriveAction Unit := change .makeDirectory (Volume.makeDirectory path)

def unlink (path : Text) : DriveAction Unit := change .unlink (Volume.unlink path)

def rename (source target : Text) : DriveAction Unit := change .rename (Volume.rename source target)

def openFile (path : Text) (mode : OpenMode) : DriveAction Nat :=
  change .openFile (Volume.openFile path mode)

def closeFile (h : Nat) : DriveAction Unit := release .closeFile (Volume.closeFile h)

/-- How much of `count` the next read may give. -/
def portion (count : Nat) : DriveAction Nat := modifyGet fun d =>
  (min count (d.portions.headD count), { d with portions := d.portions.tail })

def read (h count : Nat) : DriveAction (List UInt8) := do
  check .read
  if (← fired .shortRead).isSome then return []
  else onVolume (Volume.read h (← portion count))

def write (h : Nat) (bytes : List UInt8) : DriveAction Nat := do
  check .write
  if (← fired .shortWrite).isSome then
    onVolume (Volume.write h (bytes.take (bytes.length / 2)))
  else onVolume (Volume.write h bytes)

def seek (h offset : Nat) : DriveAction Unit := change .seek (Volume.seek h offset)

def tell (h : Nat) : DriveAction Nat := onVolume (Action.query fun v => v.tell h)

def atEnd (h : Nat) : DriveAction Bool := ask .atEnd fun v => v.atEnd h

def fileSize (h : Nat) : DriveAction Nat := ask .fileSize fun v => v.fileSize h

def openListing (path : Text) : DriveAction Nat := change .openListing (Volume.openListing path)

def readListing (h : Nat) : DriveAction (Option Entry) := do
  check .readListing
  if (← fired .endListing).isSome then return none else onVolume (Volume.readListing h)

def closeListing (h : Nat) : DriveAction Unit := release .closeListing (Volume.closeListing h)

def findWithin (pattern : Text) (h : Nat) : (fuel : Nat) → DriveAction (Option Entry)
  | 0 => return none
  | fuel + 1 => do
    match ← readListing h with
    | none => return none
    | some e => if Glob.isMatch pattern e.name then return some e else findWithin pattern h fuel

def findNext (h : Nat) (pattern : Text) : DriveAction (Option Entry) := do
  findWithin pattern h ((← get).volume.pending h + 1)

/-- Opens a directory and finds the first match. The handle stays open unless the search fails. -/
def findFirst (path pattern : Text) : DriveAction (Nat × Option Entry) := do
  let h ← openListing path
  match ← Action.outcome (findNext h pattern) with
  | .ok e => return (h, e)
  | .error e => do
    let _ ← Action.outcome (δ := Error) (closeListing h)
    throw e

def succeeds (x : DriveAction α) : DriveAction Bool := do
  return (← Action.outcome x).isOk

def isThere (path : Text) : DriveAction Bool := succeeds (stat path)

def isDirectory (path : Text) : DriveAction Bool := do
  match ← Action.outcome (stat path) with
  | .ok e => return e.isDirectory
  | .error _ => return false

def withFile (path : Text) (mode : OpenMode) (body : Nat → DriveAction α) : DriveAction α := do
  let h ← openFile path mode
  Action.closing (closeFile h) (body h)

/-- Reads in pieces of 512 bytes until a read gives nothing. -/
def readRest (h : Nat) : (fuel : Nat) → DriveAction (List UInt8)
  | 0 => return []
  | fuel + 1 => do
    let bytes ← read h 512
    if bytes = [] then return [] else return bytes ++ (← readRest h fuel)

def readToEnd (path : Text) : DriveAction (List UInt8) :=
  withFile path .read fun h => do readRest h ((← get).volume.remaining h + 1)

def writeAll (path : Text) (data : List UInt8) : DriveAction Unit :=
  withFile path (.write ∪ .createAlways) fun h => do
    if (← write h data) < data.length then throw .denied

end Drive

end CardShell
