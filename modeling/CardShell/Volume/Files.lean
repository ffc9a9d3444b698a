import CardShell.Volume.Tree

/-!
The operations of a volume on handles. A file is one array of bytes however many handles are open
on it, and each handle has a position of its own. An enumeration gives the entries its directory
had when it was opened.
-/

set_option autoImplicit false

namespace CardShell.Volume

/-- What opening does to the tree: checks the mode against what is there, and makes or empties
the file if the mode asks for it. -/
def prepare (v : Volume) (p : Path) (mode : OpenMode) : Except Error Volume :=
  match v.node? p.key with
  | some n =>
    if n.isDirectory then .error .denied
    else if mode.contains .createNew then .error .alreadyExists
    else if mode.contains .write && n.attributes.isReadOnly then .error .denied
    else if mode.contains .createAlways then
      .ok (v.updateNode p.key fun n => { n with content := .file (.ofList []), stamp := v.stamp })
    else .ok v
  | none =>
    if mode.contains .createNew || mode.contains .createAlways || mode.contains .openAlways then
      (v.newPath p).map fun stored => v.insert stored (.file (.ofList []))
    else .error (v.missing p)

def openFile (typed : Text) (mode : OpenMode) : VolumeAction Nat := do
  let v ← get
  let p ← Action.ofExcept (v.resolve typed)
  set (← Action.ofExcept (v.prepare p mode))
  let position ←
    if mode.contains .append then
      Bytes.size <$> Action.query (fun v => v.dataAt p.key)
    else pure 0
  let h ← takeHandle
  modify fun v => { v with files := v.files.set h ⟨p.key, position, mode⟩ }
  return h

def closeFile (h : Nat) : VolumeAction Unit := do
  let v ← get
  if v.files.has h then set { v with files := v.files.erase h } else throw .invalidObject

def read (h count : Nat) : VolumeAction (List UInt8) := do
  let v ← get
  let f ← Action.ofExcept (v.openFile? h)
  if !f.mode.contains .read then throw .denied
  let data ← Action.ofExcept (v.dataAt f.key)
  let bytes := data.slice f.position count
  set (v.updateFile h fun f => { f with position := f.position + bytes.length })
  return bytes

def write (h : Nat) (bytes : List UInt8) : VolumeAction Nat := do
  let v ← get
  let f ← Action.ofExcept (v.openFile? h)
  if !f.mode.contains .write then throw .denied
  let data ← Action.ofExcept (v.dataAt f.key)
  let v := v.updateNode f.key fun n =>
    { n with content := .file (data.splice f.position bytes), stamp := v.stamp }
  set (v.updateFile h fun f => { f with position := f.position + bytes.length })
  return bytes.length

/-- Moves the position; past the end of a file open for writing the file grows. -/
def seek (h offset : Nat) : VolumeAction Unit := do
  let v ← get
  let f ← Action.ofExcept (v.openFile? h)
  let data ← Action.ofExcept (v.dataAt f.key)
  if data.size < offset ∧ f.mode.contains .write then
    let v := v.updateNode f.key fun n => { n with content := .file (data.extend offset) }
    set (v.updateFile h fun f => { f with position := offset })
  else
    set (v.updateFile h fun f => { f with position := min offset data.size })

def tell (v : Volume) (h : Nat) : Except Error Nat := do
  let f ← v.openFile? h
  return f.position

def fileSize (v : Volume) (h : Nat) : Except Error Nat := do
  let f ← v.openFile? h
  let data ← v.dataAt f.key
  return data.size

def atEnd (v : Volume) (h : Nat) : Except Error Bool := do
  let f ← v.openFile? h
  let data ← v.dataAt f.key
  return decide (data.size ≤ f.position)

/-- How many bytes `h` has still to read; 0 for a handle that reads nothing. -/
def remaining (v : Volume) (h : Nat) : Nat :=
  match v.openFile? h with
  | .ok f => match v.dataAt f.key with
    | .ok data => data.size - f.position
    | .error _ => 0
  | .error _ => 0

def openListing (typed : Text) : VolumeAction Nat := do
  let v ← get
  match v.find typed with
  | .ok (key, n) =>
    if !n.isDirectory then throw .noPath
    let h ← takeHandle
    modify fun v' => { v' with listings := v'.listings.set h (v.children key) }
    return h
  | .error .noFile => throw .noPath
  | .error e => throw e

def readListing (h : Nat) : VolumeAction (Option Entry) := do
  let v ← get
  match v.listings.get? h with
  | none => throw .invalidObject
  | some [] => return none
  | some (e :: es) =>
    set { v with listings := v.listings.set h es }
    return some e

def closeListing (h : Nat) : VolumeAction Unit := do
  let v ← get
  if v.listings.has h then set { v with listings := v.listings.erase h } else throw .invalidObject

def pending (v : Volume) (h : Nat) : Nat := ((v.listings.get? h).getD []).length

def contents (v : Volume) (typed : Text) : Except Error (List UInt8) := do
  let (_, n) ← v.find typed
  match n.data? with
  | some data => return data.toList
  | none => throw .noFile

/-- Makes or replaces a file, and the directories above it that are missing. -/
def writeFile (typed : Text) (data : List UInt8) : VolumeAction Unit := do
  let p ← Action.query fun v => v.resolve typed
  makeDirectories p.parent.text
  let h ← openFile p.text (.write ∪ .createAlways)
  Action.closing (closeFile h) do
    if (← write h data) < data.length then throw .denied

end CardShell.Volume
