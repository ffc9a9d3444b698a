import CardShell.Volume.Basic

/-!
The operations of a volume on paths: what is there, making, removing and moving entries, and the
current directory.
-/

set_option autoImplicit false

namespace CardShell.Volume

def stat (v : Volume) (typed : Text) : Except Error Entry := do
  let (_, n) ← v.find typed
  return n.entry

def currentDirectory (v : Volume) : Text := v.directory.text

/-- Forgets all open files and enumerations and goes back to the root. -/
def mount (v : Volume) : Volume := { v with files := [], listings := [], directory := [] }

def changeDirectory (typed : Text) : VolumeAction Unit := do
  let v ← get
  match v.find typed with
  | .ok (_, n) =>
    if n.isDirectory then set { v with directory := n.path } else throw .noPath
  | .error _ => throw .noPath

def makeDirectoryAt (p : Path) : VolumeAction Unit := do
  let v ← get
  if (v.node? p.key).isSome then throw .alreadyExists
  let stored ← Action.ofExcept (v.newPath p)
  set (v.insert stored .directory)

def makeDirectory (typed : Text) : VolumeAction Unit := do
  makeDirectoryAt (← Action.query fun v => v.resolve typed)

def unlink (typed : Text) : VolumeAction Unit := do
  let v ← get
  let (key, n) ← Action.ofExcept (v.find typed)
  if key = [] ∨ n.attributes.isReadOnly then throw .denied
  if n.isDirectory ∧ (v.hasChildren key ∨ key = v.directory.key) then throw .denied
  if v.isOpen key then throw .locked
  set { v with nodes := v.nodes.erase key }

/-- Renames or moves an entry, which then comes last in its directory, with all below it; never
onto another one, and never below itself. -/
def rename (source target : Text) : VolumeAction Unit := do
  let v ← get
  let (key, n) ← Action.ofExcept (v.find source)
  if key = [] then throw .denied
  let p ← Action.ofExcept (v.resolve target)
  if p.key ≠ key ∧ (v.node? p.key).isSome then throw .alreadyExists
  if key.isBelow p.key then throw .invalidName
  if v.isOpen key then throw .locked
  let new ← Action.ofExcept (v.newPath p)
  let move (n : Node) : Node := { n with path := Path.reroot new key.length n.path }
  set { v with
    nodes := (v.nodes.erase key).put { move n with order := v.nextOrder } new.key
      ((v.nodes.inside key).map move)
    nextOrder := v.nextOrder + 1
    directory :=
      if key.isUnder v.directory.key then Path.reroot new key.length v.directory else v.directory }

/-- The paths from the first name of `p` down to `p`. -/
def ancestry (p : Path) : List Path := (List.range p.length).map fun i => p.take (i + 1)

def ensureDirectory (p : Path) : VolumeAction Unit := do
  match (← get).node? p.key with
  | some n => if n.isDirectory then return else throw .noPath
  | none => makeDirectoryAt p

def makeDirectories (typed : Text) : VolumeAction Unit := do
  let p ← Action.query fun v => v.resolve typed
  (ancestry p).forM ensureDirectory

/-- Sets all attribute bits but the directory bit. -/
def setAttributes (typed : Text) (bits : UInt8) : VolumeAction Unit := do
  let v ← get
  let (key, _) ← Action.ofExcept (v.find typed)
  set (v.updateNode key fun n => { n with attributes := ⟨bits &&& ~~~Attributes.directoryBit⟩ })

def list (v : Volume) (typed : Text) : Except Error (List Text) := do
  let (key, n) ← v.find typed
  if n.isDirectory then return (v.children key).map Entry.name else throw .noPath

/-- The nodes below `key`, each directory right before what it holds; `depth` bounds the descent. -/
def nodesBelow (v : Volume) : (depth : Nat) → (key : Path) → List Node
  | 0, _ => []
  | depth + 1, key => (v.childNodes key).flatMap fun n =>
    n :: if n.isDirectory then nodesBelow v depth n.path.key else []

def allNodes (v : Volume) : List Node := v.nodesBelow v.nodes.size []

end CardShell.Volume
