import CardShell.Halt
import CardShell.Proofs.Flat.Range
import CardShell.Proofs.Text.Slice
import CardShell.Proofs.Volume.Operation

/-!
A volume as one map. Every entry stands under the lower-case form of its whole path, what a directory
holds is found by a scan of the keys, and a rename takes out and puts back one key after the other.
Paths are cut at byte offsets, and a cut inside a character would be a stop.
-/

set_option autoImplicit false

namespace CardShell

/-- An entry with the whole path, in the case it was made with. -/
structure FlatNode where
  path : Text
  content : Content
  stamp : Stamp
  attributes : Attributes
  order : Nat
  deriving DecidableEq, Repr, Inhabited

structure FlatFile where
  key : Text
  position : Nat
  mode : OpenMode
  deriving DecidableEq, Repr, Inhabited

structure FlatVolume where
  nodes : TextMap FlatNode
  directory : Text
  label : Text
  stamp : Stamp
  nextOrder : Nat
  files : Table Nat FlatFile
  listings : Table Nat (List Entry)
  nextHandle : Nat

abbrev FlatAction := Action Halt FlatVolume

namespace FlatVolume

/-- What a cut comes to; where there is no boundary the machine stops. -/
def cut {α : Type} : Option α → Except Halt α
  | some a => .ok a
  | none => .error (.stopped .cutCharacter)

def failed {α : Type} (e : Error) : Except Halt α := .error (.failed e)

/-- The path of the directory that an absolute path lies in. -/
def parentOf (path : Text) : Except Halt Text :=
  match Text.rfind? (· = '/') path with
  | none | some 0 => .ok ['/']
  | some i => cut (Text.upTo? i path)

def leafOf (path : Text) : Except Halt Text :=
  match Text.rfind? (· = '/') path with
  | none => .ok path
  | some i => if 1 < path.size then cut (Text.from? (i + 1) path) else .ok path

/-- What the keys begin with that lie below a key. -/
def childPrefix (key : Text) : Text := if key = ['/'] then ['/'] else key ++ ['/']

def join (dir name : Text) : Text := if dir = ['/'] then '/' :: name else dir ++ '/' :: name

end FlatVolume

namespace FlatNode

def isDirectory (n : FlatNode) : Bool := n.content == .directory

def data? (n : FlatNode) : Option Bytes :=
  match n.content with
  | .file data => some data
  | .directory => none

def entry (n : FlatNode) : Except Halt Entry := do
  return {
    name := ← FlatVolume.leafOf n.path
    size := (n.data?.map Bytes.size).getD 0
    stamp := n.stamp
    attributes :=
      if n.isDirectory then ⟨n.attributes.bits ||| Attributes.directoryBit⟩ else n.attributes }

end FlatNode

namespace FlatVolume

def labelled (label : Text) : FlatVolume where
  nodes := (∅ : TextMap FlatNode).insert ['/'] ⟨['/'], .directory, {}, {}, 0⟩
  directory := ['/']
  label := label
  stamp := {}
  nextOrder := 1
  files := []
  listings := []
  nextHandle := 1

/-- The absolute path that `typed` names, without parts that only move about. -/
def resolve (c : FlatVolume) (typed : Text) : Except Halt Text :=
  let joined := if typed.head? = some '/' then typed else c.directory ++ '/' :: typed
  Halt.ofExcept (((Text.splitOn '/' joined).foldlM Path.enter []).map Path.text)

def missing (c : FlatVolume) (path : Text) : Except Halt Error := do
  match c.nodes[(← parentOf path).lower]? with
  | some d => return if d.isDirectory then .noFile else .noPath
  | none => return .noPath

def find (c : FlatVolume) (typed : Text) : Except Halt (Text × FlatNode) := do
  let path ← c.resolve typed
  match c.nodes[path.lower]? with
  | some n => return (path.lower, n)
  | none => failed (← c.missing path)

def newPath (c : FlatVolume) (path : Text) : Except Halt Text := do
  match c.nodes[(← parentOf path).lower]? with
  | some d => if d.isDirectory then return join d.path (← leafOf path) else failed .noPath
  | none => failed .noPath

def insert (c : FlatVolume) (path : Text) (content : Content) : FlatVolume :=
  let attributes : Attributes := ⟨if content = .directory then 0 else Attributes.archiveBit⟩
  { c with
    nodes := c.nodes.insert path.lower ⟨path, content, c.stamp, attributes, c.nextOrder⟩
    nextOrder := c.nextOrder + 1 }

/-- The nodes right below a key, in the order of their keys: of what the scan finds, what has one
more part. -/
def childNodes (c : FlatVolume) (key : Text) : Except Halt (List FlatNode) := do
  let below ← (c.nodes.scan (childPrefix key)).mapM fun e => do
    return (← cut (Text.from? (childPrefix key).size e.1), e.2)
  return (below.filter fun e => e.1 ≠ [] && !e.1.contains '/').map Prod.snd

def children (c : FlatVolume) (key : Text) : Except Halt (List Entry) := do
  ((← c.childNodes key).mergeSort fun a b => a.order ≤ b.order).mapM FlatNode.entry

def hasChildren (c : FlatVolume) (key : Text) : Bool :=
  (c.nodes.range (childPrefix key)).head?.any fun e => (childPrefix key).isPrefixOf e.1

def isOpen (c : FlatVolume) (key : Text) : Bool :=
  c.files.any fun f => f.2.key = key || (childPrefix key).isPrefixOf f.2.key

/-- The next handle is the next word of 32 bits, or 1 after the last. -/
def takeHandle : FlatAction Nat := modifyGet fun c =>
  (c.nextHandle, { c with nextHandle := max 1 ((c.nextHandle + 1) % 0x100000000) })

def openFile? (c : FlatVolume) (h : Nat) : Except Halt FlatFile :=
  match c.files.get? h with
  | some f => .ok f
  | none => failed .invalidObject

def dataAt (c : FlatVolume) (key : Text) : Except Halt Bytes :=
  match c.nodes[key]?.bind FlatNode.data? with
  | some data => .ok data
  | none => failed .invalidObject

def updateNode (c : FlatVolume) (key : Text) (f : FlatNode → FlatNode) : FlatVolume :=
  { c with nodes := c.nodes.modify key f }

def updateFile (c : FlatVolume) (h : Nat) (f : FlatFile → FlatFile) : FlatVolume :=
  match c.files.get? h with
  | some file => { c with files := c.files.set h (f file) }
  | none => c

section Paths

def mount (c : FlatVolume) : FlatVolume :=
  { c with files := [], listings := [], directory := ['/'] }

def changeDirectory (typed : Text) : FlatAction Unit := do
  let c ← get
  match c.find typed with
  | .ok (_, n) =>
    if n.isDirectory then set { c with directory := n.path } else throw (.failed .noPath)
  | .error (.failed _) => throw (.failed .noPath)
  | .error (.stopped why) => throw (.stopped why)

def stat (c : FlatVolume) (typed : Text) : Except Halt Entry := do
  (← c.find typed).2.entry

def makeDirectory (typed : Text) : FlatAction Unit := do
  let c ← get
  let path ← Action.ofExcept (c.resolve typed)
  if (c.nodes[path.lower]?).isSome then throw (.failed .alreadyExists)
  set (c.insert (← Action.ofExcept (c.newPath path)) .directory)

def ensureDirectory (path : Text) : FlatAction Unit := do
  match (← get).nodes[path.lower]? with
  | some n => if n.isDirectory then return else throw (.failed .noPath)
  | none => makeDirectory path

/-- Makes the directories named by the parts of a path, each below the one before. -/
def descend : (above : Text) → (parts : List Text) → FlatAction Unit
  | _, [] => pure ()
  | above, part :: parts => do
    ensureDirectory (above ++ '/' :: part)
    descend (above ++ '/' :: part) parts

def makeDirectories (typed : Text) : FlatAction Unit := do
  let path ← Action.query fun c => c.resolve typed
  if path = ['/'] then return
  descend [] ((Text.splitOn '/' path).filter (· ≠ []))

def unlink (typed : Text) : FlatAction Unit := do
  let c ← get
  let (key, n) ← Action.ofExcept (c.find typed)
  if key = ['/'] ∨ n.attributes.isReadOnly then throw (.failed .denied)
  if n.isDirectory ∧ (c.hasChildren key ∨ key = c.directory.lower) then throw (.failed .denied)
  if c.isOpen key then throw (.failed .locked)
  set { c with nodes := c.nodes.erase key }

/-- The keys at or below a key: of those that begin with it, the key itself and what has a separator
behind it. -/
def keysUnder (c : FlatVolume) (key : Text) : List Text :=
  ((c.nodes.scan key).map Prod.fst).filter fun k => k = key || (childPrefix key).isPrefixOf k

/-- Takes out what stands under `k` and puts it back under its new path; the entry that the rename is
about also gets a new place in the order. -/
def moveKey (source stored new : Text) (c : FlatVolume) (k : Text) : Except Halt FlatVolume :=
  match c.nodes[k]? with
  | none => .ok c
  | some n => do
    let path := new ++ (← cut (Text.from? stored.size n.path))
    let order := if k = source then c.nextOrder else n.order
    return { c with
      nodes := (c.nodes.erase k).insert path.lower { n with path := path, order := order }
      nextOrder := if k = source then c.nextOrder + 1 else c.nextOrder }

def rename (source target : Text) : FlatAction Unit := do
  let c ← get
  let (key, n) ← Action.ofExcept (c.find source)
  if key = ['/'] then throw (.failed .denied)
  let path ← Action.ofExcept (c.resolve target)
  if path.lower ≠ key ∧ (c.nodes[path.lower]?).isSome then throw (.failed .alreadyExists)
  if (childPrefix key).isPrefixOf path.lower then throw (.failed .invalidName)
  if c.isOpen key then throw (.failed .locked)
  let new ← Action.ofExcept (c.newPath path)
  let d ← Action.ofExcept ((c.keysUnder key).foldlM (moveKey key n.path new) c)
  if d.directory.lower = key || (childPrefix key).isPrefixOf d.directory.lower then
    let rest ← Action.ofExcept (cut (Text.from? n.path.size d.directory))
    set { d with directory := new ++ rest }
  else set d

def setAttributes (typed : Text) (bits : UInt8) : FlatAction Unit := do
  let c ← get
  let (key, _) ← Action.ofExcept (c.find typed)
  set (c.updateNode key fun n => { n with attributes := ⟨bits &&& ~~~Attributes.directoryBit⟩ })

def list (c : FlatVolume) (typed : Text) : Except Halt (List Text) := do
  let (key, n) ← c.find typed
  if n.isDirectory then return (← c.children key).map Entry.name else failed .noPath

end Paths

section Handles

def prepare (c : FlatVolume) (path : Text) (mode : OpenMode) : Except Halt FlatVolume :=
  match c.nodes[path.lower]? with
  | some n =>
    if n.isDirectory then failed .denied
    else if mode.contains .createNew then failed .alreadyExists
    else if mode.contains .write && n.attributes.isReadOnly then failed .denied
    else if mode.contains .createAlways then
      .ok (c.updateNode path.lower fun n =>
        { n with content := .file (.ofList []), stamp := c.stamp })
    else .ok c
  | none =>
    if mode.contains .createNew || mode.contains .createAlways || mode.contains .openAlways then
      (c.newPath path).map fun stored => c.insert stored (.file (.ofList []))
    else do failed (← c.missing path)

def openFile (typed : Text) (mode : OpenMode) : FlatAction Nat := do
  let c ← get
  let path ← Action.ofExcept (c.resolve typed)
  set (← Action.ofExcept (c.prepare path mode))
  let position ←
    if mode.contains .append then
      Bytes.size <$> Action.query (fun c => c.dataAt path.lower)
    else pure 0
  let h ← takeHandle
  modify fun c => { c with files := c.files.set h ⟨path.lower, position, mode⟩ }
  return h

def closeFile (h : Nat) : FlatAction Unit := do
  let c ← get
  if c.files.has h then set { c with files := c.files.erase h } else throw (.failed .invalidObject)

def read (h count : Nat) : FlatAction (List UInt8) := do
  let c ← get
  let f ← Action.ofExcept (c.openFile? h)
  if !f.mode.contains .read then throw (.failed .denied)
  let data ← Action.ofExcept (c.dataAt f.key)
  let bytes := data.slice f.position count
  set (c.updateFile h fun f => { f with position := f.position + bytes.length })
  return bytes

def write (h : Nat) (bytes : List UInt8) : FlatAction Nat := do
  let c ← get
  let f ← Action.ofExcept (c.openFile? h)
  if !f.mode.contains .write then throw (.failed .denied)
  let data ← Action.ofExcept (c.dataAt f.key)
  let c := c.updateNode f.key fun n =>
    { n with content := .file (data.splice f.position bytes), stamp := c.stamp }
  set (c.updateFile h fun f => { f with position := f.position + bytes.length })
  return bytes.length

def seek (h offset : Nat) : FlatAction Unit := do
  let c ← get
  let f ← Action.ofExcept (c.openFile? h)
  let data ← Action.ofExcept (c.dataAt f.key)
  if data.size < offset ∧ f.mode.contains .write then
    let c := c.updateNode f.key fun n => { n with content := .file (data.extend offset) }
    set (c.updateFile h fun f => { f with position := offset })
  else
    set (c.updateFile h fun f => { f with position := min offset data.size })

def openListing (typed : Text) : FlatAction Nat := do
  let c ← get
  match c.find typed with
  | .ok (key, n) =>
    if !n.isDirectory then throw (.failed .noPath)
    let entries ← Action.ofExcept (c.children key)
    let h ← takeHandle
    modify fun c => { c with listings := c.listings.set h entries }
    return h
  | .error (.failed .noFile) => throw (.failed .noPath)
  | .error e => throw e

def readListing (h : Nat) : FlatAction (Option Entry) := do
  let c ← get
  match c.listings.get? h with
  | none => throw (.failed .invalidObject)
  | some [] => return none
  | some (e :: es) =>
    set { c with listings := c.listings.set h es }
    return some e

def closeListing (h : Nat) : FlatAction Unit := do
  let c ← get
  if c.listings.has h then set { c with listings := c.listings.erase h }
  else throw (.failed .invalidObject)

def writeFile (typed : Text) (data : List UInt8) : FlatAction Unit := do
  let path ← Action.query fun c => c.resolve typed
  makeDirectories (← Action.ofExcept (parentOf path))
  let h ← openFile path (.write ∪ .createAlways)
  Action.closing (closeFile h) do
    if (← write h data) < data.length then throw (.failed .denied)

end Handles

end FlatVolume

end CardShell
