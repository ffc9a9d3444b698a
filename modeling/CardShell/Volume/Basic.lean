import CardShell.Action
import CardShell.Bytes
import CardShell.Forest
import CardShell.Path
import CardShell.Table
import CardShell.Volume.Entry

/-!
A volume held in memory: the root, the nodes below it under the keys of their paths, the current
directory, and the open files and enumerations by handle. Names keep the case they were made with.
-/

set_option autoImplicit false

namespace CardShell

inductive Content
  | file (data : Bytes)
  | directory
  deriving DecidableEq, Repr, Inhabited

/-- An entry of the volume. `order` is the moment it was made or last renamed itself. -/
structure Node where
  path : Path
  content : Content
  stamp : Stamp
  attributes : Attributes
  order : Nat
  deriving DecidableEq, Repr, Inhabited

namespace Node

def isDirectory (n : Node) : Bool := n.content == .directory

def data? (n : Node) : Option Bytes :=
  match n.content with
  | .file data => some data
  | .directory => none

def entry (n : Node) : Entry where
  name := n.path.leaf
  size := (n.data?.map Bytes.size).getD 0
  stamp := n.stamp
  attributes := if n.isDirectory then ⟨n.attributes.bits ||| Attributes.directoryBit⟩ else n.attributes

end Node

structure OpenFile where
  key : Path
  position : Nat
  mode : OpenMode
  deriving DecidableEq, Repr, Inhabited

structure Volume where
  root : Node
  nodes : Forest Text Node
  directory : Path
  label : Text
  /-- The stamp of entries made or written from now on. -/
  stamp : Stamp
  nextOrder : Nat
  files : Table Nat OpenFile
  /-- Open enumerations, each with the entries it has still to give. -/
  listings : Table Nat (List Entry)
  /-- How many handles were given out. -/
  issued : Nat
  deriving DecidableEq, Repr, Inhabited

abbrev VolumeAction := Action Error Volume

namespace Volume

def labelled (label : Text) : Volume where
  root := ⟨[], .directory, {}, {}, 0⟩
  nodes := .nil
  directory := []
  label := label
  stamp := {}
  nextOrder := 1
  files := []
  listings := []
  issued := 0

def node? (v : Volume) (key : Path) : Option Node :=
  if key = [] then some v.root else v.nodes.get? key

def resolve (v : Volume) (typed : Text) : Except Error Path := Path.resolve v.directory typed

def isDirectoryAt (v : Volume) (key : Path) : Bool := ((v.node? key).map Node.isDirectory).getD false

/-- Why nothing is at `p`: its directory is there, or even that is missing. -/
def missing (v : Volume) (p : Path) : Error :=
  if v.isDirectoryAt p.parent.key then .noFile else .noPath

def find (v : Volume) (typed : Text) : Except Error (Path × Node) := do
  let p ← v.resolve typed
  match v.node? p.key with
  | some n => return (p.key, n)
  | none => throw (v.missing p)

/-- Where an entry made at `p` is stored: below its directory as that is stored. -/
def newPath (v : Volume) (p : Path) : Except Error Path :=
  match v.node? p.parent.key with
  | some n => if n.isDirectory then .ok (n.path ++ [p.leaf]) else .error .noPath
  | none => .error .noPath

/-- Adds a node; it takes the present stamp and comes last in its directory. -/
def insert (v : Volume) (path : Path) (content : Content) : Volume :=
  let attributes : Attributes := ⟨if content = .directory then 0 else Attributes.archiveBit⟩
  { v with
    nodes := v.nodes.put ⟨path, content, v.stamp, attributes, v.nextOrder⟩ path.key .nil
    nextOrder := v.nextOrder + 1 }

def childNodes (v : Volume) (key : Path) : List Node :=
  (v.nodes.inside key).values.mergeSort fun a b => a.order ≤ b.order

def children (v : Volume) (key : Path) : List Entry := (v.childNodes key).map Node.entry

def hasChildren (v : Volume) (key : Path) : Bool := !(v.nodes.inside key).isEmpty

def isOpen (v : Volume) (key : Path) : Bool := v.files.any fun p => key.isUnder p.2.key

/-- Handles are numbered from 1 and start again after 32 bits. -/
def nextHandle (v : Volume) : Nat := v.issued % 0xFFFFFFFF + 1

def takeHandle : VolumeAction Nat := modifyGet fun v =>
  (v.nextHandle, { v with issued := v.issued + 1 })

/-- The numbers run through the 32-bit words; 0 is passed over. -/
theorem nextHandle_succ (v : Volume) :
    { v with issued := v.issued + 1 }.nextHandle = max 1 ((v.nextHandle + 1) % 0x100000000) := by
  have hlt := Nat.mod_lt v.issued (show 0 < 0xFFFFFFFF by decide)
  unfold nextHandle
  rw [← Nat.mod_add_mod]
  generalize v.issued % 0xFFFFFFFF = r at hlt
  omega

def openFile? (v : Volume) (h : Nat) : Except Error OpenFile :=
  match v.files.get? h with
  | some f => .ok f
  | none => .error .invalidObject

def dataAt (v : Volume) (key : Path) : Except Error Bytes :=
  match (v.node? key).bind Node.data? with
  | some data => .ok data
  | none => .error .invalidObject

def updateNode (v : Volume) (key : Path) (f : Node → Node) : Volume :=
  if key = [] then { v with root := f v.root } else { v with nodes := v.nodes.modify f key }

def updateFile (v : Volume) (h : Nat) (f : OpenFile → OpenFile) : Volume :=
  match v.files.get? h with
  | some file => { v with files := v.files.set h (f file) }
  | none => v

def openFileCount (v : Volume) : Nat := v.files.length

def openListingCount (v : Volume) : Nat := v.listings.length

end Volume

end CardShell
