import CardShell.Machine
import CardShell.PathText

/-!
Walking the entries of a directory that a pattern matches, and gathering their names on the heap.
-/

set_option autoImplicit false

namespace CardShell

inductive Flow
  | go
  | halt
  deriving DecidableEq, Repr, Inhabited

namespace Shell

variable {α : Type}

/-- The next entry, of those that `pattern` matches if there is one. -/
def nextEntry (h : Nat) (pattern : Option Text) : Shell (Option Entry) :=
  match pattern with
  | some p => drive (Drive.findNext h p)
  | none => drive (Drive.readListing h)

/-- Whether `path` names a directory. -/
def isDirectory (path : Text) : Shell Bool :=
  if PathText.isDirectoryToken path then return true else drive (Drive.isDirectory path)

/-- One more than the entries that `h` has still to give. -/
def stepsOf (h : Nat) : Shell Nat := return (← get).drive.volume.pending h + 1

variable {β : Type}

/-- Visits the entries that `pattern` matches until a visit halts. The visits pass notes on, from
`notes` on; they are returned however the walk ends. -/
def walkFrom (h : Nat) (pattern : Text) (visit : β → Entry → Shell (β × Flow)) :
    (fuel : Nat) → (notes : β) → Shell (β × Except Error Unit)
  | 0, notes => return (notes, .ok ())
  | fuel + 1, notes => do
    match ← outcome (drive (Drive.findNext h pattern)) with
    | .error e => return (notes, .error e)
    | .ok none => return (notes, .ok ())
    | .ok (some e) => match ← outcome (visit notes e) with
      | .error e => return (notes, .error e)
      | .ok (notes, .halt) => return (notes, .ok ())
      | .ok (notes, .go) => walkFrom h pattern visit fuel notes

/-- Visits the entries of `dir` that `pattern` matches, and closes the directory again. -/
def forEachMatch (dir pattern : Text) (visit : β → Entry → Shell (β × Flow)) (notes : β) :
    Shell (β × Except Error Unit) := do
  match ← outcome (drive (Drive.openListing (PathText.toOpen dir))) with
  | .error e => return (notes, .error e)
  | .ok h => do
    let (notes, walked) ← walkFrom h pattern visit (← stepsOf h) notes
    let closed ← outcome (drive (Drive.closeListing h))
    return (notes, do walked; closed)

/-- Puts a name on the heap; a full heap is an internal error. -/
def holdName (names : List Text) (e : Entry) : Shell (List Text × Flow) := do
  match ← outcome (heap (Heap.reserve (Heap.textBlock e.name))) with
  | .error _ => fail .internal
  | .ok _ => return (names ++ [e.name], .go)

/-- `body` with the names of the matches, which stay on the heap until it ends. -/
def withMatches (dir pattern : Text) (body : List Text → Shell α) : Shell α := do
  let (names, gathered) ← forEachMatch dir pattern holdName []
  Action.closing (releaseTexts names) do
    ofExcept gathered
    body names

end Shell

end CardShell
