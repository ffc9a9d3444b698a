import CardShell.Error
import CardShell.Text.Lower

/-!
Absolute paths on a volume: the names from the root down. Two paths name the same entry if their
keys, the names in lower case, agree.
-/

set_option autoImplicit false

namespace CardShell

abbrev Path := List Text

namespace Path

def key (p : Path) : Path := p.map Text.lower

/-- `/a/b`; the root is `/`. -/
def text (p : Path) : Text := if p = [] then "/" else p.flatMap ('/' :: ·)

/-- The last name; the root is named `/`. -/
def leaf (p : Path) : Text := p.getLast?.getD "/"

def parent (p : Path) : Path := p.dropLast

/-- Characters that no name may hold. -/
def reserved : List Char := ['*', '?', '"', ':', '<', '>', '|', '\\']

def isValidName (name : Text) : Bool :=
  name ≠ [] && !name.any fun c => Text.isControl c || reserved.contains c

/-- One part of a typed path: nothing and `.` stay, `..` goes up, a name goes down. -/
def enter (p : Path) (part : Text) : Except Error Path :=
  if part = [] ∨ part = ['.'] then .ok p
  else if part = ['.', '.'] then .ok p.dropLast
  else if isValidName part then .ok (p ++ [part])
  else .error .invalidName

/-- The path that `typed` names from directory `here`. -/
def resolve (here : Path) (typed : Text) : Except Error Path :=
  (typed.splitOn '/').foldlM enter (if typed.head? = some '/' then [] else here)

/-- Whether `p` lies at or below `top`. -/
def isUnder (top p : Path) : Bool := top.isPrefixOf p

/-- Whether `p` lies below `top`. -/
def isBelow (top p : Path) : Bool := top.isPrefixOf p && top.length < p.length

/-- Moves a path at or below a path of length `depth` to `new`. -/
def reroot (new : Path) (depth : Nat) (p : Path) : Path := new ++ p.drop depth

end Path

end CardShell
