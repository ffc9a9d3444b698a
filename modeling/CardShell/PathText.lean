import CardShell.Glob

/-!
Paths as they are typed. A path whose last part holds a wildcard names the matching entries of a
directory, any other path names one entry.
-/

set_option autoImplicit false

namespace CardShell.PathText

/-- What a typed path asks for. An empty `dir` is the current directory. -/
inductive Target
  | single (path : Text)
  | matching (dir pattern : Text)
  deriving DecidableEq, Repr

/-- The texts that a target is made of. -/
def Target.parts : Target → List Text
  | single path => [path]
  | matching dir pattern => [dir, pattern]

/-- The text up to the last `/` and the text after it; `none` where there is no `/`. -/
def cutLast (path : Text) : Option (Text × Text) :=
  match path.reverse.span (· ≠ '/') with
  | (_, []) => none
  | (last, _ :: dir) => some (dir.reverse, last.reverse)

def split (path : Text) : Target :=
  let (dir, last) := match cutLast path with
    | none => ([], path)
    | some ([], last) => ("/", last)
    | some cut => cut
  if Glob.hasWildcard last then .matching dir last else .single path

/-- The path that opens directory `dir`. -/
def toOpen (dir : Text) : Text := if dir = [] then "." else dir

/-- `dir/name` without a second separator; an empty `dir` leaves `name` relative. -/
def join (dir name : Text) : Text :=
  if dir = [] then name
  else if dir.getLast? = some '/' then dir ++ name
  else dir ++ "/" ++ name

/-- The part after the last `/`. -/
def baseName (path : Text) : Text :=
  match cutLast path with
  | none => path
  | some (_, last) => last

/-- The paths that name a directory whatever the volume holds. -/
def isDirectoryToken (path : Text) : Bool := path == ['.'] || path == ['.', '.'] || path == ['/']

end CardShell.PathText
