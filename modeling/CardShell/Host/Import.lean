import CardShell.Volume.Files

/-!
Volumes made from a directory tree of the host, and the volume used without one.
-/

set_option autoImplicit false

namespace CardShell

/-- The entries of a host directory, each followed by those listed after it. -/
inductive HostTree
  | nil
  | file (name : Text) (data : List UInt8) (rest : HostTree)
  | directory (name : Text) (inside rest : HostTree)
  deriving Inhabited

namespace Volume

/-- `target/name` without a second separator. -/
def importPath (target name : Text) : Text :=
  if target.getLast? = some '/' then target ++ name else target ++ '/' :: name

/-- Copies the entries into directory `target` and returns how many files there were. -/
def importEntries (target : Text) : HostTree → VolumeAction Nat
  | .nil => return 0
  | .file name data rest => do
    writeFile (importPath target name) data
    return (← importEntries target rest) + 1
  | .directory name inside rest => do
    let path := importPath target name
    makeDirectories path
    let n ← importEntries path inside
    return n + (← importEntries target rest)

/-- Copies a host directory into directory `target`. -/
def importTree (target : Text) (t : HostTree) : VolumeAction Nat := do
  makeDirectories target
  importEntries target t

def readmeText : Text := "MOS shell desktop host.\r\nType HELP for a list of commands.\r\n"

/-- What a volume holds if the host gives nothing. -/
def populate : VolumeAction Unit := do
  makeDirectories "/mos"
  makeDirectories "/bin"
  writeFile "/readme.txt" readmeText.bytes

end Volume

end CardShell
