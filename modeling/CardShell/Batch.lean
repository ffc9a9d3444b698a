import CardShell.Walk

/-!
Deleting, renaming and copying one path or all matches of a pattern. Each stops at the first item
that fails. The paths it works on lie on the heap; a full heap is an internal error.
-/

set_option autoImplicit false

namespace CardShell.Shell

variable {α : Type}

def withPaths (ts : List Text) (body : Shell α) : Shell α := withTexts ts (fail .internal) body

inductive Answer
  | yes
  | cancel
  | other
  deriving DecidableEq, Repr, Inhabited

def Answer.ofText (t : Text) : Answer :=
  let t := Text.trim t
  if Text.sameFold t "yes" || Text.sameFold t "y" then .yes
  else if Text.sameFold t "cancel" || Text.sameFold t "c" then .cancel
  else .other

def answerLength : Nat := 6

def ask (path : Text) : Shell Answer := do
  print ("Delete " ++ path ++ "? (Yes/No/Cancel) ")
  let input ← readLine answerLength
  print "\r\n"
  match input with
  | .confirmed t => return .ofText t
  | .cancelled => return .cancel

def deleteOne (force verbose : Bool) (path : Text) : Shell Flow := do
  if force then
    if verbose then print ("Deleting " ++ path ++ "\r\n")
    drive (Drive.unlink path)
    return .go
  else
    match ← ask path with
    | .yes =>
      print ("Deleting " ++ path ++ ".\r\n")
      drive (Drive.unlink path)
      return .go
    | .cancel =>
      print "Cancelled.\r\n"
      return .halt
    | .other => return .halt

/-- Deletes `names` in `dir` until one fails or an answer ends it. -/
def deleteEach (force verbose : Bool) (dir : Text) : List Text → Shell (Except Error Unit)
  | [] => return .ok ()
  | name :: names => do
    let path := PathText.join dir name
    match ← withPaths [path] (outcome (deleteOne force verbose path)) with
    | .error e => return .error e
    | .ok .halt => return .ok ()
    | .ok .go => deleteEach force verbose dir names

def delete (path : Text) (force verbose : Bool) : Shell Unit := do
  let target := PathText.split path
  withPaths target.parts do
    match target with
    | .single path => discard (deleteOne force verbose path)
    | .matching dir pattern => withMatches dir pattern fun names => do
      let result ← deleteEach force verbose dir names
      if verbose then print "\r\n"
      ofExcept result

/-- A destination holds no wildcard, and is a directory if the source is a pattern. -/
def checkDestination (target : PathText.Target) (dst : Text) : Shell Unit := do
  if Glob.hasWildcard dst then fail .invalidParameter
  match target with
  | .single _ => return
  | .matching _ _ => if !(← isDirectory dst) then fail .invalidParameter

def eachPair (dir dst : Text) (one : Text → Text → Shell Unit) : List Text → Shell Unit
  | [] => return
  | name :: names => do
    let source := PathText.join dir name
    let target := PathText.join dst name
    withPaths [source, target] (one source target)
    eachPair dir dst one names

/-- Does `move` for a path, or `moveMatch` for each match of a pattern, with the destination that
belongs to it: within `dst` where that is a directory, else `dst` itself. -/
def relocate (move moveMatch : Text → Text → Shell Unit) (src dst : Text) : Shell Unit := do
  let target := PathText.split src
  checkDestination target dst
  withPaths target.parts do
    match target with
    | .single _ =>
      if ← isDirectory dst then
        let path := PathText.join dst (PathText.baseName src)
        withPaths [path] (move src path)
      else move src dst
    | .matching dir pattern => withMatches dir pattern (eachPair dir dst moveMatch)

def rename (src dst : Text) (verbose : Bool) : Shell Unit :=
  relocate (fun a b => drive (Drive.rename a b))
    (fun a b => do
      if verbose then print ("Moving " ++ a ++ " to " ++ b ++ "\r\n")
      drive (Drive.rename a b))
    src dst

/-- Writes what is left to read from `input` to `output`, `chunk` bytes at a time. -/
def copyRest (input output chunk : Nat) : (fuel : Nat) → Shell Unit
  | 0 => return
  | fuel + 1 => do
    let bytes ← drive (Drive.read input chunk)
    if bytes = [] then return
    if (← drive (Drive.write output bytes)) < bytes.length then fail .denied
    copyRest input output chunk fuel

/-- Copies a file to a new one. Nothing is made where the source does not open. -/
def copyFile (verbose : Bool) (src dst : Text) : Shell Unit :=
  withFile src .read fun input =>
    withFile dst (.write ∪ .createNew) fun output => do
      if verbose then print ("Copying " ++ src ++ " to " ++ dst ++ "\r\n")
      let m ← get
      copyRest input output m.settings.storage.copyChunk (m.drive.volume.remaining input + 1)

def copy (src dst : Text) (verbose : Bool) : Shell Unit :=
  relocate (copyFile verbose) (copyFile verbose) src dst

end CardShell.Shell
