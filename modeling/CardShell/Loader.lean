import CardShell.Machine

/-!
Loading files into RAM, saving RAM to files, and running program images. An image has the tag
`MOS` at offset 64 and its mode at offset 68. A load that would reach the system area is refused
before a byte is written.
-/

set_option autoImplicit false

namespace CardShell

namespace ExecMode

/-- The mode of an image whose byte at an offset is `at?`. -/
def detect (at? : Nat → Option UInt8) : Option ExecMode :=
  if at? 64 = some 77 ∧ at? 65 = some 79 ∧ at? 66 = some 83 then
    match at? 68 with
    | some 0 => some legacy
    | some 1 => some extended
    | _ => none
  else none

end ExecMode

/-- Whether the `size` bytes from `address` reach into the system area. -/
def MemoryMap.overlapsSystem (map : MemoryMap) (address size : Nat) : Bool :=
  address ≤ map.lastRam && map.systemAddress < address + size

namespace Shell

/-- Reads into RAM from offset `i` on until `count` bytes are there or a read gives nothing. -/
def fill (h i count : Nat) : (fuel done : Nat) → Shell Nat
  | 0, done => return done
  | fuel + 1, done =>
    if count ≤ done then return done
    else do
      let bytes ← drive (Drive.read h (count - done))
      if bytes = [] then return done
      modify fun m => { m with memory := m.memory.store (i + done) bytes }
      fill h i count fuel (done + bytes.length)

/-- Loads a file, or its first `size` bytes if `size` is not 0, and returns how many. -/
def load (path : Text) (address size : Nat) : Shell Nat :=
  withFile path .read fun h => do
    let fileSize ← drive (Drive.fileSize h)
    let count := if size = 0 then fileSize else min fileSize size
    if (← get).settings.memory.overlapsSystem address count then fail .overlappingSystem
    let i ← askMemory fun m => m.offset? address count
    fill h i count count 0

def save (path : Text) (address size : Nat) : Shell Unit := do
  let data ← askMemory fun m => m.slice address size
  withFile path (.write ∪ .createNew) fun h => do
    if (← drive (Drive.write h data)) < data.length then fail .denied

def runImage (address : Nat) (params : Text) : Shell Unit := do
  let count ← askMemory fun m => m.tailLength address
  match ExecMode.detect ((← get).memory.tail? address count) with
  | none => fail .invalidExecutable
  | some mode =>
    match Error.ofCode? (← executor (Executor.call (.run mode address params))) with
    | some e => fail e
    | none => return

end Shell

/-- The files tried for a command word, each with the address it is loaded at. Only lines from the
prompt or a batch file look beyond the command directory. -/
def Settings.candidates (s : Settings) (word : Text) (atPrompt : Bool) : List (Text × Nat) :=
  (s.search.commandDir ++ word ++ s.search.extension, s.memory.starLoadAddress) ::
    if atPrompt then
      [(word ++ s.search.extension, s.memory.defaultLoadAddress),
        (s.search.binaryDir ++ word ++ s.search.extension, s.memory.defaultLoadAddress)]
    else []

namespace Shell

/-- Runs the first candidate that loads. An overlap with the system area ends the search; where
all fail, `last` is the failure of the latest. -/
def tryCandidates (params : Text) : (last : Error) → List (Text × Nat) → Shell Unit
  | last, [] => fail (if last.isNotFound then .invalidCommand else last)
  | _, (path, address) :: rest => do
    match ← outcome (load path address 0) with
    | .ok _ => runImage address params
    | .error .overlappingSystem => fail .overlappingSystem
    | .error e => tryCandidates params e rest

def runProgram (word params : Text) (atPrompt : Bool) : Shell Unit := do
  let s := (← get).settings
  if s.search.maxCommandLength < word.size then fail .invalidCommand
  tryCandidates params .noFile (s.candidates word atPrompt)

end Shell

end CardShell
