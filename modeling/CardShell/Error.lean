import CardShell.Text.Numeral

/-!
The causes of failure and their status codes. Codes 1 to 19 belong to the card's driver, 20 to 25
to the shell; any other code comes from a program and has no message of its own.
-/

set_option autoImplicit false

namespace CardShell

inductive Error
  | diskError | internal | notReady | noFile | noPath | invalidName | denied | alreadyExists
  | invalidObject | writeProtected | invalidDrive | notEnabled | noFilesystem | mkfsAborted
  | timeout | locked | notEnoughCore | tooManyOpenFiles | invalidParameter | invalidCommand
  | invalidExecutable | outOfMemory | notImplemented | overlappingSystem | badString
  | unknown (status : UInt8)
  | badSettings (reason : Text)
  | badToml
  | hostFile
  deriving DecidableEq, Repr, Inhabited

namespace Error

def code : Error → UInt8
  | diskError | hostFile => 1
  | internal => 2
  | notReady => 3
  | noFile => 4
  | noPath => 5
  | invalidName => 6
  | denied => 7
  | alreadyExists => 8
  | invalidObject => 9
  | writeProtected => 10
  | invalidDrive => 11
  | notEnabled => 12
  | noFilesystem => 13
  | mkfsAborted => 14
  | timeout => 15
  | locked => 16
  | notEnoughCore => 17
  | tooManyOpenFiles => 18
  | invalidParameter | badSettings _ | badToml => 19
  | invalidCommand => 20
  | invalidExecutable => 21
  | outOfMemory => 22
  | notImplemented => 23
  | overlappingSystem => 24
  | badString => 25
  | unknown c => c

/-- The errors with a fixed message, in the order of their codes from 1. -/
def fixed : List Error :=
  [diskError, internal, notReady, noFile, noPath, invalidName, denied, alreadyExists,
    invalidObject, writeProtected, invalidDrive, notEnabled, noFilesystem, mkfsAborted, timeout,
    locked, notEnoughCore, tooManyOpenFiles, invalidParameter, invalidCommand, invalidExecutable,
    outOfMemory, notImplemented, overlappingSystem, badString]

/-- The error that a status reports; status 0 is success. -/
def ofCode? (status : UInt8) : Option Error :=
  if status = 0 then none else some (fixed.getD (status.toNat - 1) (unknown status))

def message : Error → Text
  | diskError => "Error accessing SD card"
  | internal => "Internal error"
  | notReady => "SD card failure"
  | noFile => "Could not find file"
  | noPath => "Could not find path"
  | invalidName => "Invalid path name"
  | denied => "Access denied or directory full"
  | alreadyExists => "Access denied"
  | invalidObject => "Invalid file/directory object"
  | writeProtected => "SD card is write protected"
  | invalidDrive => "Logical drive number is invalid"
  | notEnabled => "Volume has no work area"
  | noFilesystem => "No valid FAT volume"
  | mkfsAborted => "Error occurred during mkfs"
  | timeout => "Volume timeout"
  | locked => "Volume locked"
  | notEnoughCore => "LFN working buffer could not be allocated"
  | tooManyOpenFiles => "Too many open files"
  | invalidParameter => "Invalid parameter"
  | invalidCommand => "Invalid command"
  | invalidExecutable => "Invalid executable"
  | outOfMemory => "Out of memory"
  | notImplemented => "Not implemented"
  | overlappingSystem => "Load overlaps system area"
  | badString => "Bad string"
  | unknown c => "Unknown error (" ++ Numeral.decimal c.toNat ++ ")"
  | badSettings reason => "config error: " ++ reason
  | badToml => "TOML parse error"
  | hostFile => "I/O error"

/-- The two errors that say "nothing there". -/
def isNotFound : Error → Bool
  | noFile | noPath => true
  | _ => false

/-- The fixed message for a status; empty where there is none. -/
def messageFor (status : UInt8) : Text :=
  match ofCode? status with
  | none => "OK"
  | some (unknown _) => []
  | some e => e.message

theorem code_fixed : fixed.map code = (List.range' 1 25).map UInt8.ofNat := by decide

end Error

/-- 0 for success, else the error's code. -/
def statusOf {α : Type} : Except Error α → UInt8
  | .ok _ => 0
  | .error e => e.code

end CardShell
