import CardShell.Text.Fold

/-!
The table of commands. A word stands for the first record whose name it abbreviates. Records that
share a handler are aliases of each other.
-/

set_option autoImplicit false

namespace CardShell

inductive Builtin
  | listDirectory | changeDirectory | clear | copy | credits | delete | disc | echo | batch | help
  | jump | load | hotkey | memory | makeDirectory | mount | rename | format | run | save
  | setText | setNumber | setTemplate | showVariables | time | typeFile | unset | display
  deriving DecidableEq, Repr, Inhabited

def Builtin.name : Builtin → Text
  | listDirectory => "DIR"
  | changeDirectory => "CD"
  | clear => "CLS"
  | copy => "COPY"
  | credits => "CREDITS"
  | delete => "DELETE"
  | disc => "DISC"
  | echo => "ECHO"
  | batch => "EXEC"
  | help => "HELP"
  | jump => "JMP"
  | load => "LOAD"
  | hotkey => "HOTKEY"
  | memory => "MEM"
  | makeDirectory => "MKDIR"
  | mount => "MOUNT"
  | rename => "RENAME"
  | format => "PRINTF"
  | run => "RUN"
  | save => "SAVE"
  | setText => "SET"
  | setNumber => "SETEVAL"
  | setTemplate => "SETMACRO"
  | showVariables => "SHOW"
  | time => "TIME"
  | typeFile => "TYPE"
  | unset => "UNSET"
  | display => "VDU"

/-- What a record runs: a built-in command, or one from outside that prints its name and its
arguments and ends with a fixed status. -/
inductive Handler
  | builtin (b : Builtin)
  | outside (name : Text) (status : UInt8)
  deriving DecidableEq, Repr, Inhabited

def Handler.name : Handler → Text
  | builtin b => b.name
  | outside name _ => name

/-- A record without handler leaves its word to the search for programs; one without help is
hidden. -/
structure Record where
  name : Text
  handler : Option Handler
  args : Option Text := none
  help : Option Text := none
  deriving DecidableEq, Repr, Inhabited

namespace Record

def handlerName (r : Record) : Option Text := r.handler.map Handler.name

def isHidden (r : Record) : Bool := r.help.isNone

/-- The first record that `word` abbreviates. -/
def resolve (table : List Record) (word : Text) : Option Record :=
  table.find? fun r => Text.abbreviates word r.name

def abbreviated (table : List Record) (word : Text) : List Record :=
  table.filter fun r => Text.abbreviates word r.name

/-- The names of the other records with the handler of `r`. -/
def aliases (table : List Record) (r : Record) : List Text :=
  match r.handlerName with
  | none => []
  | some name => (table.filter fun s => s.name ≠ r.name ∧ s.handlerName = some name).map Record.name

end Record

end CardShell
