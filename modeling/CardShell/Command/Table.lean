import CardShell.Command.Record

/-!
The built-in commands, in the order in which words are resolved and help is listed.
-/

set_option autoImplicit false

namespace CardShell.Builtin

/-- A record with usage and help; an empty text stands for none. -/
def record (name : String) (b : Builtin) (args help : String) : Record where
  name := name.toList
  handler := some (.builtin b)
  args := if args.toList = [] then none else some args.toList
  help := if help.toList = [] then none else some help.toList

def listArgs : String := "[-l] <path>"

def listHelp : String :=
  "Directory listing of the current directory, or of <path>, which may end in a wildcard pattern. -l gives a long listing"

def changeHelp : String := "Change current directory"

def copyArgs : String := "<filename1> <destination>"

def copyHelp : String :=
  "Create a copy of a file. A wildcard source copies every match into the destination directory"

def deleteArgs : String := "[-f] <filename>"

def deleteHelp : String :=
  "Delete a file or folder (must be empty). A wildcard pattern asks before each file unless -f is given"

def renameHelp : String :=
  "Rename or move a file. A wildcard source moves every match into the destination directory"

def records : List Record := [
  record "." listDirectory listArgs listHelp,
  record "CAT" listDirectory listArgs listHelp,
  record "CD" changeDirectory "<path>" changeHelp,
  record "CDIR" changeDirectory "<path>" changeHelp,
  record "CLS" clear "" "Clear the screen",
  record "COPY" copy copyArgs copyHelp,
  record "CP" copy copyArgs copyHelp,
  record "CREDITS" credits "" "Output credits and version numbers for third-party libraries",
  record "DELETE" delete deleteArgs deleteHelp,
  record "DIR" listDirectory listArgs listHelp,
  record "DISC" disc "" "",
  record "ECHO" echo "<string>" "Echo a string to the screen, translating |-escapes and <variables>",
  record "ERASE" delete deleteArgs deleteHelp,
  record "EXEC" batch "<filename>" "Run a batch file containing MOS commands",
  record "HELP" help "[ <command> | all ]" "Display help on a single or all commands",
  record "JMP" jump "<addr>" "Jump to the specified address in memory",
  record "LOAD" load "<filename> <addr>"
    "Load a file from the SD card to the specified address. If no address is given, the default load address is used",
  record "LS" listDirectory listArgs listHelp,
  record "HOTKEY" hotkey "<function key> <command string>"
    "Store a command in one of 12 hotkey slots assigned to F1-F12. With no arguments, list the current assignments",
  record "MEM" memory "" "Output memory statistics",
  record "MKDIR" makeDirectory "<filename>" "Make a folder on the SD card",
  record "MOUNT" mount "" "(Re-)mount the MicroSD card",
  record "MOVE" rename copyArgs renameHelp,
  record "MV" rename copyArgs renameHelp,
  record "PRINTF" format "<string>"
    "Print a string to the VDU, with common backslash escape sequences",
  record "RENAME" rename copyArgs renameHelp,
  record "RM" delete deleteArgs deleteHelp,
  record "RUN" run "[<addr>]"
    "Call an executable binary loaded in memory. If no address is given, the default load address is used",
  record "SAVE" save "<filename> <addr> <size>" "Save a block of memory to the SD card",
  record "Set" setText "<varname> <value>"
    "Set a system variable, translating |-escapes and <variables> in the value",
  record "SetEval" setNumber "<varname> <expression>"
    "Evaluate an expression and store the result in a system variable",
  record "SetMacro" setTemplate "<varname> <value>"
    "Set a macro variable, expanded each time it is read",
  record "Show" showVariables "[<varname pattern>]"
    "List system variables, optionally only those matching a pattern",
  record "TIME" time "[ <yyyy> <mm> <dd> <hh> <mm> <ss> ]" "Set and read the ESP32 real-time clock",
  record "TYPE" typeFile "<filename>" "Display the contents of a file on the screen",
  record "UNSET" unset "<varname pattern>"
    "Remove system variables matching a pattern; code variables are kept",
  record "VDU" display "<char1> <char2> ... <charN>"
    "Write a stream of characters to the VDP. Append ; for 16-bit values"]

end CardShell.Builtin
