import CardShell.Batch
import CardShell.Command.Arguments
import CardShell.Command.Display
import CardShell.Listing
import CardShell.Loader
import CardShell.Variable.Expression

/-!
What the built-in commands do with their arguments.
-/

set_option autoImplicit false

namespace CardShell.Shell

variable {α : Type}

def required (x : Option α × Text) : Shell (α × Text) :=
  match x with
  | (some a, rest) => return (a, rest)
  | (none, _) => fail .invalidParameter

def requiredWord (args : Text) : Shell (Text × Text) := required (Arguments.nextWord args)

def requiredBelow (bound : Nat) (args : Text) : Shell (Nat × Text) := do
  let (n, rest) ← required (Arguments.nextNumber args)
  if n < bound then return (n, rest) else fail .invalidParameter

def requiredNumber (args : Text) : Shell (Nat × Text) := required (Arguments.nextNumber args)

/-- A name and the text behind it, which is not empty. -/
def nameAndText (args : Text) : Shell (Text × Text) := do
  let (name, rest) ← requiredWord args
  let t := rest.trimStart
  if t = [] then fail .invalidParameter else return (name, t)

section Variables

def writeSetting (setting : UInt8) (t : Text) : Shell Unit :=
  match Expand.integer? t with
  | none => fail .invalidParameter
  | some n => printBytes [23, 0, setting, UInt8.ofNat (n % 256).toNat]

def twoDigitsAt (t : Text) (i : Nat) : Shell Nat :=
  match (t.bytes.drop i).take 2 with
  | [a, b] =>
    if 48 ≤ a ∧ a ≤ 57 ∧ 48 ≤ b ∧ b ≤ 57 then return (a.toNat - 48) * 10 + (b.toNat - 48)
    else fail .invalidParameter
  | _ => fail .invalidParameter

/-- Passes a text to the part of the machine that a variable stands for. -/
def writeCode (c : CodeVariable) (t : Text) : Shell Unit := do
  let now := (← get).clock.now
  match c with
  | .time => do
    let hour ← twoDigitsAt t 0
    let minute ← twoDigitsAt t 3
    let second ← twoDigitsAt t 6
    setClock { now with hour := hour, minute := minute, second := second }
  | .year => match Expand.integer? t with
    | some n => if 0 ≤ n ∧ n < 65536 then setClock { now with year := n.toNat } else fail .invalidParameter
    | none => fail .invalidParameter
  | .keyboard => writeSetting 0x81 t
  | .console => writeSetting 0xFE t
  | .date | .directory => fail .invalidParameter

/-- Gives a variable a value; one that stands for a part of the machine takes it as text. -/
def assign (label : Text) (value : Value) : Shell Unit := do
  match (← get).store.get? label with
  | some ⟨_, .code c⟩ => match value with
    | .text t | .template t => writeCode c t
    | .number n => writeCode c (Numeral.integer n)
    | .code _ => fail .invalidParameter
  | _ => modify fun m => { m with store := m.store.insert label value }

def expand (t : Text) : Shell Text := do
  let m ← get
  ofExcept (Expand.text m.store m.readings t)

def evaluate (t : Text) : Shell Value := do
  let m ← get
  Action.ofExcept (Expression.evaluate m.store m.readings t)

def variableLine (vs : Variables) (r : Readings) (v : Variable) : Text :=
  v.label ++ (match v.value with
    | .template t => "(Macro) : " ++ Expand.escape t
    | .number n => "(Number) : " ++ Numeral.integer n
    | .text t => " : " ++ Expand.escape t
    | .code c => " : " ++ match Expand.value vs r (.code c) with
      | .ok t => t
      | .error _ => "Error fetching code-based variable") ++ "\r\n"

end Variables

section Files

/-- The options and the path of a listing: the first word that is no option. -/
def listArguments : (fuel : Nat) → (long : Bool) → Text → Bool × Text
  | 0, long, _ => (long, ".")
  | fuel + 1, long, args => match Arguments.nextWord args with
    | (none, _) => (long, ".")
    | (some w, rest) =>
      if Text.sameFold w "-l" then listArguments fuel true rest else (long, w)

def typeRest (h : Nat) : (fuel : Nat) → Shell Unit
  | 0 => return
  | fuel + 1 => do
    let bytes ← drive (Drive.read h 512)
    if bytes = [] then return
    printBytes bytes
    typeRest h fuel

def typeFile (path : Text) : Shell Unit :=
  withFile path .read fun h => do typeRest h ((← get).drive.volume.remaining h + 1)

/-- Runs the lines of a batch file, from line `n` on, until one fails. -/
def runLines (run : Text → Shell Unit) (path : Text) : (n : Nat) → List Text → Shell Unit
  | _, [] => return
  | n, line :: lines => do
    match ← outcome (run line) with
    | .ok _ => runLines run path (n + 1) lines
    | .error e => do
      print ("\r\nError executing " ++ path ++ " at line " ++ Numeral.decimal n ++ "\r\n")
      fail e

def runBatch (run : Text → Shell Unit) (path : Text) : Shell Unit := do
  let bytes ← drive (Drive.readToEnd path)
  runLines run path 1 (Text.lines (Utf8.lossy bytes))

end Files

section System

def pred32 (n : Nat) : Nat := (n + 0xFFFFFFFF) % 0x100000000

def memoryReport (map : MemoryMap) (h : Heap) : Text :=
  let address (a : Nat) : Text := "&" ++ Numeral.hexLower 6 a
  let count (n : Nat) : Text := Text.padStart 6 ' ' (Numeral.decimal n)
  "USER:LO  " ++ address map.ramStart ++ "-" ++ address (pred32 map.systemAddress) ++ " "
    ++ count (map.systemAddress - map.ramStart) ++ " bytes\r\n"
    ++ "MOS:SYS  " ++ address map.systemAddress ++ "-" ++ address map.lastRam ++ " "
    ++ count ((map.lastRam - map.systemAddress + 1) % 0x100000000) ++ " bytes\r\n"
    ++ "MOS:HEAP " ++ count h.inUse ++ " of " ++ count h.capacity ++ " bytes in use\r\n\r\n"
    ++ "Largest free MOS:HEAP fragment: " ++ Numeral.decimal (h.largestFree / 8 * 8)
    ++ " bytes\r\n\r\n"

def mount : Shell Unit := do
  match ← outcome (drive Drive.mount) with
  | .ok _ => pure ()
  | .error e => report e
  refreshDirectory

/-- Sets the clock if a year is given, then prints the time. -/
def time (args : Text) : Shell Unit := do
  match Arguments.nextNumber args with
  | (none, _) => pure ()
  | (some year, rest) => do
    if 65536 ≤ year then fail .invalidParameter
    let (month, rest) ← requiredBelow 256 rest
    let (day, rest) ← requiredBelow 256 rest
    let (hour, rest) ← requiredBelow 256 rest
    let (minute, rest) ← requiredBelow 256 rest
    let (second, _) ← requiredBelow 256 rest
    setClock ⟨year, month, day, hour, minute, second⟩
  print ((← get).clock.now.text ++ "\n\r")

def creditsText : Text :=
  "MOS shell 0.1.0\n\rVolume layer: mos-vfs, FAT-style case-insensitive names\n\rConfiguration: serde and toml\n\r\n\r"

def unquote (t : Text) : Text :=
  match t with
  | '"' :: r => (Text.before? '"' r).getD t
  | _ => t

def hotkeyReport (m : Machine) : Text :=
  let line (n : Nat) : Text := "F" ++ Numeral.decimal n ++ ": " ++ (m.hotkey? n).getD "N/A" ++ "\r\n"
  "Hotkey assignments:\r\n\r\n" ++ (List.range' 1 hotkeyCount).flatMap line ++ "\r\n"

def hotkey (args : Text) : Shell Unit := do
  match Arguments.nextNumber args with
  | (none, _) => print (hotkeyReport (← get))
  | (some n, rest) => do
    let key := "F" ++ Numeral.decimal n
    let t := rest.trimStart
    if n = 0 ∨ hotkeyCount < n then print "Invalid FN-key number.\r\n"
    else if t = [] then
      match ← setHotkey n none with
      | some _ => print (key ++ " cleared.\r\n")
      | none => print (key ++ " already clear, no hotkey command provided.\r\n")
    else discard (setHotkey n (some (unquote t)))

end System

def aliasText (names : List Text) : Text :=
  match names.getLast? with
  | none => []
  | some last =>
    let rest : Text := match names.dropLast with
      | [] => []
      | rest => Text.joinWith ", " rest ++ " and "
    " (Aliases: " ++ rest ++ last ++ ")"

/-- Usage and aliases of a record, and its help if `full`; nothing if it is hidden. -/
def recordHelp (table : List Record) (full : Bool) (r : Record) : Text :=
  match r.help with
  | none => []
  | some help =>
    let args : Text := match r.args with
      | some args => " " ++ args
      | none => []
    let help : Text := if full then help ++ "\r\n" else []
    r.name ++ args ++ aliasText (r.aliases table) ++ "\r\n" ++ help

/-- The names of the records that are not hidden, `col` bytes into the row. -/
def namesFrom (columns : Nat) : (col : Nat) → List Record → Text
  | _, [] => []
  | col, r :: rs =>
    if r.isHidden then namesFrom columns col rs
    else
      let width := r.name.size + 2
      let wraps := columns ≤ col + width
      let lineBreak : Text := if wraps then "\r\n" else []
      let comma : Text := if rs = [] then [] else ", "
      lineBreak ++ r.name ++ comma ++ namesFrom columns ((if wraps then 0 else col) + width) rs

def commandList (table : List Record) (columns : Nat) : Text :=
  "List of commands:\r\n" ++ namesFrom columns 0 table.tail ++ "\r\n"

def wordHelp (table : List Record) (columns : Nat) (withList : Bool) (word : Text) : Text :=
  match Record.abbreviated table word with
  | [] => "Command not found: " ++ word ++ "\r\n"
  | rs => rs.flatMap fun r =>
    recordHelp table true r ++ if withList then commandList table columns else []

def helpText (table : List Record) (columns : Nat) (args : Text) : Text :=
  match Display.wordsOf args.length args with
  | [] => wordHelp table columns true "help"
  | w :: ws =>
    if Text.sameFold w "all" then table.flatMap (recordHelp table false)
    else (w :: ws).flatMap (wordHelp table columns false)

end CardShell.Shell

namespace CardShell.Builtin

open Shell

/-- Runs a command; `runLine` runs a line of a batch file. -/
def perform (runLine : Text → Shell Unit) (b : Builtin) (args : Text) : Shell Unit := do
  match b with
  | listDirectory =>
    let (long, path) := listArguments args.length false args
    Shell.list path long
  | changeDirectory => do
    let (path, _) ← requiredWord args
    let result ← outcome (drive (Drive.changeDirectory path))
    refreshDirectory
    Shell.ofExcept result
  | copy => do
    let (src, rest) ← requiredWord args
    let (dst, _) ← requiredWord rest
    Shell.copy src dst true
  | rename => do
    let (src, rest) ← requiredWord args
    let (dst, _) ← requiredWord rest
    Shell.rename src dst true
  | delete => do
    let (w, rest) ← requiredWord args
    if Text.sameFold w "-f" then
      let (path, _) ← requiredWord rest
      Shell.delete path true true
    else Shell.delete w false true
  | makeDirectory => do
    let (path, _) ← requiredWord args
    drive (Drive.makeDirectory path)
  | typeFile => do
    let (path, _) ← requiredWord args
    Shell.typeFile path
  | clear => printBytes [12]
  | echo => do
    let t ← expand args
    printBytes (Display.lowBytes t)
    print "\r\n"
  | format => printBytes (Display.unescape args)
  | display => do printBytes (← Shell.ofExcept (Display.listBytes args))
  | hotkey => Shell.hotkey args
  | setText => do
    let (name, t) ← nameAndText args
    assign name (.text (← expand t))
  | setNumber => do
    let (name, t) ← nameAndText args
    assign name (← evaluate t)
  | setTemplate => do
    let (name, t) ← nameAndText args
    assign name (.template t)
  | showVariables => do
    let m ← get
    let pattern := (Arguments.nextWord args).1.getD ['*']
    print ((m.store.matching pattern).flatMap (variableLine m.store m.readings))
  | unset => do
    let (pattern, _) ← requiredWord args
    modify fun m => { m with store := m.store.unset pattern }
  | load => do
    let (path, rest) ← requiredWord args
    let address := (Arguments.nextNumber rest).1.getD (← get).settings.memory.defaultLoadAddress
    discard (Shell.load path address 0)
  | save => do
    let (path, rest) ← requiredWord args
    let (address, rest) ← requiredNumber rest
    let (size, _) ← requiredNumber rest
    Shell.save path address size
  | run => do
    let (address, rest) := Arguments.nextNumber args
    runImage (address.getD (← get).settings.memory.defaultLoadAddress) rest
  | jump => do
    let (address, _) ← requiredNumber args
    discard (executor (Executor.call (.jump address)))
  | batch => do
    let (path, _) ← requiredWord args
    runBatch runLine path
  | memory => do
    let m ← get
    print (memoryReport m.settings.memory m.heap)
  | mount => Shell.mount
  | disc => modify fun m => { m with cardDelay := true }
  | time => Shell.time args
  | credits => print creditsText
  | help => do
    let m ← get
    print (helpText m.table m.console.columns args)

end CardShell.Builtin
