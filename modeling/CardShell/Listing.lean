import CardShell.Walk

/-!
Directory listings: directories first, then by name, in columns or with one long line for each
entry. Where the heap has no room for the entries they are listed as they come, without colour.
-/

set_option autoImplicit false

namespace CardShell

namespace Listing

/-- Directories before files, then by name up to case. -/
def before (a b : Entry) : Bool :=
  match a.isDirectory, b.isDirectory with
  | true, false => true
  | false, true => false
  | _, _ => Text.compareFold a.name b.name != .gt

def sort (es : List Entry) : List Entry := es.mergeSort before

def details (e : Entry) : Text :=
  let s := e.stamp
  let two (n : Nat) : Text := Numeral.zeroPadded 2 n
  Numeral.zeroPadded 4 s.year ++ "/" ++ two s.month ++ "/" ++ two s.day ++ "\t"
    ++ two s.hour ++ ":" ++ two s.minute ++ " " ++ (if e.isDirectory then "D" else " ") ++ " "
    ++ Text.padStart 8 ' ' (Numeral.decimal e.size) ++ " "

structure Colours where
  foreground : UInt8
  file : UInt8
  directory : UInt8
  deriving DecidableEq, Repr, Inhabited

/-- Files in the text colour; directories in the first colour from 2 on, counted round, that is
neither the text colour nor the background. -/
def pickColours (c : Console) : Option Colours :=
  let n := c.colours
  if n ≤ 2 || !c.textPalette then none
  else
    let fg := c.palette 128
    let bg := c.palette 129
    let dir := ([2, 3 % n, (3 % n + 1) % n].find? fun d => d ≠ bg ∧ d ≠ fg).getD 2
    some ⟨fg, fg, dir⟩

def setColour (c : UInt8) : List UInt8 := [17, c]

def tint (colours : Option Colours) (e : Entry) : List UInt8 :=
  match colours with
  | none => []
  | some c => setColour (if e.isDirectory then c.directory else c.file)

def plain (colours : Option Colours) : List UInt8 :=
  match colours with
  | none => []
  | some c => setColour c.foreground

def longLine (colours : Option Colours) (e : Entry) : List UInt8 :=
  plain colours ++ Text.bytes (details e) ++ tint colours e ++ Text.bytes (e.name ++ "\r\n")

def columnWidth (es : List Entry) : Nat := ((es.map fun e => e.name.length + 1).max?).getD 1

def perRow (columns : Nat) (es : List Entry) : Nat := max 1 (columns / columnWidth es)

/-- The width of a column; the last in a row is one narrower. -/
def fieldWidth (width perRow col : Nat) : Nat := if col + 1 = perRow then width - 1 else width

/-- No text can be filled up to more characters. -/
def widthLimit : Nat := 0xFFFF

def volumeName (label : Text) : Text := if label = [] then "<No Volume Label>" else label

/-- The heap's charge for an entry besides its name. -/
def recordSize : Nat := 12

end Listing

namespace Shell

open Listing

def countEntries (h : Nat) (pattern : Option Text) : (fuel : Nat) → Shell Nat
  | 0 => return 0
  | fuel + 1 => do
    match ← nextEntry h pattern with
    | none => return 0
    | some _ => return (← countEntries h pattern fuel) + 1

/-- Reads at most `count` entries and puts their names on the heap. Returns the entries that are
there, the latest first, and how reading ended. -/
def collectFrom (h : Nat) (pattern : Option Text) :
    (count : Nat) → (es : List Entry) → Shell (List Entry × Except Error Unit)
  | 0, es => return (es, .ok ())
  | count + 1, es => do
    match ← outcome (nextEntry h pattern) with
    | .error e => return (es, .error e)
    | .ok none => return (es, .ok ())
    | .ok (some e) => match ← outcome (heap (Heap.reserve (Heap.textBlock e.name))) with
      | .error err => return (es, .error err)
      | .ok _ => collectFrom h pattern count (e :: es)

/-- At most `count` entries with their names on the heap, in enumeration order, and how reading
them ended. -/
def collect (dir : Text) (pattern : Option Text) (count : Nat) :
    Shell (List Entry × Except Error Unit) := do
  match ← outcome (drive (Drive.openListing (PathText.toOpen dir))) with
  | .error e => return ([], .error e)
  | .ok h => do
    let (es, read) ← collectFrom h pattern count []
    let closed ← outcome (drive (Drive.closeListing h))
    return (es.reverse, do read; closed)

/-- Prints each entry as it comes, `col` characters into the row. -/
def streamFrom (long : Bool) (columns h : Nat) (pattern : Option Text) :
    (fuel col : Nat) → Shell Unit
  | 0, _ => return
  | fuel + 1, col => do
    match ← nextEntry h pattern with
    | none => return
    | some e =>
      if long then
        print (details e ++ e.name ++ "\r\n")
        streamFrom long columns h pattern fuel col
      else
        let width := e.name.length + 2
        let wraps := columns ≤ col + width
        if wraps then print "\r\n"
        print (e.name ++ "  ")
        streamFrom long columns h pattern fuel ((if wraps then 0 else col) + width)

def streamListing (dir : Text) (pattern : Option Text) (long : Bool) : Shell Unit := do
  let columns := (← get).console.columns
  withListing (PathText.toOpen dir) fun h => do
    streamFrom long columns h pattern (← stepsOf h) 0
  if !long then print "\r\n"

/-- Prints the names from column `col` on. A field that is too wide stops the machine. -/
def printFields (colours : Option Colours) (width perRow : Nat) : (col : Nat) → List Entry → Shell Unit
  | _, [] => return
  | col, e :: es => do
    let (lineBreak, col) := if col = perRow then (Text.bytes "\r\n", 0) else ([], col)
    let w := fieldWidth width perRow col
    printBytes (lineBreak ++ tint colours e)
    if widthLimit < w then stop .tooWide
    else do
      print (Text.padEnd w e.name)
      printFields colours width perRow (col + 1) es

def printBrief (colours : Option Colours) (columns : Nat) (es : List Entry) : Shell Unit := do
  printFields colours (columnWidth es) (perRow columns es) 0 es
  print "\r\n"

def printEntries (es : List Entry) (long : Bool) : Shell Unit := do
  let console := (← get).console
  let colours := pickColours console
  let es := Listing.sort es
  if long then printBytes (es.flatMap (longLine colours))
  else printBrief colours console.columns es
  printBytes (plain colours)

/-- The entries in order; where they do not fit the heap, as they come. -/
def printSorted (dir : Text) (pattern : Option Text) (count : Nat) (long : Bool) : Shell Unit := do
  let bytes := count * recordSize
  match ← outcome (heap (Heap.reserve bytes)) with
  | .error .outOfMemory => streamListing dir pattern long
  | .error e => fail e
  | .ok _ => do
    let (es, collected) ← collect dir pattern count
    match collected with
    | .ok _ =>
      Action.closing (do releaseTexts (es.map Entry.name); release bytes) (printEntries es long)
    | .error e => do
      releaseTexts (es.map Entry.name)
      release bytes
      if e = .outOfMemory then streamListing dir pattern long else fail e

/-- How a directory is shown. A pattern's directory gets a separator behind it. -/
def shownDirectory (dir : Text) (pattern : Option Text) : Shell Text := do
  if dir = [] ∨ dir = ['.'] then return (← get).directory
  else if pattern.isSome ∧ dir.getLast? ≠ some '/' then return dir ++ "/"
  else return dir

/-- The listing with all that it needs of the path on the heap. -/
def listOnHeap (label dir : Text) (pattern : Option Text) (long : Bool) : Shell Unit := do
  let count ← withListing (PathText.toOpen dir) fun h => do
    countEntries h pattern (← stepsOf h)
  let shown ← shownDirectory dir pattern
  print ("Volume: " ++ volumeName label ++ "\r\n")
  print ("Directory: " ++ shown ++ "\r\n\r\n")
  if count = 0 then print "No files found\r\n" else printSorted dir pattern count long

def list (path : Text) (long : Bool) : Shell Unit := do
  let label ← drive Drive.label
  let target := PathText.split path
  let (dir, pattern) := match target with
    | .single dir => (dir, none)
    | .matching dir pattern => (dir, some pattern)
  withTexts target.parts
    (do
      print ("Volume: " ++ volumeName label ++ "\r\n\r\n")
      streamListing dir pattern long)
    (listOnHeap label dir pattern long)

end Shell

end CardShell
