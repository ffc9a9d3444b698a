import CardShell.Host.Toml.Reader
import CardShell.Settings

/-!
Settings from a TOML text. Keys that name no setting are passed over. A section given as a list
takes its fields by position.
-/

set_option autoImplicit false

namespace CardShell.Settings

open Toml (Item Entries)

/-- The fields of a section, in order of definition. -/
structure Fields where
  names : List Text
  item? : Text → Option Item

def Fields.ofEntries (names : List Text) (es : Entries) : Fields := ⟨names, es.get?⟩

def Fields.ofItem (names : List Text) : Option Item → Except Error Fields
  | none => .ok ⟨names, fun _ => none⟩
  | some (.table _ es) => .ok (.ofEntries names es)
  | some (.list is) => .ok ⟨names, fun name => is[names.idxOf name]?⟩
  | some (.tables rows) =>
    .ok ⟨names, fun name => (rows[names.idxOf name]?).map fun es => .table .header es⟩
  | some .moment => .ok ⟨names, fun _ => none⟩
  | some _ => .error .badToml

/-- A number below `bound`. -/
def Fields.nat (f : Fields) (name : Text) (bound default : Nat) : Except Error Nat :=
  match f.item? name with
  | none => .ok default
  | some (.integer i) => if 0 ≤ i ∧ i < bound then .ok i.toNat else .error .badToml
  | some _ => .error .badToml

def Fields.text (f : Fields) (name : Text) (default : Text) : Except Error Text :=
  match f.item? name with
  | none => .ok default
  | some (.text t) => .ok t
  | some _ => .error .badToml

def Fields.boolean (f : Fields) (name : Text) (default : Bool) : Except Error Bool :=
  match f.item? name with
  | none => .ok default
  | some (.boolean b) => .ok b
  | some _ => .error .badToml

def word : Nat := 0x100000000

def size : Nat := 0x10000000000000000

def readMemory (item : Option Item) : Except Error MemoryMap := do
  let f ← Fields.ofItem ["ram_start", "last_ram", "system_address", "default_load_address",
    "star_load_address"] item
  let d : MemoryMap := {}
  return {
    ramStart := ← f.nat "ram_start" word d.ramStart
    lastRam := ← f.nat "last_ram" word d.lastRam
    systemAddress := ← f.nat "system_address" word d.systemAddress
    defaultLoadAddress := ← f.nat "default_load_address" word d.defaultLoadAddress
    starLoadAddress := ← f.nat "star_load_address" word d.starLoadAddress }

def readDisplay (item : Option Item) : Except Error DisplaySettings := do
  let f ← Fields.ofItem ["columns", "colours", "text_palette"] item
  let d : DisplaySettings := {}
  return {
    columns := ← f.nat "columns" size d.columns
    colours := ← f.nat "colours" 256 d.colours
    textPalette := ← f.boolean "text_palette" d.textPalette }

def readSearch (item : Option Item) : Except Error SearchSettings := do
  let f ← Fields.ofItem ["command_dir", "binary_dir", "extension", "max_command_len"] item
  let d : SearchSettings := {}
  return {
    commandDir := ← f.text "command_dir" d.commandDir
    binaryDir := ← f.text "binary_dir" d.binaryDir
    extension := ← f.text "extension" d.extension
    maxCommandLength := ← f.nat "max_command_len" size d.maxCommandLength }

def readStorage (item : Option Item) : Except Error StorageSettings := do
  let f ← Fields.ofItem ["volume_label", "max_open_files", "copy_chunk"] item
  let d : StorageSettings := {}
  return {
    volumeLabel := ← f.text "volume_label" d.volumeLabel
    maxOpenFiles := ← f.nat "max_open_files" size d.maxOpenFiles
    copyChunk := ← f.nat "copy_chunk" size d.copyChunk }

def ofEntries (es : Entries) : Except Error Settings := do
  let f := Fields.ofEntries ["memory", "display", "search", "storage", "heap_size"] es
  let d : Settings := {}
  return {
    memory := ← readMemory (f.item? "memory")
    display := ← readDisplay (f.item? "display")
    search := ← readSearch (f.item? "search")
    storage := ← readStorage (f.item? "storage")
    heapSize := ← f.nat "heap_size" size d.heapSize }

def parse (t : Text) : Except Error Settings := do
  match Toml.parse? t with
  | none => throw .badToml
  | some es => checked (← ofEntries es)

end CardShell.Settings
