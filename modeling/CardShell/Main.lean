import CardShell.Host.Session
import Std.Time.DateTime.Timestamp

/-!
The command line. The first argument, or else `MOS_CONFIG`, names a file with settings; `MOS_ROOT`
names a directory to take the volume from. The input is read to its end before the session runs.
-/

set_option autoImplicit false

namespace CardShell.Host

partial def readDirectory (path : String) : IO HostTree := do
  let mut tree := HostTree.nil
  for entry in ← (System.mkFilePath [path]).readDir do
    let name := entry.fileName
    if ← entry.path.isDir then
      let inside ← readDirectory entry.path.toString
      tree := .directory name.toList inside tree
    else if ← entry.path.pathExists then
      let data ← IO.FS.readBinFile entry.path
      tree := .file name.toList data.toList tree
  return tree

def supply {α : Type} (place : Option String) (read : String → IO α) : IO (Supply α) := do
  match place with
  | none => return .unasked
  | some path =>
    try
      let a ← read path
      return .given a
    catch _ => return .missing

end CardShell.Host

open CardShell in
def main (args : List String) : IO UInt32 := do
  let config := args.head?.or (← IO.getEnv "MOS_CONFIG")
  let settings ← Host.supply config fun path => return (← IO.FS.readFile path).toList
  let root ← Host.supply (← IO.getEnv "MOS_ROOT") Host.readDirectory
  let input ← (← IO.getStdin).readBinToEnd
  let now ← Std.Time.Timestamp.now
  let result := Host.run {
    settings := settings
    root := root
    input := input.toList
    seconds := now.toSecondsSinceUnixEpoch.val.toNat }
  (← IO.getStdout).write ⟨result.output.toArray⟩
  match result.fault with
  | some e => IO.eprintln (String.ofList e.message)
  | none => pure ()
  return UInt32.ofNat result.status
