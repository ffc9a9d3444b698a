import CardShell.Api
import CardShell.Main
import CardShell.Proofs.Action
import CardShell.Proofs.Calendar.Seconds
import CardShell.Proofs.Calendar.Stamp
import CardShell.Proofs.Calendar.Weekday
import CardShell.Proofs.Command.Codes
import CardShell.Proofs.Command.Escapes
import CardShell.Proofs.Command.Number
import CardShell.Proofs.Command.Offsets
import CardShell.Proofs.Command.Runs
import CardShell.Proofs.Command.Words
import CardShell.Proofs.Console
import CardShell.Proofs.Drive
import CardShell.Proofs.Drive.Calls
import CardShell.Proofs.Drive.Handles
import CardShell.Proofs.FileTable
import CardShell.Proofs.FileTable.Backed
import CardShell.Proofs.Flat.Children
import CardShell.Proofs.Flat.Follows
import CardShell.Proofs.Flat.Holds
import CardShell.Proofs.Flat.Operation
import CardShell.Proofs.Flat.Range
import CardShell.Proofs.Flat.Renamed
import CardShell.Proofs.Flat.Rerooted
import CardShell.Proofs.Flat.Text
import CardShell.Proofs.Flat.Volume
import CardShell.Proofs.Forest
import CardShell.Proofs.Glob
import CardShell.Proofs.Heap
import CardShell.Proofs.Heap.Ledger
import CardShell.Proofs.Host.Entries
import CardShell.Proofs.Listing
import CardShell.Proofs.Listing.Columns
import CardShell.Proofs.Listing.Order
import CardShell.Proofs.Loader.Bounds
import CardShell.Proofs.Loader.Callers
import CardShell.Proofs.Loader.Header
import CardShell.Proofs.Loader.Load
import CardShell.Proofs.Loader.Reliable
import CardShell.Proofs.Loader.Search
import CardShell.Proofs.Machine
import CardShell.Proofs.Path
import CardShell.Proofs.PathText
import CardShell.Proofs.Quiet
import CardShell.Proofs.Shell.Apart
import CardShell.Proofs.Shell.Balance
import CardShell.Proofs.Shell.Batch
import CardShell.Proofs.Shell.Books
import CardShell.Proofs.Shell.Builtins
import CardShell.Proofs.Shell.Closed
import CardShell.Proofs.Shell.Commands
import CardShell.Proofs.Shell.Copy
import CardShell.Proofs.Shell.Delete
import CardShell.Proofs.Shell.Dial
import CardShell.Proofs.Shell.Directory
import CardShell.Proofs.Shell.Fallback
import CardShell.Proofs.Shell.Fields
import CardShell.Proofs.Shell.Into
import CardShell.Proofs.Shell.Listing
import CardShell.Proofs.Shell.OpenFiles
import CardShell.Proofs.Shell.Performed
import CardShell.Proofs.Shell.Request
import CardShell.Proofs.Shell.Saved
import CardShell.Proofs.Shell.Session
import CardShell.Proofs.Shell.Shown
import CardShell.Proofs.Shell.Silent
import CardShell.Proofs.Shell.Sorted
import CardShell.Proofs.Shell.Stable
import CardShell.Proofs.Shell.Stepwise
import CardShell.Proofs.Shell.Stopping
import CardShell.Proofs.Shell.Stops
import CardShell.Proofs.Shell.Transfer
import CardShell.Proofs.Shell.Variables
import CardShell.Proofs.Shell.Visited
import CardShell.Proofs.Shell.Walk
import CardShell.Proofs.Text.Case
import CardShell.Proofs.Text.Slice
import CardShell.Proofs.Text.Utf8
import CardShell.Proofs.Variable.Arithmetic
import CardShell.Proofs.Variable.Cut
import CardShell.Proofs.Variable.Edited
import CardShell.Proofs.Variable.Escape
import CardShell.Proofs.Variable.Formula
import CardShell.Proofs.Variable.Numeral
import CardShell.Proofs.Variable.Reader
import CardShell.Proofs.Variable.Store
import CardShell.Proofs.Variable.Substitution
import CardShell.Proofs.Volume.Atomic
import CardShell.Proofs.Volume.Cases
import CardShell.Proofs.Volume.Children
import CardShell.Proofs.Volume.Chronicle
import CardShell.Proofs.Volume.Copied
import CardShell.Proofs.Volume.Entered
import CardShell.Proofs.Volume.Enumerated
import CardShell.Proofs.Volume.Flags
import CardShell.Proofs.Volume.Handles
import CardShell.Proofs.Volume.Imported
import CardShell.Proofs.Volume.Issued
import CardShell.Proofs.Volume.Matched
import CardShell.Proofs.Volume.Moved
import CardShell.Proofs.Volume.Names
import CardShell.Proofs.Volume.Operation
import CardShell.Proofs.Volume.Protected
import CardShell.Proofs.Volume.Recased
import CardShell.Proofs.Volume.Relative
import CardShell.Proofs.Volume.Relocated
import CardShell.Proofs.Volume.Rerooted
import CardShell.Proofs.Volume.Resolved
import CardShell.Proofs.Volume.Shared
import CardShell.Proofs.Volume.WellFormed
import CardShell.Proofs.Volume.Written
