import CardShell.Error
import CardShell.Glob

/-!
The variables, in the order of their labels up to case; there is one variable for each label. A
label keeps the spelling it was first given.
-/

set_option autoImplicit false

namespace CardShell

inductive CodeVariable
  | time | date | year | directory | keyboard | console
  deriving DecidableEq, Repr, Inhabited

namespace CodeVariable

def isReadable : CodeVariable → Bool
  | time | date | year | directory => true
  | keyboard | console => false

def isWritable : CodeVariable → Bool
  | time | year | keyboard | console => true
  | date | directory => false

end CodeVariable

/-- A template is expanded each time it is read; a number has 32 bits with sign. -/
inductive Value
  | text (t : Text)
  | number (n : Int)
  | template (t : Text)
  | code (c : CodeVariable)
  deriving DecidableEq, Repr, Inhabited

def Value.isCode : Value → Bool
  | code _ => true
  | _ => false

structure Variable where
  label : Text
  value : Value
  deriving DecidableEq, Repr, Inhabited

abbrev Variables := List Variable

namespace Variables

def get? (label : Text) : Variables → Option Variable
  | [] => none
  | v :: vs => if Text.sameFold v.label label then some v else get? label vs

def insert (label : Text) (value : Value) : Variables → Variables
  | [] => [⟨label, value⟩]
  | v :: vs =>
    match Text.compareFold v.label label with
    | .lt => v :: insert label value vs
    | .eq => { v with value := value } :: vs
    | .gt => ⟨label, value⟩ :: v :: vs

def remove (label : Text) (vs : Variables) : Variables :=
  vs.filter fun v => !Text.sameFold v.label label

/-- The variables behind `after`, which need not be one of them. -/
def behind (after : Option Text) (vs : Variables) : Variables :=
  match after with
  | none => vs
  | some label => vs.dropWhile fun v => Text.compareFold v.label label != Ordering.gt

/-- The first variable behind `after` whose label `pattern` matches. -/
def find? (pattern : Text) (after : Option Text) (vs : Variables) : Option Variable :=
  List.find? (fun v => Glob.isMatch pattern v.label) (behind after vs)

def matching (pattern : Text) (vs : Variables) : Variables :=
  vs.filter fun v => Glob.isMatch pattern v.label

/-- Without the variables that `pattern` matches, save those that stand for the machine. -/
def unset (pattern : Text) (vs : Variables) : Variables :=
  vs.filter fun v => v.value.isCode || !Glob.isMatch pattern v.label

def system : Variables :=
  [("Sys$Time", .code .time), ("Sys$Date", .code .date), ("Sys$Year", .code .year),
    ("Current$Dir", .code .directory), ("CLI$Prompt", .template "<Current$Dir> *"),
    ("Keyboard", .code .keyboard), ("Console", .code .console)].foldl
    (fun vs (label, value) => insert (String.toList label) value vs) []

end Variables

end CardShell
