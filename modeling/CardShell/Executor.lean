import CardShell.Action
import CardShell.Error

/-!
What runs loaded programs: a recorder that notes each call and answers as it was told, or nothing.
-/

set_option autoImplicit false

namespace CardShell

/-- The addressing a program was built for: 16-bit segments, or flat 24 bits. -/
inductive ExecMode
  | legacy
  | extended
  deriving DecidableEq, Repr, Inhabited

inductive Call
  | run (mode : ExecMode) (address : Nat) (params : Text)
  | jump (address : Nat)
  deriving DecidableEq, Repr, Inhabited

inductive Executor
  | recorder (calls : List Call) (status refusal : UInt8)
  | absent
  deriving DecidableEq, Repr, Inhabited

namespace Executor

def call (c : Call) : Action Error Executor UInt8 := fun x =>
  match x with
  | absent => .error .notImplemented x
  | recorder calls status refusal =>
    let x := recorder (calls ++ [c]) status refusal
    match Error.ofCode? refusal with
    | some e => .error e x
    | none => .ok status x

end Executor

end CardShell
