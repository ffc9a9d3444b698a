import CardShell.Action
import CardShell.Calendar.DateTime
import CardShell.Error

/-!
The real-time clock: one that stands still until it is set and may refuse once, or one that runs
at an offset to the seconds of its host.
-/

set_option autoImplicit false

namespace CardShell

inductive Clock
  | still (time : DateTime) (refusal : UInt8)
  | hosted (seconds : Nat) (offset : Int)
  deriving DecidableEq, Repr, Inhabited

namespace Clock

def now : Clock → DateTime
  | still time _ => time
  | hosted seconds offset => .ofSeconds (seconds + offset).toNat

def set (t : DateTime) : Action Error Clock Unit := fun c =>
  match c with
  | still time refusal => match Error.ofCode? refusal with
    | some e => .error e (still time 0)
    | none => .ok () (still t 0)
  | hosted seconds _ => .ok () (hosted seconds (t.toSeconds - seconds))

end Clock

end CardShell
