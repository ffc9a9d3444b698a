import CardShell.Error

/-!
The two ways a computation of the shell ends early. A failure may be caught and reported; a stop
ends the machine.
-/

set_option autoImplicit false

namespace CardShell

inductive Stop
  /-- A text was cut inside a character. -/
  | cutCharacter
  /-- Batch files or brackets nest too deep. -/
  | nesting
  /-- A field is wider than text can be filled up to. -/
  | tooWide
  deriving DecidableEq, Repr, Inhabited

inductive Halt
  | failed (e : Error)
  | stopped (why : Stop)
  deriving DecidableEq, Repr, Inhabited

/-- An outcome that cannot be a stop. -/
def Halt.ofExcept {α : Type} : Except Error α → Except Halt α
  | .ok a => .ok a
  | .error e => .error (.failed e)

end CardShell
