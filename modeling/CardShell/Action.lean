/-!
Computations over a state that end in a value or an error and keep what they did to the state
either way. `closing` runs a second computation on every exit of the first.
-/

set_option autoImplicit false

namespace CardShell

abbrev Action (ε σ : Type) := EStateM ε σ

namespace Action

variable {ε δ σ τ α : Type}

/-- A question that leaves the state alone. -/
def query (f : σ → Except ε α) : Action ε σ α := fun s =>
  match f s with
  | .ok a => .ok a s
  | .error e => .error e s

def ofExcept (x : Except ε α) : Action ε σ α := query fun _ => x

/-- `body`, then `close` in any case. An error of `body` wins over one of `close`. -/
def closing (close : Action ε σ Unit) (body : Action ε σ α) : Action ε σ α := fun s =>
  match body s with
  | .ok a s => match close s with
    | .ok _ s => .ok a s
    | .error e s => .error e s
  | .error e s => match close s with
    | .ok _ s => .error e s
    | .error _ s => .error e s

def outcome (x : Action ε σ α) : Action δ σ (Except ε α) := fun s =>
  match x s with
  | .ok a s => .ok (.ok a) s
  | .error e s => .ok (.error e) s

def zoom (part : σ → τ) (put : τ → σ → σ) (wrap : ε → δ) (x : Action ε τ α) : Action δ σ α :=
  fun s => match x (part s) with
    | .ok a t => .ok a (put t s)
    | .error e t => .error (wrap e) (put t s)

end Action

end CardShell
