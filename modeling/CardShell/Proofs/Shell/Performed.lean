import CardShell.Command.Dispatch
import CardShell.Proofs.Shell.Commands

/-!
The built-in commands that a line performs, in the order it does, batch files included. Each is told
with the machine as it stands then. A line that performs none is put together as commands are.
-/

set_option autoImplicit false

namespace CardShell.Shell

open CardShell.Action

/-- A command about to be performed, where batch files may nest `depth` deeper. -/
structure Invocation where
  command : Builtin
  args : Text
  depth : Nat
  machine : Machine

section

variable (run : Text → Shell Unit) (byLine : Text → Machine → List Invocation)

/-- Line after line, up to the first that fails. -/
def performedByLines : List Text → Machine → List Invocation
  | [], _ => []
  | line :: lines, m => byLine line m ++
    match run line m with
    | .ok _ m' => performedByLines lines m'
    | .error _ _ => []

def performedByBatch (path : Text) (m : Machine) : List Invocation :=
  match drive (Drive.readToEnd path) m with
  | .ok bytes m' => performedByLines run byLine (Text.lines (Utf8.lossy bytes)) m'
  | .error _ _ => []

def performedByBuiltin (b : Builtin) (args : Text) (m : Machine) : List Invocation :=
  match b, (Arguments.nextWord args).1 with
  | .batch, some path => performedByBatch run byLine path m
  | _, _ => []

theorem performedByBuiltin_of_ne {b : Builtin} (h : b ≠ .batch) (args : Text) (m : Machine) :
    performedByBuiltin run byLine b args m = [] := by
  unfold performedByBuiltin
  split
  · exact absurd rfl h
  · rfl

end

def performedWithin : (depth : Nat) → Text → Machine → List Invocation
  | 0, _, _ => []
  | depth + 1, line, m =>
    let line := Arguments.trimLine line
    if Arguments.isSilent line then []
    else match Arguments.nextWord line with
      | (none, _) => []
      | (some word, args) =>
        match (Record.resolve m.table word).bind Record.handler with
        | some (.builtin b) => ⟨b, args, depth, m⟩ ::
            performedByBuiltin (runLineWithin depth true) (performedWithin depth) b args m
        | _ => []

/-- A line performs the command that it names, or else nothing. -/
theorem runLineWithin_cases (depth : Nat) (atPrompt : Bool) (line : Text) (m : Machine) :
    (∃ b args, runLineWithin (depth + 1) atPrompt line m =
        b.perform (runLineWithin depth true) args m ∧
      performedWithin (depth + 1) line m = ⟨b, args, depth, m⟩ ::
        performedByBuiltin (runLineWithin depth true) (performedWithin depth) b args m) ∨
    performedWithin (depth + 1) line m = [] ∧ ∃ x : Shell Unit,
      runLineWithin (depth + 1) atPrompt line m = x m ∧ ∀ C, Closed C → C Unit x := by
  unfold runLineWithin performedWithin
  dsimp only
  split
  · exact Or.inr ⟨rfl, _, rfl, fun _ hC => hC.pure ()⟩
  · rcases Arguments.nextWord (Arguments.trimLine line) with ⟨_ | word, args⟩
    · exact Or.inr ⟨rfl, _, rfl, fun _ hC => hC.pure ()⟩
    · dsimp only
      rw [bind_apply, get_apply]
      dsimp only
      cases (Record.resolve m.table word).bind Record.handler with
      | none => exact Or.inr ⟨rfl, _, rfl, fun _ hC => hC.runProgram word args atPrompt⟩
      | some handler => cases handler with
        | builtin b => exact Or.inl ⟨b, args, rfl, rfl⟩
        | outside name status =>
          refine Or.inr ⟨rfl, _, rfl, fun _ hC => hC.bind (hC.print _) fun _ => ?_⟩
          cases Error.ofCode? status with
          | some e => exact hC.fail e
          | none => exact hC.pure ()

/-- What a line performs on `m`. -/
def performed (line : Text) (m : Machine) : List Invocation := performedWithin maxDepth line m

end CardShell.Shell
