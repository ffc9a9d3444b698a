import CardShell.Command.Builtin

/-!
Running command lines: the first word chooses a record, or failing that a program on the card.
-/

set_option autoImplicit false

namespace CardShell.Shell

def runHandler (runLine : Text → Shell Unit) (h : Handler) (args : Text) : Shell Unit := do
  match h with
  | .builtin b => b.perform runLine args
  | .outside name status => do
    print ("[" ++ name ++ "|" ++ args ++ "]")
    match Error.ofCode? status with
    | some e => fail e
    | none => return

/-- Runs one line, within which batch files may nest `depth` deep. -/
def runLineWithin : (depth : Nat) → (atPrompt : Bool) → Text → Shell Unit
  | 0, _, _ => stop .nesting
  | depth + 1, atPrompt, line => do
    let line := Arguments.trimLine line
    if Arguments.isSilent line then return
    match Arguments.nextWord line with
    | (none, _) => return
    | (some word, args) =>
      match (Record.resolve (← get).table word).bind Record.handler with
      | some h => runHandler (runLineWithin depth true) h args
      | none => runProgram word args atPrompt

def maxDepth : Nat := 100000

/-- Runs one line. Lines from the prompt or from a batch file look further for programs. -/
def execute (line : Text) (atPrompt : Bool) : Shell Unit := runLineWithin maxDepth atPrompt line

def executeFile (path : Text) : Shell Unit := runBatch (fun line => execute line true) path

end CardShell.Shell
