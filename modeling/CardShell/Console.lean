import CardShell.Text.Utf8

/-!
The console: what was written, where lines come from, and what the display can do.
-/

set_option autoImplicit false

namespace CardShell

/-- How editing a line ended. -/
inductive LineInput
  | confirmed (line : Text)
  | cancelled
  deriving DecidableEq, Repr, Inhabited

/-- Where lines come from: answers laid out beforehand, or a stream of bytes, which may have been
found to be at its end. -/
inductive Keyboard
  | answers (rest : List LineInput)
  | stream (rest : List UInt8) (ended : Bool)
  deriving DecidableEq, Repr, Inhabited

structure Console where
  /-- What was written, the latest first. -/
  written : List (List UInt8) := []
  keyboard : Keyboard := .answers []
  columns : Nat := 80
  colours : UInt8 := 16
  textPalette : Bool := false
  foreground : UInt8 := 15
  background : UInt8 := 0
  deriving DecidableEq, Repr, Inhabited

namespace Console

def escape : Char := '\x1B'

/-- The bytes up to and with the first line feed, and those behind it. -/
def cutLine : List UInt8 → List UInt8 × List UInt8
  | [] => ([], [])
  | b :: bs =>
    if b = 10 then ([b], bs)
    else
      let (line, rest) := cutLine bs
      (b :: line, rest)

/-- A line without its line end; one that begins with ESC is cancelled. -/
def lineInput (max : Nat) (line : Text) : LineInput :=
  let line := line.dropWhileEnd fun c => c == '\r' || c == '\n'
  if line.head? = some escape then .cancelled else .confirmed (line.take max)

def readLine (max : Nat) (c : Console) : LineInput × Console :=
  match c.keyboard with
  | .answers [] => (.cancelled, c)
  | .answers (.cancelled :: rest) => (.cancelled, { c with keyboard := .answers rest })
  | .answers (.confirmed line :: rest) =>
    (.confirmed (line.take max), { c with keyboard := .answers rest })
  | .stream [] _ => (.cancelled, { c with keyboard := .stream [] true })
  | .stream bytes ended =>
    let (line, rest) := cutLine bytes
    match Utf8.text? line with
    | none => (.cancelled, { c with keyboard := .stream rest true })
    | some line => (lineInput max line, { c with keyboard := .stream rest ended })

def atEnd (c : Console) : Bool :=
  match c.keyboard with
  | .answers _ => false
  | .stream _ ended => ended

/-- All bytes written. -/
def output (c : Console) : List UInt8 := c.written.reverse.flatten

def put (bytes : List UInt8) (c : Console) : Console := { c with written := bytes :: c.written }

@[simp] theorem output_put (bytes : List UInt8) (c : Console) :
    (c.put bytes).output = c.output ++ bytes := by
  simp [output, put]

/-- Forgets what was written. -/
def clear (c : Console) : Console := { c with written := [] }

/-- The colour behind a palette entry; 129 is the background, all others show the foreground. -/
def palette (c : Console) (entry : UInt8) : UInt8 :=
  if entry = 129 then c.background else c.foreground

end Console

end CardShell
