import CardShell.Text.Numeral

/-!
Command lines. Words are separated by blanks; reading a word passes over all blanks in front of it
and over the single one behind it. A reader returns what it read and the text that follows.
-/

set_option autoImplicit false

namespace CardShell.Arguments

def nextWord (t : Text) : Option Text × Text :=
  match t.dropWhile (· = ' ') with
  | [] => (none, [])
  | t =>
    let (w, r) := t.span (· ≠ ' ')
    (some w, r.tail)

/-- A decimal, or a hexadecimal with a leading `&`, with at most one sign in front of what is
itself a signed numeral; nothing behind `&` counts as 0. The value is taken modulo 2^24. -/
def number? (word : Text) : Option Nat :=
  let (radix, t) := match word with
    | '&' :: t => (16, t)
    | t => (10, t)
  let (negative, t) := match t with
    | '-' :: t => (true, t)
    | '+' :: t => (false, t)
    | t => (false, t)
  let value := if t = [] ∧ radix = 16 then some 0 else Numeral.signed? radix t
  value.map fun n => ((if negative then -n else n) % 0x1000000).toNat

/-- A number; the word is passed even if it is none. -/
def nextNumber (t : Text) : Option Nat × Text :=
  let (w, r) := nextWord t
  (w.bind number?, r)

/-- A line without blanks and stars in front and blanks behind. -/
def trimLine (line : Text) : Text :=
  Text.trimEnd (line.dropWhile fun c => Text.isAsciiBlank c || c == '*')

/-- Lines that do nothing: empty ones, comments and annotations. -/
def isSilent (line : Text) : Bool :=
  match line with
  | [] => true
  | '#' :: _ => true
  | '|' :: ' ' :: _ => true
  | _ => false

end CardShell.Arguments
