import CardShell.Calendar.DateTime
import CardShell.Variable.Store

/-!
Expansion of texts: `<name>` stands for the value of a variable, `<n>` and `<&hh>` for the
character with that code, `|x` for a control character, and all else for itself. `pieces` splits a
text into such parts; templates may nest 16 deep.
-/

set_option autoImplicit false

namespace CardShell

/-- What code variables are read from. -/
structure Readings where
  now : DateTime
  directory : Text
  deriving DecidableEq, Repr, Inhabited

def CodeVariable.read (r : Readings) : CodeVariable → Except Error Text
  | time => .ok r.now.timeText
  | date => .ok r.now.dateText
  | year => .ok r.now.yearText
  | directory => .ok r.directory
  | keyboard | console => .error .invalidParameter

namespace Expand

inductive Piece
  | literal (c : Char)
  | insertion (inner : Text)
  | broken
  deriving DecidableEq, Repr

def controlChar (c : Char) : Char :=
  if c = '?' then '\x7F'
  else if ('@' ≤ c ∧ c ≤ '_') ∨ (Char.ofNat 0x60 ≤ c ∧ c ≤ '\x7b') ∨ c = '\x7d' ∨ c = '~' then
    Char.ofNat (c.toNat % 32)
  else c

/-- Where in a text a reader stands: outside, behind a bar, or in an insertion of which `inner`
was read, last character first. -/
inductive Place
  | outside
  | bar
  | inside (inner : Text)

/-- The pieces of a text; what is left open at its end is broken. -/
def piecesFrom : Place → Text → List Piece
  | .outside, [] => []
  | .bar, [] => [.broken]
  | .inside _, [] => [.broken]
  | .outside, c :: t =>
    if c = '|' then piecesFrom .bar t
    else if c = '<' then piecesFrom (.inside []) t
    else .literal c :: piecesFrom .outside t
  | .bar, c :: t => .literal (controlChar c) :: piecesFrom .outside t
  | .inside inner, c :: t =>
    if c = '>' then .insertion inner.reverse :: piecesFrom .outside t
    else piecesFrom (.inside (c :: inner)) t

def pieces (t : Text) : List Piece := piecesFrom .outside t

/-- A decimal, or a hexadecimal with a leading `&`, perhaps between blanks. -/
def integer? (t : Text) : Option Int :=
  match Text.trim t with
  | '&' :: r => Numeral.signed? 16 r
  | r => Numeral.signed? 10 r

def codeChar (n : Int) : Char := Char.ofNat (n % 256).toNat

def piece (vs : Variables) (text : Value → Except Error Text) : Piece → Except Error Text
  | .literal c => .ok [c]
  | .broken => .error .badString
  | .insertion inner =>
    match integer? inner with
    | some n => .ok [codeChar n]
    | none => match vs.get? inner with
      | some v => text v.value
      | none => .ok []

def joined (vs : Variables) (text : Value → Except Error Text) : List Piece → Except Error Text
  | [] => .ok []
  | p :: ps => do
    let s ← piece vs text p
    let t ← joined vs text ps
    return s ++ t

/-- The text of a value; `depth` templates may still nest. -/
def valueWithin (vs : Variables) (r : Readings) : (depth : Nat) → Value → Except Error Text
  | _, .text t => .ok t
  | _, .number n => .ok (Numeral.integer n)
  | _, .code c => c.read r
  | 0, .template _ => .error .badString
  | depth + 1, .template t => joined vs (valueWithin vs r depth) (pieces t)

def maxDepth : Nat := 16

def value (vs : Variables) (r : Readings) (v : Value) : Except Error Text :=
  valueWithin vs r maxDepth v

def text (vs : Variables) (r : Readings) (t : Text) : Except Error Text :=
  joined vs (value vs r) (pieces t)

/-- Control characters written as `|` and a letter. -/
def escape (t : Text) : Text :=
  t.flatMap fun c => if c.toNat < 0x20 then ['|', Char.ofNat (c.toNat + 0x40)] else [c]

end Expand

end CardShell
