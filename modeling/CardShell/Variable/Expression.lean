import CardShell.Halt
import CardShell.Variable.Expand

/-!
Expressions: a quoted text, which is expanded, or 32-bit arithmetic on numbers, variables,
`+ - * /`, `MOD` and brackets. Operators are looked for byte by byte, so a text in which one would
end inside a character stops the machine.
-/

set_option autoImplicit false

namespace CardShell.Expression

def wrap (n : Int) : Int := Int.bmod n 0x100000000

/-- The first `n` bytes of a text and the rest, if there are so many; they must not end inside a
character. -/
def splitBytes? : (n : Nat) → Text → Except Halt (Option (Text × Text))
  | 0, t => .ok (some ([], t))
  | _ + 1, [] => .ok none
  | n + 1, c :: t =>
    if c.utf8Size ≤ n + 1 then do
      let found ← splitBytes? (n + 1 - c.utf8Size) t
      .ok (found.map fun (s, r) => (c :: s, r))
    else .error (.stopped .cutCharacter)

def eat (token t : Text) : Except Halt (Option Text) := do
  let found ← splitBytes? token.size t.trimStart
  .ok (found.bind fun (s, r) => if Text.sameFold s token then some r else none)

/-- A quotient or remainder, which must fit 32 bits. -/
def divide (op : Int → Int → Int) (a b : Int) : Except Halt Int :=
  if b = 0 ∨ (a = -0x80000000 ∧ b = -1) then .error (.failed .invalidParameter) else .ok (op a b)

def endsWord (c : Char) : Bool := Text.isBlank c || c ∈ ['+', '-', '*', '/', '(', ')']

section

variable (word : Text → Except Error Int)

mutual

def sum : (fuel : Nat) → Text → Except Halt (Int × Text)
  | 0, _ => .error (.stopped .nesting)
  | fuel + 1, t => do
    let (a, t) ← product fuel t
    sumRest fuel a t

def sumRest : (fuel : Nat) → Int → Text → Except Halt (Int × Text)
  | 0, _, _ => .error (.stopped .nesting)
  | fuel + 1, a, t => do
    match ← eat ['+'] t with
    | some t => do
      let (b, t) ← product fuel t
      sumRest fuel (wrap (a + b)) t
    | none => do
      match ← eat ['-'] t with
      | some t => do
        let (b, t) ← product fuel t
        sumRest fuel (wrap (a - b)) t
      | none => .ok (a, t)

def product : (fuel : Nat) → Text → Except Halt (Int × Text)
  | 0, _ => .error (.stopped .nesting)
  | fuel + 1, t => do
    let (a, t) ← signed fuel t
    productRest fuel a t

def productRest : (fuel : Nat) → Int → Text → Except Halt (Int × Text)
  | 0, _, _ => .error (.stopped .nesting)
  | fuel + 1, a, t => do
    match ← eat ['*'] t with
    | some t => do
      let (b, t) ← signed fuel t
      productRest fuel (wrap (a * b)) t
    | none => do
      match ← eat ['/'] t with
      | some t => do
        let (b, t) ← signed fuel t
        productRest fuel (← divide Int.tdiv a b) t
      | none => do
        match ← eat ['M', 'O', 'D'] t with
        | some t => do
          let (b, t) ← signed fuel t
          productRest fuel (← divide Int.tmod a b) t
        | none => .ok (a, t)

def signed : (fuel : Nat) → Text → Except Halt (Int × Text)
  | 0, _ => .error (.stopped .nesting)
  | fuel + 1, t => do
    match ← eat ['-'] t with
    | some t => do
      let (a, t) ← signed fuel t
      .ok (wrap (-a), t)
    | none => do
      match ← eat ['+'] t with
      | some t => signed fuel t
      | none => primary fuel t

def primary : (fuel : Nat) → Text → Except Halt (Int × Text)
  | 0, _ => .error (.stopped .nesting)
  | fuel + 1, t => do
    match ← eat ['('] t with
    | some t => do
      let (a, t) ← sum fuel t
      match ← eat [')'] t with
      | some t => .ok (a, t)
      | none => .error (.failed .invalidParameter)
    | none => do
      let (w, t) := t.trimStart.span fun c => !endsWord c
      if w = [] then .error (.failed .invalidParameter)
      else do
        let a ← Halt.ofExcept (word w)
        .ok (a, t)

end

/-- Enough for every text: no step down spends more than five before it takes a character. -/
def fuelFor (t : Text) : Nat := 6 * (t.length + 1)

def arithmetic (t : Text) : Except Halt Int := do
  let (a, t) ← sum word (fuelFor t) t
  if t.trimStart = [] then .ok a else .error (.failed .invalidParameter)

end

/-- The number a word stands for: a numeral, or the variable of that label. -/
def wordValue (vs : Variables) (r : Readings) (w : Text) : Except Error Int :=
  match Expand.integer? w with
  | some n => .ok (wrap n)
  | none => match vs.get? w with
    | none => .error .invalidParameter
    | some v => match v.value with
      | .number n => .ok n
      | value => do
        match Expand.integer? (← Expand.value vs r value) with
        | some n => .ok (wrap n)
        | none => .error .invalidParameter

def evaluate (vs : Variables) (r : Readings) (t : Text) : Except Halt Value :=
  match Text.trim t with
  | '"' :: t => match Text.before? '"' t with
    | none => .error (.failed .badString)
    | some inner => Halt.ofExcept ((Expand.text vs r inner).map Value.text)
  | t => (arithmetic (wordValue vs r) t).map Value.number

end CardShell.Expression
