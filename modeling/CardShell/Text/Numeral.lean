import CardShell.Text.Basic

/-!
Numerals. Reading takes an optional sign and at least one digit, within the range of 64-bit signed
numbers; printing pads with zeros or blanks.
-/

set_option autoImplicit false

namespace CardShell.Numeral

def digit? (radix : Nat) (c : Char) : Option Nat :=
  let d :=
    if '0' ≤ c ∧ c ≤ '9' then c.toNat - 48
    else if 'a' ≤ c ∧ c ≤ 'f' then c.toNat - 87
    else if 'A' ≤ c ∧ c ≤ 'F' then c.toNat - 55
    else radix
  if d < radix then some d else none

def digits? (radix bound : Nat) : Nat → Text → Option Nat
  | acc, [] => some acc
  | acc, c :: t => match digit? radix c with
    | some d =>
      if acc * radix + d < bound then digits? radix bound (acc * radix + d) t else none
    | none => none

def natural? (radix bound : Nat) (t : Text) : Option Nat :=
  if t = [] then none else digits? radix bound 0 t

/-- An optional sign, then digits, within the 64-bit signed range. -/
def signed? (radix : Nat) (t : Text) : Option Int :=
  match t with
  | '-' :: r => (natural? radix 0x8000000000000001 r).map fun n => -(n : Int)
  | '+' :: r => (natural? radix 0x8000000000000000 r).map fun n => (n : Int)
  | r => (natural? radix 0x8000000000000000 r).map fun n => (n : Int)

def unsigned? (radix bound : Nat) (t : Text) : Option Nat :=
  match t with
  | '+' :: r => natural? radix bound r
  | r => natural? radix bound r

def decimal (n : Nat) : Text := Nat.toDigits 10 n

def integer : Int → Text
  | .ofNat n => decimal n
  | .negSucc n => '-' :: decimal (n + 1)

def zeroPadded (width n : Nat) : Text := (decimal n).padStart width '0'

def hexLower (width n : Nat) : Text := Text.padStart width '0' (Nat.toDigits 16 n)

def hexUpper (width n : Nat) : Text := Text.padStart width '0' ((Nat.toDigits 16 n).map Char.toUpper)

end CardShell.Numeral
