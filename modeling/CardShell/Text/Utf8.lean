import CardShell.Text.Basic

/-!
Reading UTF-8. Bytes that begin no character are grouped as Unicode recommends: each longest
beginning of a well-formed sequence counts as one ill-formed piece, any other byte as one of its own.
-/

set_option autoImplicit false

namespace CardShell.Utf8

def replacement : Char := '\uFFFD'

def isTail (b : UInt8) : Bool := 0x80 ≤ b && b ≤ 0xBF

/-- The bytes that may follow the lead byte `a`; none if `a` leads no longer sequence. -/
def secondRange (a : UInt8) : Option (UInt8 × UInt8) :=
  if 0xC2 ≤ a && a ≤ 0xDF then some (0x80, 0xBF)
  else if a == 0xE0 then some (0xA0, 0xBF)
  else if a == 0xED then some (0x80, 0x9F)
  else if 0xE1 ≤ a && a ≤ 0xEF then some (0x80, 0xBF)
  else if a == 0xF0 then some (0x90, 0xBF)
  else if 0xF1 ≤ a && a ≤ 0xF3 then some (0x80, 0xBF)
  else if a == 0xF4 then some (0x80, 0x8F)
  else none

def isSecond (a b : UInt8) : Bool :=
  match secondRange a with
  | some (lo, hi) => lo ≤ b && b ≤ hi
  | none => false

def low6 (b : UInt8) : Nat := b.toNat % 64

/-- Characters and, as `none`, ill-formed pieces. -/
def decode : List UInt8 → List (Option Char)
  | [] => []
  | a :: r =>
    if a < 0x80 then some (Char.ofNat a.toNat) :: decode r
    else match r with
      | [] => [none]
      | b :: s =>
        if isSecond a b then
          if a < 0xE0 then some (Char.ofNat (a.toNat % 32 * 64 + low6 b)) :: decode s
          else match s with
            | [] => [none]
            | c :: u =>
              if isTail c then
                if a < 0xF0 then
                  some (Char.ofNat ((a.toNat % 16 * 64 + low6 b) * 64 + low6 c)) :: decode u
                else match u with
                  | [] => [none]
                  | d :: v =>
                    if isTail d then
                      some (Char.ofNat (((a.toNat % 8 * 64 + low6 b) * 64 + low6 c) * 64 + low6 d))
                        :: decode v
                    else none :: decode (d :: v)
              else none :: decode (c :: u)
        else none :: decode (b :: s)

/-- The text, with a replacement character for each ill-formed piece. -/
def lossy (b : List UInt8) : Text := (decode b).map (·.getD replacement)

def text? (b : List UInt8) : Option Text := (decode b).mapM id

end CardShell.Utf8
