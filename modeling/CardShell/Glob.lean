import CardShell.Text.Fold

/-!
Wildcards: `*` stands for any run of characters, `?` for one, and any other character for itself
up to the case of A to Z. The stars cut a pattern into parts: the first has to begin the name, the
last has to end it, and each between is taken at the first place behind the one before. A place
further on could only leave less of the name for the parts that follow.
-/

set_option autoImplicit false

namespace CardShell.Glob

def hasWildcard (t : Text) : Bool := t.any fun c => c == '*' || c == '?'

/-- Whether one character of a pattern, not a star, stands for `d`. -/
def standsFor (c d : Char) : Bool := c == '?' || c.toLower == d.toLower

def afterPart? : (part : Text) → Text → Option Text
  | [], t => some t
  | _ :: _, [] => none
  | c :: part, d :: t => if standsFor c d then afterPart? part t else none

/-- What follows the first place of `part` in a text. -/
def behind? (part : Text) : Text → Option Text
  | [] => afterPart? part []
  | d :: t => match afterPart? part (d :: t) with
    | some r => some r
    | none => behind? part t

/-- Whether a text consists of the parts in order, with anything in front of each. -/
def isSpread : (parts : List Text) → Text → Bool
  | [], _ => true
  | [part], t => afterPart? part (t.drop (t.length - part.length)) == some []
  | part :: parts, t => match behind? part t with
    | some r => isSpread parts r
    | none => false

def isMatch (pattern name : Text) : Bool :=
  match Text.splitOn '*' pattern with
  | [] => false
  | [part] => afterPart? part name == some []
  | part :: parts => match afterPart? part name with
    | some r => isSpread parts r
    | none => false

end CardShell.Glob
