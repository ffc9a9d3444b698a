import CardShell.Text.Basic
import CardShell.Text.CaseTable

/-!
Lower-casing after Unicode's default case conversion. Two characters need care: `İ` becomes two
characters, and `Σ` has a form of its own at the end of a word.
-/

set_option autoImplicit false

namespace CardShell.Text

def isIgnorable (c : Char) : Bool := CaseTable.inRanges CaseTable.ignorable c

def isCased (c : Char) : Bool := CaseTable.inRanges CaseTable.cased c

def lowerChar (c : Char) : Char :=
  if c.toNat < 0x80 then c.toLower
  else match CaseTable.lowerRuns.find? fun r =>
      r.first ≤ c.toNat && c.toNat ≤ r.last && (c.toNat - r.first) % r.step == 0 with
    | some r => Char.ofNat (c.toNat + r.shift).toNat
    | none => c

/-- Whether the next character that is not ignorable is a cased one. -/
def casedNext (t : Text) : Bool := ((t.dropWhile isIgnorable).head?.map isCased).getD false

/-- The lower-case form of `t`, where `before` is the text in front of it, last character first. -/
def lowerAfter : (before : Text) → Text → Text
  | _, [] => []
  | before, c :: t =>
    (if c = 'Σ' then [if casedNext before && !casedNext t then 'ς' else 'σ']
      else if c = 'İ' then ['i', '\u0307']
      else [lowerChar c])
      ++ lowerAfter (c :: before) t

def lower (t : Text) : Text := lowerAfter [] t

end CardShell.Text
