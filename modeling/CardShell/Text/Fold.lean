import CardShell.Text.Basic

/-!
Comparison that ignores the case of the letters A to Z and of no other letter. The order is by
code point, which is also the order of the UTF-8 bytes.
-/

set_option autoImplicit false

namespace CardShell.Text

def fold (t : Text) : Text := t.map Char.toLower

@[simp] theorem length_fold (t : Text) : (fold t).length = t.length := by simp [fold]

def sameFold (s t : Text) : Bool := fold s == fold t

def compareFold (s t : Text) : Ordering := List.compareLex compare (fold s) (fold t)

def abbreviates (word name : Text) : Bool := (fold word).isPrefixOf (fold name)

end CardShell.Text
