import CardShell.Command.Arguments
import CardShell.Error

/-!
Bytes for the display: backslash escapes, lists of display codes, and one byte for each character.
-/

set_option autoImplicit false

namespace CardShell.Display

/-- The low 8 bits of each character's code. -/
def lowBytes (t : Text) : List UInt8 := t.map fun c => UInt8.ofNat c.toNat

def hexDigit? (b : UInt8) : Option Nat := Numeral.digit? 16 (Char.ofNat b.toNat)

/-- The byte that an escape of one letter stands for; letters that stand for nothing are dropped. -/
def letterEscape (b : UInt8) : List UInt8 :=
  if b = 92 then [92]
  else if b = 114 then [13]
  else if b = 110 then [10]
  else if b = 102 then [12]
  else if b = 116 then [9]
  else []

/-- Expands escapes; one or two hexadecimal digits may follow `\x`. A last backslash is dropped. -/
def unescapeBytes : List UInt8 → List UInt8
  | [] => []
  | b :: bs =>
    if b ≠ 92 then b :: unescapeBytes bs
    else match bs with
      | [] => []
      | code :: bs =>
        if code ≠ 120 then letterEscape code ++ unescapeBytes bs
        else match bs with
          | [] => []
          | d :: ds => match hexDigit? d with
            | none => unescapeBytes (d :: ds)
            | some hi => match ds with
              | [] => [UInt8.ofNat hi]
              | e :: es => match hexDigit? e with
                | none => UInt8.ofNat hi :: unescapeBytes (e :: es)
                | some lo => UInt8.ofNat (hi * 16 + lo) :: unescapeBytes es

def unescape (t : Text) : List UInt8 := unescapeBytes t.bytes

/-- One display code: a decimal, a hexadecimal with `&` in front, or one with `h` behind. -/
def code? (word : Text) : Option Nat :=
  match word.reverse with
  | h :: r =>
    if (h = 'h' ∨ h = 'H') ∧ r ≠ [] ∧ word.head? ≠ some '&' then
      Numeral.unsigned? 16 0x100000000 r.reverse
    else Arguments.number? word
  | [] => Arguments.number? word

/-- The bytes of one item of a list. A `;` behind the code, or a code above 255, makes it a word,
low byte first; a comma may end the item. -/
def itemBytes? (item : Text) : Option (List UInt8) :=
  let item := (Text.before? ',' item).getD item
  let (word, isWord) := match Text.before? ';' item with
    | some w => (w, true)
    | none => (item, false)
  match code? word with
  | none => none
  | some n =>
    if 0xFFFF < n then none
    else if isWord ∨ 0xFF < n then some [UInt8.ofNat n, UInt8.ofNat (n / 256)]
    else some [UInt8.ofNat n]

/-- The words of a line; `fuel` bounds their number. -/
def wordsOf : (fuel : Nat) → Text → List Text
  | 0, _ => []
  | fuel + 1, t => match Arguments.nextWord t with
    | (none, _) => []
    | (some w, r) => w :: wordsOf fuel r

/-- The bytes of a list of display codes. -/
def listBytes (t : Text) : Except Error (List UInt8) :=
  match (wordsOf t.length t).mapM itemBytes? with
  | some bytes => .ok bytes.flatten
  | none => .error .invalidParameter

end CardShell.Display
