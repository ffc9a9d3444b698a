/-!
Text is a list of characters. Its stored length counts the bytes of the UTF-8 form, and trimming
removes the characters with the Unicode property White_Space.
-/

set_option autoImplicit false

namespace CardShell

abbrev Text := List Char

instance : Coe String Text := ⟨String.toList⟩

namespace Text

def bytes (t : Text) : List UInt8 := t.flatMap String.utf8EncodeChar

/-- Length of the UTF-8 form. -/
def size : Text → Nat
  | [] => 0
  | c :: t => c.utf8Size + size t

@[simp] theorem size_nil : size [] = 0 := rfl

@[simp] theorem size_cons (c : Char) (t : Text) : size (c :: t) = c.utf8Size + size t := rfl

@[simp] theorem size_append (s t : Text) : size (s ++ t) = size s + size t := by
  induction s with
  | nil => simp
  | cons c s ih =>
    rw [List.cons_append, size_cons, size_cons, ih]
    omega

/-- White_Space of the Unicode character database. -/
def isBlank (c : Char) : Bool :=
  let n := c.toNat
  (9 ≤ n && n ≤ 13) || n == 0x20 || n == 0x85 || n == 0xA0 || n == 0x1680
    || (0x2000 ≤ n && n ≤ 0x200A) || n == 0x2028 || n == 0x2029 || n == 0x202F
    || n == 0x205F || n == 0x3000

def isAsciiBlank (c : Char) : Bool :=
  c == ' ' || c == '\t' || c == '\n' || c == '\x0C' || c == '\r'

/-- General category Cc. -/
def isControl (c : Char) : Bool :=
  c.toNat < 0x20 || (0x7F ≤ c.toNat && c.toNat < 0xA0)

def dropWhileEnd (p : Char → Bool) (t : Text) : Text := (t.reverse.dropWhile p).reverse

def trimStart (t : Text) : Text := t.dropWhile isBlank

def trimEnd (t : Text) : Text := dropWhileEnd isBlank t

def trim (t : Text) : Text := trimEnd (trimStart t)

def after? : (p : Text) → Text → Option Text
  | [], t => some t
  | _ :: _, [] => none
  | c :: p, d :: t => if c = d then after? p t else none

def before? (c : Char) (t : Text) : Option Text :=
  match t.reverse with
  | d :: r => if d = c then some r.reverse else none
  | [] => none

/-- The pieces between the occurrences of `c`; never empty. -/
def splitOn (c : Char) : Text → List Text
  | [] => [[]]
  | d :: t =>
    if d = c then [] :: splitOn c t
    else match splitOn c t with
      | [] => [[d]]
      | w :: ws => (d :: w) :: ws

theorem splitOn_ne_nil (c : Char) (t : Text) : splitOn c t ≠ [] := by
  cases t with
  | nil => simp [splitOn]
  | cons d t => simp only [splitOn]; split <;> (try split) <;> simp

def joinWith (sep : Text) : List Text → Text
  | [] => []
  | [w] => w
  | w :: v :: ws => w ++ sep ++ joinWith sep (v :: ws)

def padEnd (width : Nat) (t : Text) : Text := t ++ List.replicate (width - t.length) ' '

def padStart (width : Nat) (fill : Char) (t : Text) : Text :=
  List.replicate (width - t.length) fill ++ t

/-- The lines of a text: a line ends at a line feed, and one carriage return right before that
line feed belongs to it. A last line without line feed keeps all its characters. -/
def lines (t : Text) : List Text :=
  let ws := splitOn '\n' t
  ws.dropLast.map (fun w => (before? '\r' w).getD w) ++ (ws.getLast?.filter (· ≠ [])).toList

end Text

end CardShell
