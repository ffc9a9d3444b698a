import CardShell.Text.Numeral
import CardShell.Calendar.DateTime
import CardShell.Host.Toml.Value

/-!
The scalar values of TOML 1.0: quoted texts, numbers, truth values, dates and times.
Every reader returns what it read and the text that follows, or nothing on malformed input.
-/

set_option autoImplicit false

namespace CardShell.Toml

def quote : Char := '"'

def apostrophe : Char := Char.ofNat 39

/-- A character that may stand in a comment or a text: no control character but the tab. -/
def isPlain (c : Char) : Bool := c == '\t' || (0x20 ≤ c.toNat && c.toNat != 0x7F)

def scalarChar? (n : Nat) : Option Char := if n.isValidChar then some (Char.ofNat n) else none

def hexDigits : (count acc : Nat) → Text → Option (Nat × Text)
  | 0, acc, t => some (acc, t)
  | n + 1, acc, c :: t => (Numeral.digit? 16 c).bind fun d => hexDigits n (acc * 16 + d) t
  | _ + 1, _, [] => none

def escaped : Text → Option (Char × Text)
  | 'b' :: t => some ('\x08', t)
  | 't' :: t => some ('\t', t)
  | 'n' :: t => some ('\n', t)
  | 'f' :: t => some ('\x0C', t)
  | 'r' :: t => some ('\r', t)
  | '"' :: t => some ('"', t)
  | '\\' :: t => some ('\\', t)
  | 'u' :: t => (hexDigits 4 0 t).bind fun (n, t) => (scalarChar? n).map (·, t)
  | 'U' :: t => (hexDigits 8 0 t).bind fun (n, t) => (scalarChar? n).map (·, t)
  | _ => none

/-- The rest of a basic text on one line, up to its closing quote. -/
def basicRest : (fuel : Nat) → Text → Option (Text × Text)
  | 0, _ | _, [] => none
  | fuel + 1, c :: t =>
    if c = quote then some ([], t)
    else if c = '\\' then
      (escaped t).bind fun (d, t) => (basicRest fuel t).map fun (s, t) => (d :: s, t)
    else if isPlain c then (basicRest fuel t).map fun (s, t) => (c :: s, t)
    else none

def literalRest : Text → Option (Text × Text)
  | [] => none
  | c :: t =>
    if c = apostrophe then some ([], t)
    else if isPlain c then (literalRest t).map fun (s, t) => (c :: s, t)
    else none

/-- A line end: a line feed, or a carriage return and a line feed. -/
def newline? : Text → Option Text
  | '\n' :: t => some t
  | '\r' :: '\n' :: t => some t
  | _ => none

def isSpace (c : Char) : Bool := c == ' ' || c == '\t'

def skipSpace (t : Text) : Text := t.dropWhile isSpace

/-- Blanks and line ends after a backslash at the end of a line. -/
def skipFolded : (fuel : Nat) → Text → Text
  | 0, t => t
  | fuel + 1, t =>
    let t := skipSpace t
    match newline? t with
    | some t => skipFolded fuel t
    | none => t

/-- The rest of a text on many lines, closed by three of `q`, to which up to two more may belong. -/
def blockRest (q : Char) : (fuel : Nat) → Text → Option (Text × Text)
  | 0, _ | _, [] => none
  | fuel + 1, c :: t =>
    if c = q then
      let run := (c :: t).takeWhile (· = q)
      if 6 ≤ run.length then none
      else if 3 ≤ run.length then some (run.drop 3, t.drop (run.length - 1))
      else (blockRest q fuel (t.drop (run.length - 1))).map fun (s, t) => (run ++ s, t)
    else if c = '\\' ∧ q = quote then
      match newline? (skipSpace t) with
      | some u => blockRest q fuel (skipFolded fuel u)
      | none => (escaped t).bind fun (d, t) => (blockRest q fuel t).map fun (s, t) => (d :: s, t)
    else if isPlain c then (blockRest q fuel t).map fun (s, t) => (c :: s, t)
    else match newline? (c :: t) with
      | some u => (blockRest q fuel u).map fun (s, t) => ('\n' :: s, t)
      | none => none

def quoted (q : Char) (t : Text) : Option (Text × Text) :=
  match t with
  | a :: b :: c :: r =>
    if a = q ∧ b = q ∧ c = q then blockRest q r.length ((newline? r).getD r)
    else if a = q then (if q = quote then basicRest t.length t.tail else literalRest t.tail)
    else none
  | a :: r => if a = q then (if q = quote then basicRest t.length r else literalRest r) else none
  | [] => none

/-- Digits with single underscores between them, from `acc` on; `fresh` says that a digit has to
come next. -/
def spacedDigits? (radix : Nat) : (fresh : Bool) → (acc : Nat) → Text → Option Nat
  | fresh, acc, [] => if fresh then none else some acc
  | fresh, acc, c :: t =>
    if c = '_' then (if fresh then none else spacedDigits? radix true acc t)
    else (Numeral.digit? radix c).bind fun d => spacedDigits? radix false (acc * radix + d) t

def unsign : Text → Bool × Text
  | '-' :: t => (true, t)
  | '+' :: t => (false, t)
  | t => (false, t)

def plainDecimal? (t : Text) : Option Nat :=
  match t with
  | '0' :: _ :: _ => none
  | _ => spacedDigits? 10 true 0 t

/-- An integer of 64 bits with sign; the other radices take no sign. -/
def integer? (t : Text) : Option Int :=
  let value : Option Int := match t with
    | '0' :: 'x' :: t => (spacedDigits? 16 true 0 t).map (fun n => (n : Int))
    | '0' :: 'o' :: t => (spacedDigits? 8 true 0 t).map (fun n => (n : Int))
    | '0' :: 'b' :: t => (spacedDigits? 2 true 0 t).map (fun n => (n : Int))
    | t => let (negative, t) := unsign t
      (plainDecimal? t).map fun n => if negative then -(n : Int) else n
  value.filter fun n => -0x8000000000000000 ≤ n ∧ n < 0x8000000000000000

/-- A number `digits * 10 ^ exponent`, where `digits` has at most `count` of them. -/
structure Scaled where
  digits : Nat
  count : Nat
  exponent : Int
  deriving DecidableEq, Repr

def exponent? (t : Text) : Option Int :=
  let (negative, t) := unsign t
  (spacedDigits? 10 true 0 t).map fun n => if negative then -(n : Int) else n

def digitCount (t : Text) : Nat := t.countP (· ≠ '_')

def scaled? (t : Text) : Option Scaled := do
  let (whole, rest) := t.span fun c => c != '.' && c != 'e' && c != 'E'
  let n ← plainDecimal? whole
  match rest with
  | '.' :: r => do
    let (part, r) := r.span fun c => c != 'e' && c != 'E'
    let m ← spacedDigits? 10 true 0 part
    let k := digitCount part
    let e ← if r.isEmpty then some 0 else exponent? r.tail
    some ⟨n * Nat.pow 10 k + m, digitCount whole + k, e - k⟩
  | _ :: r => (exponent? r).map fun e => ⟨n, digitCount whole, e⟩
  | [] => none

/-- The least number that is nearer to `2 ^ 1024` than to the greatest double below, or as near. -/
def hugeBound : Nat := Nat.pow 2 1024 - Nat.pow 2 970

/-- Whether the nearest double is infinite. Numbers far from the bound are told by their size. -/
def Scaled.isHuge (s : Scaled) : Bool :=
  if s.digits = 0 ∨ s.count + s.exponent ≤ 308 then false
  else if 309 ≤ s.exponent then true
  else if 0 ≤ s.exponent then hugeBound ≤ s.digits * Nat.pow 10 s.exponent.toNat
  else hugeBound * Nat.pow 10 (-s.exponent).toNat ≤ s.digits

/-- A real number, or one of the two names; no positive one is too large for a double. -/
def isReal (t : Text) : Bool :=
  let (negative, t) := unsign t
  t == "inf" || t == "nan" || match scaled? t with
    | some s => negative || !s.isHuge
    | none => false

def pair? : Text → Option (Nat × Text)
  | a :: b :: t => (Numeral.natural? 10 100 [a, b]).map (·, t)
  | _ => none

/-- `hh:mm:ss`, perhaps with a fraction; returns what follows. -/
def clockRest? (t : Text) : Option Text := do
  let (hour, t) ← pair? t
  let t ← Text.after? [':'] t
  let (minute, t) ← pair? t
  let t ← Text.after? [':'] t
  let (second, t) ← pair? t
  if 24 ≤ hour ∨ 60 ≤ minute ∨ 61 ≤ second then none
  match t with
  | '.' :: r => if (r.takeWhile Char.isDigit).isEmpty then none else some (r.dropWhile Char.isDigit)
  | t => some t

/-- `yyyy-mm-dd`; returns what follows. -/
def dateRest? (t : Text) : Option Text := do
  let (century, t) ← pair? t
  let (rest, t) ← pair? t
  let t ← Text.after? ['-'] t
  let (month, t) ← pair? t
  let t ← Text.after? ['-'] t
  let (day, t) ← pair? t
  if month = 0 ∨ 12 < month ∨ day = 0 ∨ daysInMonth (century * 100 + rest) month < day then none
  some t

def isOffset (t : Text) : Bool :=
  match t with
  | ['Z'] | ['z'] => true
  | sign :: t => (sign == '+' || sign == '-') && match pair? t with
    | some (hour, ':' :: t) => hour < 24 && match pair? t with
      | some (minute, []) => minute < 60
      | _ => false
    | _ => false
  | [] => false

/-- A date, a time, or both with or without an offset. -/
def isMoment (t : Text) : Bool :=
  match clockRest? t with
  | some r => r.isEmpty
  | none => match dateRest? t with
    | some [] => true
    | some (sep :: r) => (sep == 'T' || sep == 't' || sep == ' ') && match clockRest? r with
      | some [] => true
      | some r => isOffset r
      | none => false
    | none => false

def isWordChar (c : Char) : Bool :=
  c.isAlphanum || c == '+' || c == '-' || c == '.' || c == ':' || c == '_'

/-- The characters of an unquoted value; a blank between a date and a time belongs to it. -/
def word (t : Text) : Text × Text :=
  let (w, r) := t.span isWordChar
  match r with
  | ' ' :: r' =>
    let (v, r'') := r'.span isWordChar
    if (dateRest? w) == some [] && (clockRest? v).isSome then (w ++ ' ' :: v, r'') else (w, r)
  | _ => (w, r)

def bare (t : Text) : Option (Item × Text) :=
  let (w, r) := word t
  if w == "true" then some (.boolean true, r)
  else if w == "false" then some (.boolean false, r)
  else match integer? w with
    | some i => some (.integer i, r)
    | none =>
      if isReal w then some (.real, r)
      else if isMoment w then some (.moment, r)
      else none

end CardShell.Toml
