import CardShell.Host.Toml.Scalar

/-!
Reading TOML 1.0. A document is a run of lines, each blank, a comment, a header or `key = value`;
only texts in triple quotes and lists go over more lines than one. Lists and inline tables nest less
than 80 deep, and a key has less than 80 parts.
-/

set_option autoImplicit false

namespace CardShell.Toml

/-- Skips a comment, if one starts here; it ends before its line end. -/
def skipComment : Text → Option Text
  | '#' :: t =>
    let r := t.dropWhile isPlain
    match r with
    | [] => some []
    | _ => if (newline? r).isSome then some r else none
  | t => some t

def isKeyChar (c : Char) : Bool := c.isAlphanum || c == '-' || c == '_'

/-- One part of a key: bare, or a text on one line. -/
def keyPart (t : Text) : Option (Text × Text) :=
  match t with
  | '"' :: r => basicRest t.length r
  | c :: r =>
    if c = apostrophe then literalRest r
    else
      let (w, r) := t.span isKeyChar
      if w.isEmpty then none else some (w, r)
  | [] => none

/-- How deep lists and inline tables nest, and how many parts a key has, at most. -/
def maxDepth : Nat := 79

/-- A key in its parts: those before the last, and the last; `count` parts at most. -/
def key : (count : Nat) → Text → Option (List Text × Text × Text)
  | 0, _ => none
  | count + 1, t => do
    let (part, r) ← keyPart t
    match skipSpace r with
    | '.' :: r => do
      let (path, last, r) ← key count (skipSpace r)
      some (part :: path, last, r)
    | r => some ([], part, r)

/-- Blanks, line ends and comments inside a list. -/
def skipLines : (fuel : Nat) → Text → Option Text
  | 0, t => some t
  | fuel + 1, t => do
    let t ← skipComment (skipSpace t)
    match newline? t with
    | some t => skipLines fuel t
    | none => some t

def items (value : Text → Option (Item × Text)) : (fuel : Nat) → Text → Option (List Item × Text)
  | 0, _ => none
  | fuel + 1, t => do
    let t ← skipLines t.length t
    match t with
    | ']' :: r => some ([], r)
    | _ => do
      let (item, t) ← value t
      let t ← skipLines t.length t
      match t with
      | ']' :: r => some ([item], r)
      | ',' :: r => do
        let (rest, r) ← items value fuel r
        some (item :: rest, r)
      | _ => none

/-- `key = value` -/
def pair (value : Text → Option (Item × Text)) (t : Text) :
    Option (List Text × Text × Item × Text) := do
  let (path, last, t) ← key maxDepth t
  match t with
  | '=' :: t => do
    let (item, t) ← value (skipSpace t)
    some (path, last, item, t)
  | _ => none

/-- What stands between the braces of an inline table, whose opening brace may be followed by
the closing one only if `first`. -/
def members (value : Text → Option (Item × Text)) :
    (fuel : Nat) → (first : Bool) → Entries → Text → Option (Entries × Text)
  | 0, _, _, _ => none
  | fuel + 1, first, es, t => do
    let t := skipSpace t
    match t, first with
    | '\x7d' :: r, true => some (es, r)
    | _, _ => do
      let (path, last, item, t) ← pair value t
      let es ← addDotted .inline path last item es
      match skipSpace t with
      | '\x7d' :: r => some (es, r)
      | ',' :: r => members value fuel false es r
      | _ => none

def flat (t : Text) : Option (Item × Text) :=
  match t with
  | [] => none
  | c :: _ =>
    if c = quote ∨ c = apostrophe then (quoted c t).map fun (s, t) => (.text s, t) else bare t

/-- A value in which lists and inline tables nest at most `depth` deep. -/
def value : (depth : Nat) → Text → Option (Item × Text)
  | depth + 1, '[' :: r => (items (value depth) r.length r).map fun (is, t) => (.list is, t)
  | depth + 1, '\x7b' :: r =>
    (members (value depth) r.length true [] r).map fun (es, t) => (.table .inline es, t)
  | _, t => flat t

/-- The end of a line: blanks, perhaps a comment, and a line end or the end of the document. -/
def lineEnd (t : Text) : Option Text := do
  let t ← skipComment (skipSpace t)
  match t with
  | [] => some []
  | t => newline? t

def header (close t : Text) : Option (List Text × Text × Text) := do
  let t := skipSpace t
  let (path, last, t) ← key maxDepth t
  let t ← Text.after? close (skipSpace t)
  some (path, last, t)

/-- The lines of a document whose keys belong to the table at `here`. -/
def body : (fuel : Nat) → (here : List Text) → Entries → Text → Option Entries
  | 0, _, es, t => if t.isEmpty then some es else none
  | fuel + 1, here, es, t =>
    match skipSpace t with
    | [] => some es
    | '[' :: '[' :: r => do
      let (path, last, r) ← header [']', ']'] r
      let es ← openRow path last es
      body fuel (path ++ [last]) es (← lineEnd r)
    | '[' :: r => do
      let (path, last, r) ← header [']'] r
      let es ← openTable path last es
      body fuel (path ++ [last]) es (← lineEnd r)
    | '#' :: _ | '\n' :: _ | '\r' :: _ => do body fuel here es (← lineEnd t)
    | t => do
      let (path, last, item, t) ← pair (value maxDepth) t
      let es ← descend false (fun kind es => addDotted kind path last item es) here .root es
      body fuel here es (← lineEnd t)

/-- The top table of a document; a byte order mark may come first. -/
def parse? (t : Text) : Option Entries :=
  let t := match t with
    | '\uFEFF' :: r => r
    | t => t
  body (t.length + 1) [] [] t

end CardShell.Toml
