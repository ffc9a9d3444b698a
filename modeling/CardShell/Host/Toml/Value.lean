import CardShell.Text.Basic

/-!
A TOML document: tables of named items in order of definition. How a table came about decides
what may still be added to it.
-/

set_option autoImplicit false

namespace CardShell.Toml

/-- `header` and `inline` tables are defined once; `implied` ones stand above a header,
`dotted` ones come from a dotted key. -/
inductive Kind
  | root | header | implied | dotted | inline
  deriving DecidableEq, Repr

inductive Item
  | text (t : Text)
  | integer (i : Int)
  | boolean (b : Bool)
  | real
  | moment
  | list (items : List Item)
  | table (kind : Kind) (entries : List (Text × Item))
  | tables (rows : List (List (Text × Item)))
  deriving Inhabited

abbrev Entries := List (Text × Item)

namespace Entries

def get? (key : Text) : Entries → Option Item
  | [] => none
  | (k, v) :: r => if k = key then some v else get? key r

def set (key : Text) (item : Item) : Entries → Entries
  | [] => [(key, item)]
  | (k, v) :: r => if k = key then (k, item) :: r else (k, v) :: set key item r

/-- `key = item` for a key not yet there. -/
def add? (key : Text) (item : Item) (es : Entries) : Option Entries :=
  match get? key es with
  | some _ => none
  | none => some (set key item es)

end Entries

/-- Applies `f` to the table at `path`, making the missing tables on the way. A dotted key may not
go through a table that has its own definition. -/
def descend (dotted : Bool) (f : Kind → Entries → Option Entries) :
    (path : List Text) → Kind → Entries → Option Entries
  | [], kind, es => f kind es
  | key :: path, _, es =>
    match es.get? key with
    | none =>
      let kind := if dotted then Kind.dotted else .implied
      (descend dotted f path kind []).map fun child => es.set key (.table kind child)
    | some (.table kind child) =>
      if kind = .inline || (dotted && kind != .implied && kind != .dotted) then none
      else (descend dotted f path kind child).map fun child => es.set key (.table kind child)
    | some (.tables rows) =>
      match rows.getLast? with
      | none => none
      | some row =>
        (descend dotted f path .header row).map fun row =>
          es.set key (.tables (rows.dropLast ++ [row]))
    | some _ => none

/-- `path.key = item` within the table `es` of kind `kind`. -/
def addDotted (kind : Kind) (path : List Text) (key : Text) (item : Item) (es : Entries) :
    Option Entries :=
  descend true (fun kind es => if path = [] ∨ kind = .dotted then es.add? key item else none)
    path kind es

/-- `[path.key]`: a new table, or one that so far only stood above another header. -/
def openTable (path : List Text) (key : Text) (es : Entries) : Option Entries :=
  descend false (fun _ es => match es.get? key with
    | none => some (es.set key (.table .header []))
    | some (.table .implied child) => some (es.set key (.table .header child))
    | some _ => none) path .root es

/-- `[[path.key]]`: one more row. -/
def openRow (path : List Text) (key : Text) (es : Entries) : Option Entries :=
  descend false (fun _ es => match es.get? key with
    | none => some (es.set key (.tables [[]]))
    | some (.tables rows) => some (es.set key (.tables (rows ++ [[]])))
    | some _ => none) path .root es

end CardShell.Toml
