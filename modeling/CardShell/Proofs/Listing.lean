import CardShell.Listing
import CardShell.Proofs.Text.Utf8
import CardShell.Proofs.Volume.Names

/-!
What a listing shows. Codes that set a colour are taken out again from the bytes, as the names of
entries and what is told about them hold no such codes; what is left are the lines of the entries,
or their names with nothing but blanks between them.
-/

set_option autoImplicit false

namespace CardShell

theorem Text.not_mem_bytes {t : Text} (h : '\x11' ∉ t) : 17 ∉ t.bytes :=
  fun hmem => h ((mem_bytes_iff (d := '\x11') rfl (by decide)).mp hmem)

namespace Listing

/-- The bytes without the codes that set a colour; `inCode` where one has begun. -/
def uncoloured : (inCode : Bool) → List UInt8 → List UInt8
  | _, [] => []
  | true, _ :: bs => uncoloured false bs
  | false, b :: bs => if b = 17 then uncoloured true bs else b :: uncoloured false bs

variable {bs cs : List UInt8} {colours : Option Colours} {e : Entry} {es : List Entry}

theorem uncoloured_append (h : 17 ∉ bs) (cs : List UInt8) :
    uncoloured false (bs ++ cs) = bs ++ uncoloured false cs := by
  induction bs with
  | nil => rfl
  | cons b bs ih =>
    rw [List.mem_cons, not_or] at h
    rw [List.cons_append, uncoloured, if_neg (Ne.symm h.1), ih h.2, List.cons_append]

theorem uncoloured_setColour (c : UInt8) (cs : List UInt8) :
    uncoloured false (setColour c ++ cs) = uncoloured false cs := rfl

theorem uncoloured_plain (colours : Option Colours) (cs : List UInt8) :
    uncoloured false (plain colours ++ cs) = uncoloured false cs := by
  cases colours with
  | none => rfl
  | some c => exact uncoloured_setColour _ cs

theorem uncoloured_plain_nil (colours : Option Colours) : uncoloured false (plain colours) = [] := by
  have happend := uncoloured_plain colours []
  rwa [List.append_nil] at happend

theorem uncoloured_tint (colours : Option Colours) (e : Entry) (cs : List UInt8) :
    uncoloured false (tint colours e ++ cs) = uncoloured false cs := by
  cases colours with
  | none => rfl
  | some c => exact uncoloured_setColour _ cs

section Lines

theorem mem_decimal {n : Nat} {c : Char} (h : c ∈ Numeral.decimal n) : c ≠ '\x11' := by
  have hdigit := Nat.isDigit_of_mem_toDigits (by decide) (by decide) h
  rintro rfl
  cases hdigit

theorem not_mem_padStart {t : Text} {c : Char} (width : Nat) (ht : '\x11' ∉ t)
    (hc : c ≠ '\x11') : '\x11' ∉ Text.padStart width c t := by
  unfold Text.padStart
  rw [List.mem_append, not_or]
  exact ⟨fun h => hc (List.eq_of_mem_replicate h).symm, ht⟩

theorem not_mem_details (e : Entry) : '\x11' ∉ details e := by
  have hdecimal : ∀ n, '\x11' ∉ Numeral.decimal n := fun n h => mem_decimal h rfl
  have hpadded : ∀ width n, '\x11' ∉ Numeral.zeroPadded width n :=
    fun width n => not_mem_padStart width (hdecimal n) (by decide)
  have hsize := not_mem_padStart 8 (hdecimal e.size) (c := ' ') (by decide)
  have hkind : '\x11' ∉ (if e.isDirectory then "D" else " " : String).toList := by
    split <;> decide
  unfold details
  simp only [List.mem_append, hpadded, hsize, hkind, false_or, or_false]
  decide

/-- What the long form tells about an entry, on a line of its own. -/
def line (e : Entry) : List UInt8 := Text.bytes (details e ++ e.name ++ "\r\n")

theorem uncoloured_longLine (h : '\x11' ∉ e.name) (cs : List UInt8) :
    uncoloured false (longLine colours e ++ cs) = line e ++ uncoloured false cs := by
  have hname : '\x11' ∉ e.name ++ ("\r\n" : String).toList := by
    rw [List.mem_append, not_or]
    exact ⟨h, by decide⟩
  have hline : line e = (details e).bytes ++ Text.bytes (e.name ++ ("\r\n" : String).toList) := by
    rw [line, List.append_assoc, Text.bytes_append]
  rw [hline, longLine, List.append_assoc, List.append_assoc, List.append_assoc, uncoloured_plain,
    uncoloured_append (Text.not_mem_bytes (not_mem_details e)), uncoloured_tint,
    uncoloured_append (Text.not_mem_bytes hname), List.append_assoc]

theorem uncoloured_longLines (colours : Option Colours) (h : ∀ e ∈ es, '\x11' ∉ e.name)
    (cs : List UInt8) :
    uncoloured false (es.flatMap (longLine colours) ++ cs) =
      es.flatMap line ++ uncoloured false cs := by
  induction es with
  | nil => rfl
  | cons e es ih =>
    obtain ⟨he, hes⟩ := List.forall_mem_cons.mp h
    rw [List.flatMap_cons, List.flatMap_cons, List.append_assoc, uncoloured_longLine he, ih hes,
      List.append_assoc]

/-- Spaces and line ends. -/
def IsGap (b : UInt8) : Prop := b = 32 ∨ b = 13 ∨ b = 10

/-- The names in this order, with a gap behind each of them and nothing else. -/
inductive Spread : List Text → List UInt8 → Prop
  | done : Spread [] []
  | gap {names bs} (b : UInt8) : IsGap b → Spread names bs → Spread names (b :: bs)
  | name {names bs} (t : Text) (b : UInt8) : IsGap b → Spread names bs →
      Spread (t :: names) (t.bytes ++ b :: bs)

/-- What is printed of the entries: their lines, or their names. -/
def Shows (long : Bool) (es : List Entry) (bs : List UInt8) : Prop :=
  if long then bs = es.flatMap line else Spread (es.map Entry.name) bs

theorem Spread.uncoloured_eq {names : List Text} (h : Spread names bs)
    (hn : ∀ t ∈ names, '\x11' ∉ t) : uncoloured false bs = bs := by
  have hgap : ∀ b, IsGap b → b ≠ 17 := by
    rintro b (rfl | rfl | rfl)
    all_goals decide
  induction h with
  | done => rfl
  | gap b hb _ ih => rw [uncoloured, if_neg (hgap b hb), ih hn]
  | name t b hb _ ih =>
    obtain ⟨ht, hn⟩ := List.forall_mem_cons.mp hn
    rw [uncoloured_append (Text.not_mem_bytes ht), uncoloured, if_neg (hgap b hb), ih hn]

end Lines

section Columns

theorem bytes_padEnd (width : Nat) (t : Text) :
    Text.bytes (Text.padEnd width t) = t.bytes ++ List.replicate (width - t.length) 32 := by
  have hblank : Text.bytes [' '] = [32] := by decide
  have hspaces : ∀ n, Text.bytes (List.replicate n ' ') = List.replicate n 32 := by
    intro n
    induction n with
    | zero => rfl
    | succ n ih =>
      rw [List.replicate_succ, List.replicate_succ, ← ih, ← List.singleton_append,
        Text.bytes_append, hblank]
      rfl
  rw [Text.padEnd, Text.bytes_append, hspaces]

/-- What is printed of the names from column `col` on, if no field is too wide for that. -/
def briefFrom (colours : Option Colours) (width perRow : Nat) : (col : Nat) → List Entry → List UInt8
  | _, [] => []
  | col, e :: es =>
    let (lineBreak, col) := if col = perRow then (Text.bytes "\r\n", 0) else ([], col)
    lineBreak ++ tint colours e ++ Text.bytes (Text.padEnd (fieldWidth width perRow col) e.name)
      ++ briefFrom colours width perRow (col + 1) es

def brief (colours : Option Colours) (columns : Nat) (es : List Entry) : List UInt8 :=
  briefFrom colours (columnWidth es) (perRow columns es) 0 es ++ Text.bytes "\r\n"

/-- The column that the next name goes to. -/
def nextColumn (perRow col : Nat) : Nat := if col = perRow then 0 else col

theorem briefFrom_cons (colours : Option Colours) (width perRow col : Nat) (e : Entry)
    (es : List Entry) :
    briefFrom colours width perRow col (e :: es) =
      (if col = perRow then Text.bytes "\r\n" else []) ++ (tint colours e ++
        (Text.bytes (Text.padEnd (fieldWidth width perRow (nextColumn perRow col)) e.name) ++
          briefFrom colours width perRow (nextColumn perRow col + 1) es)) := by
  by_cases hc : col = perRow
  · simp [briefFrom, nextColumn, hc]
  · simp [briefFrom, nextColumn, hc]

theorem uncoloured_briefFrom {width perRow : Nat} (h : ∀ e ∈ es, '\x11' ∉ e.name) (col : Nat)
    (cs : List UInt8) :
    uncoloured false (briefFrom colours width perRow col es ++ cs) =
      briefFrom none width perRow col es ++ uncoloured false cs := by
  induction es generalizing col with
  | nil => rfl
  | cons e es ih =>
    obtain ⟨he, hes⟩ := List.forall_mem_cons.mp h
    have hbreak : 17 ∉ (if col = perRow then Text.bytes ("\r\n" : String).toList else []) := by
      split <;> decide
    have hname : ∀ w, 17 ∉ Text.bytes (Text.padEnd w e.name) := by
      intro w
      rw [bytes_padEnd, List.mem_append, not_or]
      refine ⟨Text.not_mem_bytes he, fun hmem => ?_⟩
      cases List.eq_of_mem_replicate hmem
    rw [briefFrom_cons, briefFrom_cons, List.append_assoc, uncoloured_append hbreak,
      List.append_assoc, uncoloured_tint, List.append_assoc, uncoloured_append (hname _), ih hes]
    simp [tint]

/-- The bytes begin with a gap, and the names come behind it. -/
def GapFirst (names : List Text) (bs : List UInt8) : Prop :=
  ∃ b cs, IsGap b ∧ Spread names cs ∧ bs = b :: cs

theorem GapFirst.lineBreak {names : List Text} (h : Spread names bs) :
    GapFirst names (Text.bytes "\r\n" ++ bs) :=
  ⟨13, 10 :: bs, Or.inr (Or.inl rfl), .gap 10 (Or.inr (Or.inr rfl)) h, rfl⟩

theorem GapFirst.spread {names : List Text} (h : GapFirst names bs) : Spread names bs := by
  obtain ⟨b, cs, hb, hcs, rfl⟩ := h
  exact .gap b hb hcs

theorem GapFirst.name {names : List Text} (h : GapFirst names bs) (t : Text) :
    Spread (t :: names) (t.bytes ++ bs) := by
  obtain ⟨b, cs, hb, hcs, rfl⟩ := h
  exact .name t b hb hcs

theorem Spread.blanks {names : List Text} (h : Spread names bs) (k : Nat) :
    GapFirst names (List.replicate (k + 1) 32 ++ bs) := by
  have hspread : Spread names (List.replicate k 32 ++ bs) := by
    induction k with
    | zero => exact h
    | succ k ih => exact .gap 32 (Or.inl rfl) ih
  exact ⟨32, _, Or.inl rfl, hspread, rfl⟩

/-- A name that fills its row up to the last column has no blank behind it; the line break that
comes before the next name, or behind the last one, parts them. -/
theorem spread_briefFrom {width perRow : Nat} (h : ∀ e ∈ es, e.name.length < width) (col : Nat) :
    Spread (es.map Entry.name) (briefFrom none width perRow col es ++ Text.bytes "\r\n") ∧
    (col = perRow →
      GapFirst (es.map Entry.name) (briefFrom none width perRow col es ++ Text.bytes "\r\n")) := by
  induction es generalizing col with
  | nil =>
    have hdone : GapFirst [] (Text.bytes "\r\n" ++ []) := .lineBreak .done
    rw [List.append_nil] at hdone
    exact ⟨hdone.spread, fun _ => hdone⟩
  | cons e es ih =>
    obtain ⟨he, hes⟩ := List.forall_mem_cons.mp h
    obtain ⟨hspread, hfull⟩ := ih hes (nextColumn perRow col + 1)
    generalize hrest : briefFrom none width perRow (nextColumn perRow col + 1) es ++
      Text.bytes "\r\n" = rest at hspread hfull
    have hname : Spread ((e :: es).map Entry.name) (Text.bytes (Text.padEnd
        (fieldWidth width perRow (nextColumn perRow col)) e.name) ++ rest) := by
      rw [bytes_padEnd, List.append_assoc, List.map_cons]
      refine GapFirst.name ?_ e.name
      generalize hw : fieldWidth width perRow (nextColumn perRow col) = w
      unfold fieldWidth at hw
      cases hk : w - e.name.length with
      | succ k => exact hspread.blanks k
      | zero =>
        refine hfull ?_
        split at hw
        · assumption
        · omega
    rw [briefFrom_cons, tint, List.nil_append, List.append_assoc, List.append_assoc, hrest]
    split
    · exact ⟨(GapFirst.lineBreak hname).spread, fun _ => GapFirst.lineBreak hname⟩
    · rename_i hc
      exact ⟨hname, fun hcol => absurd hcol hc⟩

theorem columnWidth_le_iff {n : Nat} (hn : 0 < n) :
    columnWidth es ≤ n ↔ ∀ e ∈ es, e.name.length + 1 ≤ n := by
  unfold columnWidth
  cases hmax : (es.map fun e => e.name.length + 1).max? with
  | none =>
    have hnil : es = [] := by simpa using hmax
    subst hnil
    exact iff_of_true hn fun e he => absurd he List.not_mem_nil
  | some m =>
    obtain ⟨hmem, hle⟩ := List.max?_eq_some_iff.mp hmax
    constructor
    · exact fun h e he => Nat.le_trans (hle _ (List.mem_map_of_mem he)) h
    · intro h
      obtain ⟨e, he, rfl⟩ := List.mem_map.mp hmem
      exact h e he

theorem length_lt_columnWidth (he : e ∈ es) : e.name.length < columnWidth es := by
  have hmem : e.name.length + 1 ∈ es.map fun e => e.name.length + 1 := List.mem_map_of_mem he
  exact List.le_max?_getD_of_mem hmem

theorem columnWidth_pos (es : List Entry) : 0 < columnWidth es := by
  cases es with
  | nil => exact Nat.one_pos
  | cons e es => exact Nat.zero_lt_of_lt (length_lt_columnWidth List.mem_cons_self)

theorem spread_brief (columns : Nat) (es : List Entry) :
    Spread (es.map Entry.name) (brief none columns es) :=
  (spread_briefFrom (fun _ he => length_lt_columnWidth he) 0).1

theorem uncoloured_brief (colours : Option Colours) (columns : Nat) (h : ∀ e ∈ es, '\x11' ∉ e.name)
    (cs : List UInt8) :
    uncoloured false (brief colours columns es ++ cs) =
      brief none columns es ++ uncoloured false cs := by
  have hbreak : 17 ∉ Text.bytes "\r\n" := by decide
  rw [brief, List.append_assoc, uncoloured_briefFrom h, uncoloured_append hbreak, brief,
    List.append_assoc]

theorem perRow_pos (columns : Nat) (es : List Entry) : 0 < perRow columns es :=
  Nat.le_max_left 1 _

/-- The first column is as wide as any. -/
theorem fieldWidth_le {width perRow col : Nat} (hcol : col < perRow) :
    fieldWidth width perRow col ≤ fieldWidth width perRow 0 := by
  unfold fieldWidth
  split <;> split <;> omega

/-- No field of the brief form is wider than one can be: but in the last column, a blank follows each
name. -/
def Printable (columns : Nat) (es : List Entry) : Prop :=
  ∀ e ∈ es, e.name.length + (if perRow columns es = 1 then 0 else 1) ≤ widthLimit

instance (columns : Nat) (es : List Entry) : Decidable (Printable columns es) :=
  inferInstanceAs (Decidable (∀ e ∈ es, _))

theorem printable_iff {columns : Nat} :
    Printable columns es ↔ fieldWidth (columnWidth es) (perRow columns es) 0 ≤ widthLimit := by
  unfold Printable fieldWidth
  by_cases hone : perRow columns es = 1
  · rw [if_pos hone, if_pos hone.symm, Nat.sub_le_iff_le_add, columnWidth_le_iff (by decide)]
    simp only [Nat.add_zero, Nat.add_le_add_iff_right]
  · rw [if_neg hone, if_neg (Ne.symm hone), columnWidth_le_iff (by decide)]

theorem perRow_perm {columns : Nat} {es es' : List Entry} (h : es.Perm es') :
    perRow columns es = perRow columns es' := by
  have hle : ∀ {l l' : List Entry}, l.Perm l' → columnWidth l ≤ columnWidth l' := fun {_ l'} hl =>
    (columnWidth_le_iff (columnWidth_pos l')).mpr fun e he => length_lt_columnWidth (hl.mem_iff.mp he)
  unfold perRow
  rw [Nat.le_antisymm (hle h) (hle h.symm)]

theorem Printable.perm {columns : Nat} {es es' : List Entry} (h : es.Perm es')
    (hp : Printable columns es) : Printable columns es' := by
  intro e he
  rw [← perRow_perm h]
  exact hp e (h.mem_iff.mpr he)

end Columns

section Printout

theorem Spread.append {names names' : List Text} (h : Spread names bs) (h' : Spread names' cs) :
    Spread (names ++ names') (bs ++ cs) := by
  induction h with
  | done => exact h'
  | gap b hb _ ih => exact .gap b hb ih
  | name t b hb _ ih =>
    rw [List.cons_append, List.append_assoc, List.cons_append]
    exact .name t b hb ih

theorem Spread.lineBreak : Spread [] (Text.bytes "\r\n") :=
  .gap 13 (Or.inr (Or.inl rfl)) (.gap 10 (Or.inr (Or.inr rfl)) .done)

theorem Shows.uncoloured_eq {long : Bool} (h : Shows long es bs) (hn : ∀ e ∈ es, '\x11' ∉ e.name) :
    uncoloured false bs = bs := by
  cases long with
  | true =>
    have hlines : bs = es.flatMap (longLine none) := by
      refine Eq.trans (show bs = es.flatMap line from h) (congrArg es.flatMap (funext fun e => ?_))
      unfold line longLine plain tint
      rw [List.nil_append, List.append_nil, List.append_assoc, Text.bytes_append]
    have hsame := uncoloured_longLines none hn []
    rw [List.append_nil, ← hlines, uncoloured, List.append_nil] at hsame
    exact hsame.trans (show bs = es.flatMap line from h).symm
  | false => exact Spread.uncoloured_eq h (List.forall_mem_map.mpr hn)

/-- Each of the entries is printed once, in some order, whatever the colours. -/
def ShowsAll (long : Bool) (es : List Entry) (bs : List UInt8) : Prop :=
  ∃ es', es'.Perm es ∧ Shows long es' (uncoloured false bs)

theorem Shows.all {long : Bool} (h : Shows long es bs) (hn : ∀ e ∈ es, '\x11' ∉ e.name) :
    ShowsAll long es bs := ⟨es, .rfl, (h.uncoloured_eq hn).symm ▸ h⟩

theorem showsAll_sorted (long : Bool) (columns : Nat) (hn : ∀ e ∈ es, '\x11' ∉ e.name) :
    ShowsAll long es ((if long then (sort es).flatMap (longLine colours)
      else brief colours columns (sort es)) ++ plain colours) := by
  have hperm : (sort es).Perm es := List.mergeSort_perm es before
  have hsorted : ∀ e ∈ sort es, '\x11' ∉ e.name := fun e he => hn e (hperm.mem_iff.mp he)
  refine ⟨sort es, hperm, ?_⟩
  cases long with
  | true =>
    have hlines := uncoloured_longLines colours hsorted (plain colours)
    rw [uncoloured_plain_nil, List.append_nil] at hlines
    exact hlines
  | false =>
    have hnames := uncoloured_brief colours columns hsorted (plain colours)
    rw [uncoloured_plain_nil, List.append_nil] at hnames
    exact hnames.symm ▸ spread_brief columns (sort es)

/-- The heading where the heap has no room for the parts of the path. -/
def shortHeading (label : Text) : Text := "Volume: " ++ volumeName label ++ "\r\n\r\n"

def fullHeading (label directory : Text) : Text :=
  "Volume: " ++ volumeName label ++ "\r\n" ++ ("Directory: " ++ directory ++ "\r\n\r\n")

/-- What the full heading calls the directory; `here` is the current one. -/
def nameShown (here dir : Text) (pattern : Option Text) : Text :=
  if dir = [] ∨ dir = ['.'] then here
  else if pattern.isSome ∧ dir.getLast? ≠ some '/' then dir ++ "/"
  else dir

def notice : Text := "No files found\r\n"

/-- What may be printed for the entries `es` of a directory. That there are none is told below the
full heading and nowhere else. -/
inductive Printout (label directory : Text) (long : Bool) (es : List Entry) : List UInt8 → Prop
  | short {bs : List UInt8} : ShowsAll long es bs →
      Printout label directory long es ((shortHeading label).bytes ++ bs)
  | full {bs : List UInt8} : es ≠ [] → ShowsAll long es bs →
      Printout label directory long es ((fullHeading label directory).bytes ++ bs)
  | none : es = [] →
      Printout label directory long es ((fullHeading label directory).bytes ++ notice.bytes)

end Printout

end Listing

end CardShell
