import CardShell.Proofs.Listing
import Mathlib.Data.List.TakeDrop

/-!
Names in columns, as rows of text. The rows are told here by which entries stand in them, one for
each column there is room for, and shown to be what is printed name by name.
-/

set_option autoImplicit false

namespace CardShell.Listing

variable {es l rest : List Entry} {m c col : Nat}

/-- How many characters the longest name has. -/
def longest (es : List Entry) : Nat := ((es.map fun e => e.name.length).max?).getD 0

theorem length_le_longest {e : Entry} (he : e ∈ es) : e.name.length ≤ longest es := by
  have hmem : e.name.length ∈ es.map fun e => e.name.length := List.mem_map_of_mem he
  exact List.le_max?_getD_of_mem hmem

theorem columnWidth_eq (es : List Entry) : columnWidth es = longest es + 1 := by
  unfold columnWidth longest
  cases hmax : (es.map fun e => e.name.length).max? with
  | none =>
    have hnil : es = [] := by simpa using hmax
    subst hnil
    rfl
  | some m =>
    obtain ⟨hmem, hle⟩ := List.max?_eq_some_iff.mp hmax
    have hwidth : (es.map fun e => e.name.length + 1).max? = some (m + 1) := by
      rw [List.max?_eq_some_iff]
      constructor
      · obtain ⟨e, he, heq⟩ := List.mem_map.mp hmem
        exact List.mem_map.mpr ⟨e, he, congrArg (· + 1) heq⟩
      · intro n hn
        obtain ⟨e, he, heq⟩ := List.mem_map.mp hn
        have hlength := hle e.name.length (List.mem_map_of_mem he)
        omega
    rw [hwidth]
    rfl

/-- How many columns there is room for, each one wider than the longest name; one at least. -/
def columnCount (columns : Nat) (es : List Entry) : Nat := max 1 (columns / (longest es + 1))

theorem columnCount_pos (columns : Nat) (es : List Entry) : 0 < columnCount columns es := by
  unfold columnCount
  omega

theorem perRow_eq (columns : Nat) (es : List Entry) : perRow columns es = columnCount columns es := by
  unfold perRow columnCount
  rw [columnWidth_eq]

section Rows

/-- The names of a row from column `col` of `c` on, each filled up with blanks to `m` characters and
but in the last column to one more. -/
def rowFrom (m c : Nat) : (col : Nat) → List Entry → Text
  | _, [] => []
  | col, e :: es => Text.padEnd (if col + 1 = c then m else m + 1) e.name ++ rowFrom m c (col + 1) es

/-- The rows for the entries: the first `c` of them in the first row, and so on. -/
def rows (m c : Nat) (es : List Entry) : List Text :=
  (List.range ((es.length + c - 1) / c)).map fun i => rowFrom m c 0 ((es.drop (i * c)).take c)

theorem rowCount_eq (hc : 0 < c) {n : Nat} (hn : 0 < n) :
    (n + c - 1) / c = (n - c + c - 1) / c + 1 := by
  by_cases hle : c ≤ n
  · have hsum : n + c - 1 = n - c + c - 1 + c := by omega
    rw [hsum, Nat.add_div_right _ hc]
  · have hshort : n - c + c - 1 = c - 1 := by omega
    have hsum : n + c - 1 = n - 1 + c := by omega
    rw [hshort, hsum, Nat.add_div_right _ hc, Nat.div_eq_of_lt (by omega), Nat.div_eq_of_lt (by omega)]

theorem rows_nil (m : Nat) (hc : 0 < c) : rows m c [] = [] := by
  unfold rows
  have hzero : (List.length ([] : List Entry) + c - 1) / c = 0 := by
    apply Nat.div_eq_of_lt
    simp only [List.length_nil]
    omega
  rw [hzero]
  rfl

theorem rows_eq (m : Nat) (hc : 0 < c) (hes : es ≠ []) :
    rows m c es = rowFrom m c 0 (es.take c) :: rows m c (es.drop c) := by
  unfold rows
  rw [rowCount_eq hc (List.length_pos_iff.mpr hes), List.range_succ_eq_map, List.length_drop]
  simp [Nat.add_mul, Nat.add_comm]

theorem getElem?_rows (m : Nat) (hc : 0 < c) {i : Nat} (hi : i < es.length) :
    (rows m c es)[i / c]? = some (rowFrom m c 0 ((es.drop (i / c * c)).take c)) := by
  unfold rows
  rw [List.getElem?_map, List.getElem?_range]
  · rfl
  · rw [Nat.div_lt_iff_lt_mul hc]
    have h := Nat.div_add_mod (es.length + c - 1) c
    have hlt := Nat.mod_lt (es.length + c - 1) hc
    rw [Nat.mul_comm] at h
    omega

/-- The entries of a row fit into it from its first column on. -/
theorem fits_take (c : Nat) (l : List Entry) : 0 + (l.take c).length ≤ c := by
  rw [Nat.zero_add]
  exact List.length_take_le c l

end Rows

section Cells

theorem length_padEnd {width : Nat} {t : Text} (h : t.length ≤ width) :
    (Text.padEnd width t).length = width := by
  unfold Text.padEnd
  rw [List.length_append, List.length_replicate]
  omega

/-- The `k`-th name of a row begins at the `k`-th column, and nothing but blanks follow it there. -/
theorem cell_rowFrom (hm : ∀ e ∈ l, e.name.length ≤ m) (hfits : col + l.length ≤ c) {k : Nat}
    (hk : k < l.length) :
    ∃ blanks, ((rowFrom m c col l).drop (k * (m + 1))).take (m + 1) =
      l[k].name ++ List.replicate blanks ' ' := by
  induction l generalizing col k with
  | nil => exact absurd hk (Nat.not_lt_zero k)
  | cons e l ih =>
    obtain ⟨he, hl⟩ := List.forall_mem_cons.mp hm
    rw [List.length_cons] at hfits hk
    rw [rowFrom]
    cases k with
    | zero =>
      refine ⟨(if col + 1 = c then m else m + 1) - e.name.length, ?_⟩
      rw [Nat.zero_mul, List.drop_zero]
      split
      · rename_i hlast
        have hnil : l = [] := List.eq_nil_of_length_eq_zero (by omega)
        subst hnil
        have hlength := length_padEnd he
        rw [rowFrom, List.append_nil, List.take_of_length_le (by omega)]
        rfl
      · rw [List.take_left' (length_padEnd (Nat.le_succ_of_le he))]
        rfl
    | succ k =>
      have hinner : ¬ col + 1 = c := by omega
      have hlength : (Text.padEnd (m + 1) e.name).length = m + 1 :=
        length_padEnd (Nat.le_succ_of_le he)
      have hfits' : col + 1 + l.length ≤ c := by omega
      have hk' : k < l.length := by omega
      obtain ⟨blanks, hcell⟩ := ih hl hfits' hk'
      refine ⟨blanks, ?_⟩
      have hindex : (k + 1) * (m + 1) = m + 1 + k * (m + 1) := by
        rw [Nat.succ_mul, Nat.add_comm]
      rw [if_neg hinner, hindex, ← List.drop_drop, List.drop_left' hlength]
      exact hcell

/-- A row ends before its last column would, were that as wide as the others. -/
theorem length_rowFrom_lt (hm : ∀ e ∈ l, e.name.length ≤ m) (hcol : col < c)
    (hfits : col + l.length ≤ c) : (rowFrom m c col l).length < (c - col) * (m + 1) := by
  induction l generalizing col with
  | nil => exact Nat.mul_pos (by omega) (Nat.succ_pos m)
  | cons e l ih =>
    obtain ⟨he, hl⟩ := List.forall_mem_cons.mp hm
    rw [List.length_cons] at hfits
    rw [rowFrom, List.length_append]
    by_cases hlast : col + 1 = c
    · have hnil : l = [] := List.eq_nil_of_length_eq_zero (by omega)
      have hone : c - col = 1 := by omega
      subst hnil
      rw [if_pos hlast, length_padEnd he, hone, rowFrom, List.length_nil]
      omega
    · have hcol' : col + 1 < c := by omega
      have hfits' : col + 1 + l.length ≤ c := by omega
      have hrest := ih hl hcol' hfits'
      have hcolumns : c - col = c - (col + 1) + 1 := by omega
      rw [if_neg hlast, length_padEnd (Nat.le_succ_of_le he), hcolumns, Nat.succ_mul]
      omega

/-- A row stays one short of `columns` characters, or is as long as one name. -/
theorem length_rowFrom_le {columns : Nat} (hm : ∀ e ∈ l, e.name.length ≤ m)
    (hc : c = max 1 (columns / (m + 1))) (hfits : 0 + l.length ≤ c) :
    (rowFrom m c 0 l).length ≤ max (columns - 1) m := by
  have hlt := length_rowFrom_lt hm (by omega) hfits
  have hfull : c * (m + 1) ≤ max columns (m + 1) := by
    have hdiv := Nat.div_mul_le_self columns (m + 1)
    rcases Nat.le_total (columns / (m + 1)) 1 with hone | hmany
    · rw [hc, Nat.max_eq_left hone]
      omega
    · rw [hc, Nat.max_eq_right hmany]
      omega
  rw [Nat.sub_zero] at hlt
  omega

end Cells

section Printing

/-- Names that fit into the row are printed as a part of it, and the next one goes behind them. -/
theorem briefFrom_row (hfits : col + l.length ≤ c) (rest : List Entry) :
    briefFrom none (m + 1) c col (l ++ rest) =
      Text.bytes (rowFrom m c col l) ++ briefFrom none (m + 1) c (col + l.length) rest := by
  induction l generalizing col with
  | nil => rfl
  | cons e l ih =>
    rw [List.length_cons] at hfits
    have hcol : col ≠ c := by omega
    have hnext : nextColumn c col = col := if_neg hcol
    rw [List.cons_append, briefFrom_cons, if_neg hcol, hnext, ih (by omega), rowFrom, fieldWidth,
      Text.bytes_append, List.length_cons, Nat.add_sub_cancel, Nat.add_assoc col 1, Nat.add_comm 1]
    simp [tint]

theorem briefFrom_full (hc : 0 < c) (hrest : rest ≠ []) :
    briefFrom none (m + 1) c c rest = Text.bytes "\r\n" ++ briefFrom none (m + 1) c 0 rest := by
  cases rest with
  | nil => exact absurd rfl hrest
  | cons e rest =>
    have hfull : nextColumn c c = 0 := if_pos rfl
    have hempty : 0 ≠ c := by omega
    have hfirst : nextColumn c 0 = 0 := if_neg hempty
    rw [briefFrom_cons, briefFrom_cons, if_pos rfl, if_neg hempty, hfull, hfirst]
    rfl

/-- The names are printed row by row, each on a line. -/
theorem briefFrom_rows (hc : 0 < c) (hes : es ≠ []) :
    briefFrom none (m + 1) c 0 es ++ Text.bytes "\r\n" =
      Text.bytes ((rows m c es).flatMap (· ++ "\r\n")) := by
  induction hn : es.length using Nat.strongRecOn generalizing es with
  | ind n ih =>
  have hrow := briefFrom_row (m := m) (fits_take c es) (es.drop c)
  rw [List.take_append_drop] at hrow
  rw [hrow, rows_eq m hc hes, List.flatMap_cons, Text.bytes_append, Text.bytes_append,
    List.append_assoc, List.append_assoc]
  congr 1
  by_cases hrest : es.drop c = []
  · rw [hrest, rows_nil m hc]
    simp [briefFrom, Text.bytes]
  · have hlength : (es.take c).length = c := by
      have hpos := List.length_pos_iff.mpr hrest
      rw [List.length_drop] at hpos
      rw [List.length_take]
      omega
    have hless : (es.drop c).length < n := by
      have hpos := List.length_pos_iff.mpr hes
      rw [List.length_drop]
      omega
    rw [Nat.zero_add, hlength, briefFrom_full hc hrest, List.append_assoc,
      ih _ hless hrest rfl]

/-- The rows as they look on a display of so many columns. -/
structure Laid (columns : Nat) (es : List Entry) (rows : List Text) : Prop where
  /-- A row has no line end in it. -/
  unbroken : ∀ row ∈ rows, '\r' ∉ row ∧ '\n' ∉ row
  length_le : ∀ row ∈ rows, row.length ≤ max (columns - 1) (longest es)
  /-- Each name stands whole in its column, with nothing but blanks behind it. -/
  placed : ∀ i (h : i < es.length), ∃ row blanks,
    rows[i / columnCount columns es]? = some row ∧
      (row.drop (i % columnCount columns es * (longest es + 1))).take (longest es + 1) =
        es[i].name ++ List.replicate blanks ' '

theorem mem_rowFrom {d : Char} (h : d ∈ rowFrom m c col l) : d = ' ' ∨ ∃ e ∈ l, d ∈ e.name := by
  induction l generalizing col with
  | nil => cases h
  | cons e l ih =>
    unfold rowFrom Text.padEnd at h
    rcases List.mem_append.mp h with h | h
    · rcases List.mem_append.mp h with h | h
      · exact Or.inr ⟨e, List.mem_cons_self, h⟩
      · exact Or.inl (List.eq_of_mem_replicate h)
    · rcases ih h with h | ⟨f, hf, hd⟩
      · exact Or.inl h
      · exact Or.inr ⟨f, List.mem_cons_of_mem e hf, hd⟩

theorem exists_of_mem_rows {row : Text} (h : row ∈ rows m c es) :
    ∃ i, row = rowFrom m c 0 ((es.drop (i * c)).take c) := by
  obtain ⟨i, _, hrow⟩ := List.mem_map.mp h
  exact ⟨i, hrow.symm⟩

theorem mem_of_mem_slice {e : Entry} {i : Nat} (h : e ∈ (es.drop (i * c)).take c) : e ∈ es :=
  List.mem_of_mem_drop (List.mem_of_mem_take h)

theorem laid_rows (columns : Nat) (hn : ∀ e ∈ es, ∀ d, Text.isControl d = true → d ∉ e.name) :
    Laid columns es (rows (longest es) (columnCount columns es) es) := by
  have hc := columnCount_pos columns es
  generalize hcount : columnCount columns es = c at hc
  have hshort : ∀ i, ∀ e ∈ (es.drop (i * c)).take c, e.name.length ≤ longest es := by
    intro i e he
    exact length_le_longest (mem_of_mem_slice he)
  constructor
  · intro row hrow
    obtain ⟨i, rfl⟩ := exists_of_mem_rows hrow
    have hnot : ∀ d, Text.isControl d = true → d ≠ ' ' →
        d ∉ rowFrom (longest es) c 0 ((es.drop (i * c)).take c) := by
      intro d hd hblank hmem
      rcases mem_rowFrom hmem with h | ⟨e, he, h⟩
      · exact hblank h
      · exact hn e (mem_of_mem_slice he) d hd h
    exact ⟨hnot _ (by decide) (by decide), hnot _ (by decide) (by decide)⟩
  · intro row hrow
    obtain ⟨i, rfl⟩ := exists_of_mem_rows hrow
    exact length_rowFrom_le (hshort i) hcount.symm (fits_take c _)
  · intro i hi
    have hdiv := Nat.div_add_mod' i c
    have hmod := Nat.mod_lt i hc
    have hk : i % c < ((es.drop (i / c * c)).take c).length := by
      rw [List.length_take, List.length_drop]
      omega
    obtain ⟨blanks, hcell⟩ := cell_rowFrom (hshort (i / c)) (fits_take c _) hk
    rw [hcount]
    refine ⟨_, blanks, getElem?_rows _ hc hi, ?_⟩
    rw [hcell, List.getElem_take, List.getElem_drop]
    simp only [hdiv]

/-- The brief form, less its colours, is the rows of the names, each on a line of its own. -/
theorem brief_eq_rows (columns : Nat) (hes : es ≠ []) :
    brief none columns es = Text.bytes
      ((rows (longest es) (columnCount columns es) es).flatMap (· ++ "\r\n")) := by
  unfold brief
  rw [perRow_eq, columnWidth_eq]
  exact briefFrom_rows (columnCount_pos columns es) hes

end Printing

end CardShell.Listing
