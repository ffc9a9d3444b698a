import CardShell.Proofs.Console
import CardShell.Proofs.Listing
import CardShell.Proofs.Listing.Order
import CardShell.Proofs.Machine

/-!
Printing the entries of a directory in order. The long form is always printed; of the brief form all is
printed if no field is too wide, and otherwise the first field of all is and the machine stops there.
-/

set_option autoImplicit false

namespace CardShell.Shell

open CardShell.Action Listing

variable {m : Machine} {es : List Entry} {colours : Option Colours} {width perRow col : Nat}

/-- A line break where the row is full, and the colour come before the field is filled up. -/
theorem printFields_cons (colours : Option Colours) (width perRow col : Nat) (e : Entry)
    (es : List Entry) (m : Machine) :
    let before := m.console.put ((if col = perRow then Text.bytes "\r\n" else []) ++ tint colours e)
    let w := fieldWidth width perRow (nextColumn perRow col)
    printFields colours width perRow col (e :: es) m =
      if widthLimit < w then .error (.stopped .tooWide) { m with console := before }
      else printFields colours width perRow (nextColumn perRow col + 1) es
        { m with console := before.put (Text.bytes (Text.padEnd w e.name)) } := by
  intro before w
  have hsplit : (if col = perRow then (Text.bytes "\r\n", 0) else ([], col)) =
      (if col = perRow then Text.bytes "\r\n" else [], nextColumn perRow col) := by
    unfold nextColumn
    split <;> rfl
  rw [printFields, hsplit]
  dsimp only
  have hbefore : printBytes ((if col = perRow then Text.bytes "\r\n" else []) ++ tint colours e) m =
      .ok () { m with console := before } := rfl
  rw [bind_apply, hbefore]
  dsimp only
  split
  · rfl
  · rfl

theorem printFields_ok (colours : Option Colours) (es : List Entry) (hpos : 0 < perRow)
    (hfields : ∀ col, col < perRow → fieldWidth width perRow col ≤ widthLimit) (hcol : col ≤ perRow)
    (m : Machine) :
    ∃ c, printFields colours width perRow col es m = .ok () { m with console := c } ∧
      c.columns = m.console.columns ∧
      c.output = m.console.output ++ briefFrom colours width perRow col es := by
  induction es generalizing col m with
  | nil => exact ⟨m.console, rfl, rfl, (List.append_nil _).symm⟩
  | cons e es ih =>
    have hnext : nextColumn perRow col < perRow := by
      unfold nextColumn
      split <;> omega
    rw [printFields_cons, if_neg (Nat.not_lt.mpr (hfields _ hnext))]
    let before := m.console.put ((if col = perRow then Text.bytes "\r\n" else []) ++ tint colours e)
    let name := Text.padEnd (fieldWidth width perRow (nextColumn perRow col)) e.name
    obtain ⟨c, hx, hcolumns, houtput⟩ := ih (Nat.succ_le_of_lt hnext)
      { m with console := before.put name.bytes }
    refine ⟨c, hx, hcolumns, ?_⟩
    rw [houtput, briefFrom_cons, Console.output_put, Console.output_put, List.append_assoc,
      List.append_assoc, List.append_assoc]

/-- The first field is the widest, so it is the one to stop the machine. -/
theorem printFields_stops (colours : Option Colours) (hpos : 0 < perRow) (hes : es ≠ [])
    (hwide : widthLimit < fieldWidth width perRow 0) (m : Machine) :
    ∃ c, printFields colours width perRow 0 es m =
      .error (.stopped .tooWide) { m with console := c } := by
  obtain ⟨e, rest, rfl⟩ := List.exists_cons_of_ne_nil hes
  have hfirst : nextColumn perRow 0 = 0 := if_neg (Nat.ne_of_lt hpos)
  rw [printFields_cons, hfirst, if_pos hwide]
  exact ⟨_, rfl⟩

/-- What is printed of the entries in order. -/
def inOrder (console : Console) (long : Bool) (es : List Entry) : List UInt8 :=
  let colours := pickColours console
  (if long then (sort es).flatMap (longLine colours) else brief colours console.columns (sort es)) ++
    plain colours

theorem printEntries_ok {long : Bool} (h : long = true ∨ Printable m.console.columns es) :
    ∃ c, printEntries es long m = .ok () { m with console := c } ∧
      c.columns = m.console.columns ∧ c.output = m.console.output ++ inOrder m.console long es := by
  unfold printEntries inOrder
  rw [bind_apply, get_apply]
  dsimp only
  cases long with
  | true =>
    refine ⟨_, rfl, rfl, ?_⟩
    rw [Console.output_put, Console.output_put, List.append_assoc]
    rfl
  | false =>
    have hprint := (h.resolve_left Bool.false_ne_true).perm (sort_perm es).symm
    obtain ⟨c, hx, hcolumns, houtput⟩ := printFields_ok (pickColours m.console) (sort es)
      (perRow_pos m.console.columns (sort es))
      (fun col hcol => Nat.le_trans (fieldWidth_le hcol) (printable_iff.mp hprint)) (Nat.zero_le _) m
    refine ⟨(c.put (Text.bytes "\r\n")).put (plain (pickColours m.console)), ?_, hcolumns, ?_⟩
    · unfold printBrief
      rw [if_neg Bool.false_ne_true, bind_apply, bind_apply, hx]
      rfl
    · rw [Console.output_put, Console.output_put, houtput, if_neg Bool.false_ne_true, brief]
      simp only [List.append_assoc]

theorem printEntries_stops (h : ¬ Printable m.console.columns es) :
    ∃ c, printEntries es false m = .error (.stopped .tooWide) { m with console := c } := by
  have hwide := mt (fun hp => Printable.perm (sort_perm es) (printable_iff.mpr hp)) h
  have hsome : sort es ≠ [] := by
    intro hnil
    rw [sort_eq_nil_iff.mp hnil] at h
    exact h fun e he => absurd he List.not_mem_nil
  obtain ⟨c, hx⟩ := printFields_stops (pickColours m.console)
    (perRow_pos m.console.columns (sort es)) hsome (Nat.lt_of_not_le hwide) m
  refine ⟨c, ?_⟩
  unfold printEntries printBrief
  rw [bind_apply, get_apply]
  dsimp only
  rw [if_neg Bool.false_ne_true, bind_apply, bind_apply, hx]

end CardShell.Shell
