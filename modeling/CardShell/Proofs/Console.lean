import CardShell.Console
import CardShell.Proofs.Path
import CardShell.Proofs.Text.Utf8

/-!
Reading lines off a stream that holds a text. Each reading takes the next line of the text, to its
line feed or to the end, and leaves the lines behind it; only at the end there is none.
-/

set_option autoImplicit false

namespace CardShell.Console

variable {c c' : Console} {t u w : Text} {bs cs : List UInt8} {max : Nat}

/-- A line without its line end. -/
def bare (line : Text) : Text := line.dropWhileEnd fun c => c == '\r' || c == '\n'

/-- The lines of an input, without their ends; the last one need not have a line feed. -/
def inputLines (t : Text) : List Text :=
  let ws := Text.splitOn '\n' t
  (ws.dropLast ++ (ws.getLast?.filter (· ≠ [])).toList).map bare

/-- The line that would be read next. -/
def nextLine? (c : Console) : Option Text :=
  match c.keyboard with
  | .stream [] _ => none
  | .stream bytes _ => (Utf8.text? (cutLine bytes).1).map bare
  | .answers _ => none

/-- The keyboard is a stream with `t` left on it, and was not found to be at its end before it was. -/
def Awaits (c : Console) (t : Text) : Prop :=
  ∃ ended, c.keyboard = .stream t.bytes ended ∧ (ended = true → t = [])

theorem Awaits.of_keyboard (h : c.Awaits t) (hk : c'.keyboard = c.keyboard) : c'.Awaits t := by
  unfold Awaits
  rw [hk]
  exact h

theorem inputLines_cons (h : '\n' ∉ w) (u : Text) :
    inputLines (w ++ '\n' :: u) = bare (w ++ ['\n']) :: inputLines u := by
  have hbare : bare (w ++ ['\n']) = bare w := by
    unfold bare Text.dropWhileEnd
    rw [List.reverse_append]
    rfl
  have hne := Text.splitOn_ne_nil '\n' u
  unfold inputLines
  rw [Text.splitOn_append, Text.splitOn_of_not_mem h, hbare]
  dsimp only
  rw [List.singleton_append, List.dropLast_cons_of_ne_nil hne, List.getLast?_cons_of_ne_nil hne]
  rfl

theorem inputLines_singleton (h : '\n' ∉ w) (hw : w ≠ []) : inputLines w = [bare w] := by
  unfold inputLines
  rw [Text.splitOn_of_not_mem h]
  dsimp only
  rw [List.dropLast_singleton, List.getLast?_singleton, Option.filter_some_pos (by simpa using hw)]
  rfl

theorem cutLine_append (h : 10 ∉ bs) (cs : List UInt8) :
    cutLine (bs ++ 10 :: cs) = (bs ++ [10], cs) := by
  induction bs with
  | nil => rfl
  | cons b bs ih =>
    rw [List.mem_cons, not_or] at h
    rw [List.cons_append, cutLine, if_neg (Ne.symm h.1), ih h.2]
    rfl

theorem cutLine_of_not_mem (h : 10 ∉ bs) : cutLine bs = (bs, []) := by
  induction bs with
  | nil => rfl
  | cons b bs ih =>
    rw [List.mem_cons, not_or] at h
    rw [cutLine, if_neg (Ne.symm h.1), ih h.2]

theorem bytes_ne_nil (h : t ≠ []) : t.bytes ≠ [] := by
  cases t with
  | nil => exact absurd rfl h
  | cons c t =>
    rw [Text.bytes_cons]
    exact List.append_ne_nil_of_left_ne_nil String.utf8EncodeChar_ne_nil _

/-- The bytes up to the first line feed are those of the first line. -/
theorem exists_cutLine (ht : t ≠ []) : ∃ line u, line ≠ [] ∧
    cutLine t.bytes = (Text.bytes line, Text.bytes u) ∧ t.bytes = Text.bytes line ++ Text.bytes u ∧
    inputLines t = bare line :: inputLines u := by
  have hfeed : ∀ w : Text, '\n' ∉ w → 10 ∉ w.bytes := fun w hw hmem =>
    hw ((Text.mem_bytes_iff (d := '\n') rfl (by decide)).mp hmem)
  by_cases hmem : '\n' ∈ t
  · obtain ⟨w, u, rfl, hw⟩ := List.eq_append_cons_of_mem hmem
    have hcons : Text.bytes ('\n' :: u) = 10 :: Text.bytes u := rfl
    refine ⟨w ++ ['\n'], u, by simp, ?_, ?_, inputLines_cons hw u⟩
    · rw [Text.bytes_append, Text.bytes_append, hcons]
      exact cutLine_append (hfeed w hw) (Text.bytes u)
    · rw [← Text.bytes_append, List.append_assoc]
      rfl
  · refine ⟨t, [], ht, cutLine_of_not_mem (hfeed t hmem), (List.append_nil _).symm, ?_⟩
    exact inputLines_singleton hmem ht

theorem readLine_end (h : c.Awaits []) (max : Nat) : c.nextLine? = none ∧
    c.readLine max = (.cancelled, { c with keyboard := .stream [] true }) := by
  obtain ⟨ended, hk, _⟩ := h
  have hnil : Text.bytes [] = [] := rfl
  rw [hnil] at hk
  unfold nextLine? readLine
  rw [hk]
  exact ⟨rfl, rfl⟩

/-- A reading takes the next line off. It is confirmed, cut to its first characters, unless it begins
with ESC. -/
theorem readLine_next (h : c.Awaits t) (ht : t ≠ []) (max : Nat) : ∃ line u,
    inputLines t = line :: inputLines u ∧ (Text.bytes u).length < t.bytes.length ∧
    c.nextLine? = some line ∧ c.readLine max =
      (if line.head? = some escape then .cancelled else .confirmed (line.take max),
        { c with keyboard := .stream (Text.bytes u) false }) := by
  obtain ⟨ended, hk, hended⟩ := h
  have hfalse : ended = false := Bool.eq_false_iff.mpr fun he => ht (hended he)
  obtain ⟨line, u, hline, hcut, hsplit, hlines⟩ := exists_cutLine ht
  have hpos := List.length_pos_iff.mpr (bytes_ne_nil hline)
  have hread : Utf8.text? (Text.bytes line) = some line := Utf8.text?_bytes line
  obtain ⟨b, bs, hcons⟩ := List.exists_cons_of_ne_nil (bytes_ne_nil ht)
  refine ⟨bare line, u, hlines, ?_, ?_, ?_⟩
  · rw [hsplit, List.length_append]
    omega
  · unfold nextLine?
    rw [hk, hcons]
    dsimp only
    rw [← hcons, hcut, hread]
    rfl
  · unfold readLine
    rw [hk, hcons]
    dsimp only
    rw [← hcons, hcut]
    dsimp only
    rw [hread, hfalse]
    rfl

end CardShell.Console
