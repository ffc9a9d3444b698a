import CardShell.Command.Display
import Mathlib.Data.List.TakeDrop
import Mathlib.Data.List.TakeWhile

/-!
Words of a line, whatever the number of blanks in front of them, between them and behind.
-/

set_option autoImplicit false

namespace CardShell.Arguments

variable {word : Text} {ws : List Text} {t : Text}

/-- `t` consists of these words, with one blank or more between two of them. -/
inductive Spaced : List Text → Text → Prop
  | none (n : Nat) : Spaced [] (List.replicate n ' ')
  | last (n : Nat) (word : Text) : Spaced [word] (List.replicate n ' ' ++ word)
  | cons {ws : List Text} {t : Text} (n : Nat) (word : Text) (h : Spaced ws t) :
    Spaced (word :: ws) (List.replicate n ' ' ++ (word ++ ' ' :: t))

theorem nextWord_blanks (n : Nat) : nextWord (List.replicate n ' ') = (none, []) := by
  have hstart : (List.replicate n ' ').dropWhile (· = ' ') = [] :=
    List.dropWhile_eq_nil_iff.mpr fun c hc => decide_eq_true (List.eq_of_mem_replicate hc)
  unfold nextWord
  rw [hstart]

theorem nextWord_replicate (n : Nat) (t : Text) :
    nextWord (List.replicate n ' ' ++ t) = nextWord t := by
  have hstart : (List.replicate n ' ' ++ t).dropWhile (· = ' ') = t.dropWhile (· = ' ') :=
    List.dropWhile_append_of_pos fun c hc => decide_eq_true (List.eq_of_mem_replicate hc)
  unfold nextWord
  rw [hstart]

/-- What begins with a character that is no blank is cut at the first blank. -/
theorem nextWord_of_ne_nil (hne : word ≠ []) (hblank : ' ' ∉ word) (rest : Text) :
    nextWord (word ++ rest) = (some ((word ++ rest).takeWhile (· ≠ ' ')),
      ((word ++ rest).dropWhile (· ≠ ' ')).tail) := by
  obtain ⟨c, word, rfl⟩ := List.exists_cons_of_ne_nil hne
  have hc : c ≠ ' ' := ne_of_mem_of_not_mem List.mem_cons_self hblank
  have hstart : (c :: word ++ rest).dropWhile (· = ' ') = c :: word ++ rest :=
    List.dropWhile_cons_of_neg (by simpa using hc)
  unfold nextWord
  rw [hstart]
  split
  · rename_i hnil
    cases hnil
  · rw [List.span_eq_takeWhile_dropWhile]

theorem nextWord_append (hne : word ≠ []) (hblank : ' ' ∉ word) (rest : Text) :
    nextWord (word ++ ' ' :: rest) = (some word, rest) := by
  have hall : ∀ c ∈ word, decide (c ≠ ' ') = true := fun c hc =>
    decide_eq_true (ne_of_mem_of_not_mem hc hblank)
  rw [nextWord_of_ne_nil hne hblank, List.takeWhile_append_of_pos hall,
    List.dropWhile_append_of_pos hall, List.takeWhile_cons_of_neg (by decide),
    List.dropWhile_cons_of_neg (by decide), List.append_nil]
  rfl

theorem nextWord_last (hne : word ≠ []) (hblank : ' ' ∉ word) :
    nextWord word = (some word, []) := by
  have hall : ∀ c ∈ word, decide (c ≠ ' ') = true := fun c hc =>
    decide_eq_true (ne_of_mem_of_not_mem hc hblank)
  have h := nextWord_of_ne_nil hne hblank []
  rw [List.append_nil, List.takeWhile_eq_self_iff.mpr hall, List.dropWhile_eq_nil_iff.mpr hall] at h
  exact h

end CardShell.Arguments

namespace CardShell.Display

open Arguments

theorem wordsOf_of_spaced {ws : List Text} {t : Text} (h : Spaced ws t)
    (hws : ∀ w ∈ ws, w ≠ [] ∧ ' ' ∉ w) {fuel : Nat} (hfuel : t.length ≤ fuel) :
    wordsOf fuel t = ws := by
  induction h generalizing fuel with
  | none n =>
    cases fuel with
    | zero => rfl
    | succ fuel => rw [wordsOf, nextWord_blanks]
  | last n word =>
    obtain ⟨hne, hblank⟩ := hws word List.mem_cons_self
    have hlong := List.length_pos_iff.mpr hne
    rw [List.length_append] at hfuel
    obtain ⟨fuel, rfl⟩ := Nat.exists_eq_add_of_le' (show 1 ≤ fuel by omega)
    rw [wordsOf, nextWord_replicate, nextWord_last hne hblank]
    cases fuel <;> rfl
  | cons n word h ih =>
    obtain ⟨hne, hblank⟩ := hws word List.mem_cons_self
    rw [List.length_append, List.length_append, List.length_cons] at hfuel
    obtain ⟨fuel, rfl⟩ := Nat.exists_eq_add_of_le' (show 1 ≤ fuel by omega)
    rw [wordsOf, nextWord_replicate, nextWord_append hne hblank]
    exact congrArg (word :: ·) (ih (fun w hw => hws w (List.mem_cons_of_mem _ hw)) (by omega))

end CardShell.Display
