import CardShell.Proofs.Command.Words
import CardShell.Proofs.Shell.Variables
import CardShell.Proofs.Variable.Escape

/-!
What `Show` prints for a text, and what becomes of it when it is set again. Control characters come
back; a bar or the start of an insertion in the value is printed as it is, and then read as more than
itself.
-/

set_option autoImplicit false

namespace CardShell

/-- A control character at the start is shown behind a bar, which is no blank. -/
theorem Expand.trimStart_escape (s : Text) : (escape s).trimStart =
    escape (s.dropWhile fun c => Text.isBlank c && decide (0x20 ≤ c.toNat)) := by
  induction s with
  | nil => rfl
  | cons c s ih =>
    rcases Nat.lt_or_ge c.toNat 0x20 with hlt | hle
    · rw [List.dropWhile_cons_of_neg (by simp; omega), escape_control hlt]
      rfl
    · rw [escape_cons hle]
      by_cases hblank : Text.isBlank c = true
      · rw [List.dropWhile_cons_of_pos (by simp [hblank, hle]), ← ih]
        exact List.dropWhile_cons_of_pos hblank
      · rw [List.dropWhile_cons_of_neg (by simp [hblank]), escape_cons hle]
        exact List.dropWhile_cons_of_neg hblank

namespace Shell

open CardShell.Action

variable {name : Text}

theorem perform_setText (run : Text → Shell Unit) (hne : name ≠ []) (hblank : ' ' ∉ name)
    (t : Text) (m : Machine) :
    Builtin.setText.perform run (name ++ ' ' :: t) m =
      if t.trimStart = [] then .error (.failed .invalidParameter) m
      else match Expand.text m.store m.readings t.trimStart with
        | .ok s => assign name (.text s) m
        | .error e => .error (.failed e) m := by
  have hperform : Builtin.setText.perform run (name ++ ' ' :: t) =
      (nameAndText (name ++ ' ' :: t) >>= fun p => expand p.2 >>= fun s => assign p.1 (.text s)) :=
    rfl
  have hargs : nameAndText (name ++ ' ' :: t) =
      if t.trimStart = [] then fail .invalidParameter else return (name, t.trimStart) := by
    rw [nameAndText, requiredWord, Arguments.nextWord_append hne hblank]
    rfl
  rw [hperform, hargs]
  split
  · rfl
  · have hexpand : expand t.trimStart m =
        ofExcept (Expand.text m.store m.readings t.trimStart) m := rfl
    rw [pure_bind, bind_apply, hexpand]
    cases Expand.text m.store m.readings t.trimStart with
    | error e => rfl
    | ok s => rfl

/-- A text is printed without control characters, and it is expanded to itself whatever the
variables are exactly if no bar and no `<` is in it; where no `<` is, no variables make up for a bar.
Two texts are printed alike exactly if they are the same once a bar and a letter behind it are taken
for a control character. What was printed for a text without bars and `<` is set again as it was,
save for blanks in front of it. -/
theorem shown_read_back (s : Text) :
    (∀ c ∈ Expand.escape s, 0x20 ≤ c.toNat) ∧
    ((∀ vs r, Expand.text vs r (Expand.escape s) = .ok s) ↔ '|' ∉ s ∧ '<' ∉ s) ∧
    ('<' ∉ s → ∀ vs r, Expand.text vs r (Expand.escape s) = .ok s ↔ '|' ∉ s) ∧
    (∀ t label vs r, variableLine vs r ⟨label, .text s⟩ = variableLine vs r ⟨label, .text t⟩ ↔
      Expand.unbar s = Expand.unbar t) ∧
    ('|' ∉ s → '<' ∉ s → (∀ t, '|' ∉ t → Expand.escape s = Expand.escape t → s = t) ∧
      ∀ run name m, name ≠ [] → ' ' ∉ name →
        let t := s.dropWhile fun c => Text.isBlank c && decide (0x20 ≤ c.toNat)
        Builtin.setText.perform run (name ++ ' ' :: Expand.escape s) m =
          if t = [] then .error (.failed .invalidParameter) m else assign name (.text t) m) := by
  refine ⟨fun c => Expand.le_of_mem_escape, ?_, ?_, ?_, ?_⟩
  · constructor
    · exact fun h => (Expand.plain_of_text_escape (fun _ => rfl) (h [] default)).2 rfl
    · exact fun h vs r => Expand.text_escape h.1 h.2
  · exact fun hopen vs r => Expand.text_escape_iff hopen
  · intro t label vs r
    unfold variableLine
    rw [List.append_left_inj, List.append_right_inj, List.append_right_inj]
    exact Expand.escape_eq_iff
  · intro hbar hopen
    constructor
    · intro t ht h
      rwa [Expand.escape_eq_iff, Expand.unbar_of_not_mem hbar, Expand.unbar_of_not_mem ht] at h
    · intro run name m hne hblank
      dsimp only
      generalize ht : (s.dropWhile fun c => Text.isBlank c && decide (0x20 ≤ c.toNat)) = t
      have hsuf : t <:+ s := ht ▸ List.dropWhile_suffix _
      have hread : Expand.text m.store m.readings (Expand.escape t) = .ok t :=
        Expand.text_escape (fun h => hbar (hsuf.subset h)) fun h => hopen (hsuf.subset h)
      rw [perform_setText run hne hblank, Expand.trimStart_escape, ht, hread]
      simp only [Expand.escape_eq_nil_iff]

/-- A bar and the letter behind it are printed as the control character is, and set as that. -/
theorem bar_read_as_control :
    variableLine [] default ⟨"x", .text "|M"⟩ = variableLine [] default ⟨"x", .text "\r"⟩ ∧
    Expand.text [] default (Expand.escape "|M") = .ok "\r" ∧ ("|M" : Text) ≠ "\r" := by
  refine ⟨rfl, rfl, by decide⟩

end Shell

end CardShell
