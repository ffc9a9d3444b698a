import CardShell.Proofs.Loader.Header
import CardShell.Proofs.Path
import Mathlib.Data.List.TakeWhile

/-!
Lines that do nothing. A line is trimmed at both ends before its first characters are looked at, and
the mark of an annotation ends in a blank of its own. So an annotation without a text loses that
blank and is read as the word `|`, which is looked for in the table and then on the card, where no
file can have such a name.
-/

set_option autoImplicit false

namespace CardShell

namespace Text

theorem trimEnd_of_blank {t : Text} (h : ∀ c ∈ t, isBlank c = true) : trimEnd t = [] := by
  simp only [trimEnd, dropWhileEnd, List.reverse_eq_nil_iff, List.dropWhile_eq_nil_iff]
  intro c hc
  exact h c (List.mem_reverse.mp hc)

theorem trimEnd_append_of_blank (s : Text) {t : Text} (h : ∀ c ∈ t, isBlank c = true) :
    trimEnd (s ++ t) = trimEnd s := by
  have hr : ∀ c ∈ t.reverse, isBlank c = true := fun c hc => h c (List.mem_reverse.mp hc)
  simp only [trimEnd, dropWhileEnd, List.reverse_append, List.dropWhile_append_of_pos hr]

/-- What stands in front of a character that stays is not touched. -/
theorem trimEnd_append {s t : Text} (h : ∃ c ∈ t, isBlank c = false) :
    trimEnd (s ++ t) = s ++ trimEnd t := by
  obtain ⟨c, hc, hb⟩ := h
  have hne : t.reverse.dropWhile isBlank ≠ [] := by
    intro h
    rw [List.dropWhile_eq_nil_iff] at h
    simp [h c (List.mem_reverse.mpr hc)] at hb
  have hempty : (t.reverse.dropWhile isBlank).isEmpty = false := List.isEmpty_eq_false_iff.mpr hne
  simp [trimEnd, dropWhileEnd, List.dropWhile_append, hempty]

theorem trimEnd_cons {c : Char} (hc : isBlank c = false) (t : Text) :
    trimEnd (c :: t) = c :: trimEnd t := by
  by_cases h : ∃ d ∈ t, isBlank d = false
  · exact trimEnd_append (s := [c]) h
  · have hall : ∀ d ∈ t, isBlank d = true := by simpa using h
    rw [trimEnd_of_blank hall, show c :: t = [c] ++ t from rfl, trimEnd_append_of_blank [c] hall]
    simp [trimEnd, dropWhileEnd, hc]

end Text

namespace Arguments

/-- What may stand in front of a command: blanks and stars. -/
def isLeader (c : Char) : Bool := Text.isAsciiBlank c || c == '*'

theorem trimLine_leaders {p : Text} (hp : ∀ c ∈ p, isLeader c = true) {c : Char}
    (hc : isLeader c = false) (t : Text) : trimLine (p ++ c :: t) = Text.trimEnd (c :: t) := by
  change Text.trimEnd ((p ++ c :: t).dropWhile isLeader) = _
  rw [List.dropWhile_append_of_pos hp, List.dropWhile_cons_of_neg (by simp [hc])]

/-- Leaders alone, or with a comment behind them. -/
theorem isSilent_leaders {p : Text} (hp : ∀ c ∈ p, isLeader c = true) (t : Text) :
    isSilent (trimLine p) = true ∧ isSilent (trimLine (p ++ '#' :: t)) = true := by
  constructor
  · have hnone : p.dropWhile isLeader = [] := List.dropWhile_eq_nil_iff.mpr hp
    have hline : trimLine p = Text.trimEnd (p.dropWhile isLeader) := rfl
    rw [hline, hnone]
    rfl
  · rw [trimLine_leaders hp (by decide), Text.trimEnd_cons (by decide)]
    rfl

theorem trimLine_annotation {p : Text} (hp : ∀ c ∈ p, isLeader c = true) (t : Text) :
    ((∃ c ∈ t, Text.isBlank c = false) →
      trimLine (p ++ '|' :: ' ' :: t) = '|' :: ' ' :: Text.trimEnd t) ∧
    ((∀ c ∈ t, Text.isBlank c = true) → trimLine (p ++ '|' :: ' ' :: t) = ['|']) := by
  rw [trimLine_leaders hp (by decide), Text.trimEnd_cons (by decide)]
  constructor
  · intro ht
    exact congrArg _ (Text.trimEnd_append (s := [' ']) ht)
  · intro ht
    have hall : ∀ c ∈ ' ' :: t, Text.isBlank c = true := by simpa using ⟨by decide, ht⟩
    rw [Text.trimEnd_of_blank hall]

end Arguments

theorem Drive.openFile_unnamed {path : Text} (hpath : '|' ∈ path) (d : Drive) :
    ∃ e, openFile path .read d = .error e (d.ticked .openFile) ∧
      (d.faults = [] → e = .invalidName) := by
  have hname : d.volume.resolve path = .error .invalidName :=
    Path.resolve_of_reserved (by decide) hpath _
  have hopen := Volume.openFile_unresolved .read hname
  by_cases hf : d.faults = []
  · refine ⟨.invalidName, ?_, fun _ => rfl⟩
    rw [openFile, change_of_faultless hf, onVolume_error hopen, ticked_of_faultless hf]
  · rcases change_cases .openFile (Volume.openFile path .read) d with ⟨e, hx⟩ | hx
    · exact ⟨e, hx, fun h => absurd h hf⟩
    · refine ⟨.invalidName, hx.trans ?_, fun _ => rfl⟩
      rw [onVolume_error (d := d.ticked .openFile) hopen]
      rfl

namespace Shell

open CardShell.Action

variable {m : Machine}

theorem load_unnamed {path : Text} (hpath : '|' ∈ path) (address size : Nat) (m : Machine) :
    ∃ e, load path address size m =
        .error (.failed e) { m with drive := m.drive.ticked .openFile } ∧
      (m.drive.faults = [] → e = .invalidName) := by
  obtain ⟨e, hopen, he⟩ := Drive.openFile_unnamed hpath m.drive
  refine ⟨e, ?_, he⟩
  unfold load withFile
  rw [bind_apply, drive_error hopen]

/-- With no candidate that can be opened the search fails, and only the driver has been asked. -/
theorem tryCandidates_unnamed (params : Text) (last : Error) {stages : List (Text × Nat)}
    (hs : ∀ stage ∈ stages, '|' ∈ stage.1) (m : Machine) :
    ∃ e d, tryCandidates params last stages m = .error (.failed e) { m with drive := d } ∧
      (m.drive.faults = [] → last = .invalidName ∨ stages ≠ [] → e = .invalidName ∧ d = m.drive) := by
  induction stages generalizing last m with
  | nil =>
    refine ⟨_, m.drive, rfl, fun _ hlast => ?_⟩
    have hlast : last = .invalidName := by simpa using hlast
    subst hlast
    exact ⟨rfl, rfl⟩
  | cons stage stages ih =>
    obtain ⟨path, address⟩ := stage
    obtain ⟨e, hload, he⟩ := load_unnamed (hs _ List.mem_cons_self) address 0 m
    have hstep := outcome_failed hload
    by_cases hover : e = .overlappingSystem
    · -- only a fault can answer so
      subst hover
      refine ⟨.overlappingSystem, m.drive.ticked .openFile, ?_, fun hf => absurd (he hf) (by decide)⟩
      rw [tryCandidates, bind_apply, hstep]
      rfl
    · obtain ⟨e', d, hrest, he'⟩ := ih e (fun s h => hs s (List.mem_cons_of_mem _ h))
        { m with drive := m.drive.ticked .openFile }
      refine ⟨e', d, ?_, fun hf _ => ?_⟩
      · rw [tryCandidates, bind_apply, hstep]
        cases e with
        | overlappingSystem => exact absurd rfl hover
        | _ => exact hrest
      · have hquiet := Drive.ticked_of_faultless hf .openFile
        rw [hquiet] at he'
        exact he' hf (Or.inl (he hf))

/-- A bar is no file's name, so without a record for it the line fails. -/
theorem runProgram_bar (params : Text) (atPrompt : Bool) (m : Machine) :
    ∃ e d, runProgram ['|'] params atPrompt m = .error (.failed e) { m with drive := d } ∧
      (m.drive.faults = [] → d = m.drive ∧
        e = if m.settings.search.maxCommandLength = 0 then .invalidCommand else .invalidName) := by
  have hsize : Text.size ['|'] = 1 := by decide
  by_cases hlong : m.settings.search.maxCommandLength < Text.size ['|']
  · refine ⟨_, m.drive, runProgram_long hlong params atPrompt, fun _ => ⟨rfl, ?_⟩⟩
    rw [if_pos (by omega)]
  · have hstages : ∀ stage ∈ m.settings.candidates ['|'] atPrompt, '|' ∈ stage.1 := by
      intro stage hstage
      unfold Settings.candidates at hstage
      cases atPrompt <;> simp at hstage <;> grind
    obtain ⟨e, d, hx, he⟩ := tryCandidates_unnamed params .noFile hstages m
    refine ⟨e, d, (runProgram_short (by omega) params atPrompt).trans hx, fun hf => ?_⟩
    obtain ⟨rfl, rfl⟩ := he hf (Or.inr (List.cons_ne_nil _ _))
    rw [if_neg (by omega)]
    exact ⟨rfl, rfl⟩

theorem execute_of_isSilent {line : Text} (atPrompt : Bool) (m : Machine)
    (h : Arguments.isSilent (Arguments.trimLine line) = true) : execute line atPrompt m = .ok () m := by
  change runLineWithin (99999 + 1) atPrompt line m = _
  rw [runLineWithin, if_pos h]
  rfl

/-- A line that comes to the bar alone is a command line with that word. -/
theorem execute_bar {line : Text} (hline : Arguments.trimLine line = ['|']) (atPrompt : Bool)
    (m : Machine) :
    execute line atPrompt m = match (Record.resolve m.table ['|']).bind Record.handler with
      | some handler => runHandler (runLineWithin (maxDepth - 1) true) handler [] m
      | none => runProgram ['|'] [] atPrompt m := by
  have hword : Arguments.nextWord ['|'] = (some ['|'], []) := by decide
  change runLineWithin (99999 + 1) atPrompt line m = _
  rw [runLineWithin, hline, if_neg (by decide), hword]
  dsimp only
  rw [bind_apply, get_apply]
  dsimp only
  cases (Record.resolve m.table ['|']).bind Record.handler <;> rfl

/-- Blanks and stars, and a comment behind them, do nothing, and neither does an annotation that
says something. An annotation of blanks alone is the command `|`: where the table has none, the line
fails, and on a card whose driver answers as it should that is all it does. -/
theorem execute_silent (m : Machine) (atPrompt : Bool) (p t : Text)
    (hp : ∀ c ∈ p, Arguments.isLeader c = true) :
    execute p atPrompt m = .ok () m ∧
    execute (p ++ '#' :: t) atPrompt m = .ok () m ∧
    ((∃ c ∈ t, Text.isBlank c = false) → execute (p ++ '|' :: ' ' :: t) atPrompt m = .ok () m) ∧
    ((∀ c ∈ t, Text.isBlank c = true) →
      match (Record.resolve m.table ['|']).bind Record.handler with
      | some handler => execute (p ++ '|' :: ' ' :: t) atPrompt m =
          runHandler (runLineWithin (maxDepth - 1) true) handler [] m
      | none => ∃ e d,
          execute (p ++ '|' :: ' ' :: t) atPrompt m = .error (.failed e) { m with drive := d } ∧
          (m.drive.faults = [] → d = m.drive ∧
            e = if m.settings.search.maxCommandLength = 0 then .invalidCommand
              else .invalidName)) := by
  obtain ⟨hsome, hblank⟩ := Arguments.trimLine_annotation hp t
  obtain ⟨halone, hcomment⟩ := Arguments.isSilent_leaders hp t
  refine ⟨execute_of_isSilent atPrompt m halone, execute_of_isSilent atPrompt m hcomment,
    fun ht => ?_, fun ht => ?_⟩
  · apply execute_of_isSilent
    rw [hsome ht]
    rfl
  · have hbar := execute_bar (hblank ht) atPrompt m
    cases hr : (Record.resolve m.table ['|']).bind Record.handler with
    | some handler =>
      rw [hr] at hbar
      exact hbar
    | none =>
      rw [hr] at hbar
      obtain ⟨e, d, hx, he⟩ := runProgram_bar [] atPrompt m
      exact ⟨e, d, hbar.trans hx, he⟩

/-- An annotation behind a star. -/
theorem execute_silent_star :
    let m := Machine.boot {} (.labelled []) Builtin.records {} (.hosted 0 0) .absent
    (∀ c ∈ "*".toList, Arguments.isLeader c = true) ∧
    execute ("*" ++ '|' :: ' ' :: "note") true m = .ok () m := by
  intro m
  have hp : ∀ c ∈ "*".toList, Arguments.isLeader c = true := List.forall_mem_singleton.mpr rfl
  exact ⟨hp, (execute_silent m true "*" "note" hp).2.2.1 ⟨'n', by decide, by decide⟩⟩

/-- The annotation without a text is looked for on the card, and the line fails. -/
theorem annotation_without_text_fails :
    let m := Machine.boot {} (.labelled []) Builtin.records {} (.hosted 0 0) .absent
    execute "| " true m = .error (.failed .invalidName) m := by
  intro m
  have hnone : Record.resolve m.table ['|'] = none := by decide
  have hline : Arguments.trimLine "| " = ['|'] := by decide
  have hbar := execute_bar hline true m
  rw [hnone] at hbar
  obtain ⟨e, d, hx, he⟩ := runProgram_bar [] true m
  obtain ⟨rfl, rfl⟩ := he rfl
  exact hbar.trans hx

end Shell

end CardShell
