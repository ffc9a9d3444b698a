import CardShell.Proofs.Command.Words
import CardShell.Proofs.Shell.Silent
import Mathlib.Data.List.DropRight
import Mathlib.Logic.Function.Iterate

/-!
The words of a line are its runs of characters other than the blank. One word is read at a time: the
first run of what is left, with all blanks in front of it and a single one behind it. The runs of a
line are the first one and the runs of what follows that blank, so that each is read in its turn and the
text behind it is passed on as it stands.
-/

set_option autoImplicit false

namespace CardShell.Arguments

variable {line : Text}

/-- A run of characters other than the blank, with no other such character next to it. -/
@[ext]
structure Run (line : Text) where
  front : Text
  word : Text
  back : Text
  line_eq : line = front ++ (word ++ back)
  ne_nil : word ≠ []
  no_blank : ' ' ∉ word
  front_ends : ∀ c, front.getLast? = some c → c = ' '
  back_begins : ∀ c, back.head? = some c → c = ' '

/-- What is left of a line when `k` words of it have been asked for. -/
def remainder (k : Nat) (line : Text) : Text := (fun t => (nextWord t).2)^[k] line

theorem remainder_succ (k : Nat) (line : Text) :
    remainder (k + 1) line = (nextWord (remainder k line)).2 := Function.iterate_succ_apply' _ k line

theorem remainder_succ_inner (k : Nat) (line : Text) :
    remainder (k + 1) line = remainder k (nextWord line).2 := Function.iterate_succ_apply _ k line

theorem nextWord_of_blank (h : ∀ c ∈ line, c = ' ') : nextWord line = (none, []) := by
  rw [List.eq_replicate_of_mem h]
  exact nextWord_blanks _

theorem nextWord_remainder_of_blank (h : ∀ c ∈ line, c = ' ') (k : Nat) :
    nextWord (remainder k line) = (none, []) := by
  induction k generalizing line with
  | zero => exact nextWord_of_blank h
  | succ k ih =>
    rw [remainder_succ_inner, nextWord_of_blank h]
    exact ih fun c hc => absurd hc List.not_mem_nil

namespace Run

/-- Behind a run there is a blank, unless the line ends there. -/
theorem back_cases (r : Run line) : r.back = ' ' :: r.back.tail ∨ r.back = [] := by
  cases hback : r.back with
  | nil => exact Or.inr rfl
  | cons c back =>
    have hc := r.back_begins c
    rw [hback] at hc
    rw [hc rfl]
    exact Or.inl rfl

theorem exists_mem (r : Run line) : ∃ c ∈ line, c ≠ ' ' := by
  obtain ⟨c, hc⟩ := List.exists_mem_of_ne_nil r.word r.ne_nil
  refine ⟨c, ?_, ne_of_mem_of_not_mem hc r.no_blank⟩
  rw [r.line_eq]
  exact List.mem_append_right _ (List.mem_append_left _ hc)

section First

/-- Nothing but blanks in front. -/
def IsFirst (r : Run line) : Prop := ∀ c ∈ r.front, c = ' '

theorem blank_or_first (line : Text) : (∀ c ∈ line, c = ' ') ∨ ∃ r : Run line, r.IsFirst := by
  have hblanks : ∀ c ∈ line.takeWhile (· = ' '), c = ' ' := fun c hc => by
    simpa using List.mem_takeWhile_imp hc
  cases hrest : line.dropWhile (· = ' ') with
  | nil =>
    left
    rwa [List.takeWhile_eq_self_iff.mpr (List.dropWhile_eq_nil_iff.mp hrest)] at hblanks
  | cons d t =>
    right
    have hd : d ≠ ' ' := by
      have hhead := List.head?_dropWhile_not (· = ' ') line
      rw [hrest] at hhead
      simpa using hhead
    refine ⟨
      { front := line.takeWhile (· = ' ')
        word := (d :: t).takeWhile (· ≠ ' ')
        back := (d :: t).dropWhile (· ≠ ' ')
        line_eq := ?_
        ne_nil := ?_
        no_blank := ?_
        front_ends := fun c hc => hblanks c (List.mem_of_getLast? hc)
        back_begins := ?_ }, hblanks⟩
    · rw [List.takeWhile_append_dropWhile, ← hrest, List.takeWhile_append_dropWhile]
    · rw [List.takeWhile_cons_of_pos (by simpa using hd)]
      exact List.cons_ne_nil _ _
    · intro hmem
      simpa using List.mem_takeWhile_imp hmem
    · intro c hc
      have hhead := List.head?_dropWhile_not (· ≠ ' ') (d :: t)
      rw [hc] at hhead
      simpa using hhead

/-- The first run is the word that is read. -/
theorem IsFirst.nextWord {r : Run line} (hr : r.IsFirst) :
    nextWord line = (some r.word, r.back.tail) := by
  have hline := congrArg Arguments.nextWord r.line_eq
  rw [List.eq_replicate_of_mem hr, nextWord_replicate] at hline
  rw [hline]
  rcases r.back_cases with hback | hback
  · rw [hback, nextWord_append r.ne_nil r.no_blank]
    rfl
  · rw [hback, List.append_nil, nextWord_last r.ne_nil r.no_blank]
    rfl

end First

section Later

/-- A run of what follows the blank behind a run, as one of the whole line. -/
def later (r : Run line) (s : Run r.back.tail) : Run line where
  front := r.front ++ (r.word ++ ' ' :: s.front)
  word := s.word
  back := s.back
  line_eq := by
    obtain ⟨c, hc, _⟩ := s.exists_mem
    have hback := r.back_cases.resolve_right fun hnil => by simp [hnil] at hc
    have hline := r.line_eq
    rw [hback, s.line_eq] at hline
    simpa [List.append_assoc] using hline
  ne_nil := s.ne_nil
  no_blank := s.no_blank
  front_ends := by
    intro c hc
    rw [List.getLast?_append, List.getLast?_append, List.getLast?_cons, Option.some_or,
      Option.some_or] at hc
    cases hlast : s.front.getLast? with
    | none =>
      rw [hlast] at hc
      exact (Option.some.inj hc).symm
    | some d =>
      rw [hlast] at hc
      cases hc
      exact s.front_ends _ hlast
  back_begins := s.back_begins

theorem ne_blank_cons (r : Run line) (t : Text) : r.word ++ r.back ≠ ' ' :: t := by
  intro h
  obtain ⟨c, word, hword⟩ := List.exists_cons_of_ne_nil r.ne_nil
  rw [hword, List.cons_append, List.cons.injEq] at h
  apply r.no_blank
  rw [hword, h.1]
  exact List.mem_cons_self

theorem takeWhile_word (r : Run line) : (r.word ++ r.back).takeWhile (· ≠ ' ') = r.word := by
  have hall : ∀ c ∈ r.word, decide (c ≠ ' ') = true := fun c hc =>
    decide_eq_true (ne_of_mem_of_not_mem hc r.no_blank)
  rw [List.takeWhile_append_of_pos hall]
  rcases r.back_cases with hback | hback
  · rw [hback, List.takeWhile_cons_of_neg (by decide), List.append_nil]
  · rw [hback, List.takeWhile_nil, List.append_nil]

/-- A run ends where the characters other than the blank end, so its beginning tells it. -/
theorem eq_of_front {r s : Run line} (h : s.front = r.front) : s = r := by
  have hrest : s.word ++ s.back = r.word ++ r.back := by
    have hline := s.line_eq.symm.trans r.line_eq
    rw [h] at hline
    exact List.append_cancel_left hline
  have hword : s.word = r.word := by rw [← s.takeWhile_word, hrest, r.takeWhile_word]
  rw [hword] at hrest
  exact Run.ext h hword (List.append_cancel_left hrest)

/-- A run that begins behind a run and a blank is one of what follows that blank. -/
theorem exists_later {r s : Run line} {front : Text}
    (hfront : s.front = r.front ++ (r.word ++ ' ' :: front)) : ∃ t, s = r.later t := by
  have hback : r.back = ' ' :: (front ++ (s.word ++ s.back)) := by
    have hline := r.line_eq.symm.trans s.line_eq
    rw [hfront, List.append_assoc, List.append_assoc] at hline
    exact List.append_cancel_left (List.append_cancel_left hline)
  refine ⟨
    { front := front
      word := s.word
      back := s.back
      line_eq := by rw [hback, List.tail_cons]
      ne_nil := s.ne_nil
      no_blank := s.no_blank
      front_ends := fun c hc => s.front_ends c ?_
      back_begins := s.back_begins }, Run.ext hfront rfl rfl⟩
  rw [hfront, List.getLast?_append, List.getLast?_append, List.getLast?_cons, hc]
  rfl

/-- A run is the first one, or one of what follows the blank behind that. -/
theorem IsFirst.eq_or_later {r : Run line} (hr : r.IsFirst) (s : Run line) :
    s = r ∨ ∃ t, s = r.later t := by
  rcases List.append_eq_append_iff.mp (r.line_eq.symm.trans s.line_eq) with
    ⟨a, hfront, hrest⟩ | ⟨b, hfront, hrest⟩
  · rcases List.append_eq_append_iff.mp hrest with ⟨a', ha, hback⟩ | ⟨c, hword, _⟩
    · -- `s` begins in what stands behind `r`, and not at the blank there
      right
      have hblank := r.back_cases.resolve_right fun hnil => by
        rw [hnil] at hback
        exact s.ne_nil (List.append_eq_nil_iff.mp (List.append_eq_nil_iff.mp hback.symm).2).1
      cases a' with
      | nil => exact absurd (hback.symm.trans hblank) (s.ne_blank_cons _)
      | cons d a' =>
        cases (List.cons.inj (hback.symm.trans hblank)).1
        exact exists_later (hfront.trans (congrArg _ ha))
    · -- `s` begins in the word of `r`, where no blank is in front but at its beginning
      left
      cases hlast : a.getLast? with
      | none => exact eq_of_front (by rw [hfront, List.getLast?_eq_none_iff.mp hlast, List.append_nil])
      | some d =>
        have hd := s.front_ends d (by rw [hfront, List.getLast?_append, hlast, Option.some_or])
        refine absurd ?_ r.no_blank
        rw [hword, ← hd]
        exact List.mem_append_left c (List.mem_of_getLast? hlast)
  · cases b with
    | nil => exact Or.inl (eq_of_front (by rw [hfront, List.append_nil]))
    | cons c b =>
      have hc : c = ' ' := hr c (hfront ▸ List.mem_append_right _ List.mem_cons_self)
      rw [hc] at hrest
      exact absurd hrest (s.ne_blank_cons _)

theorem line_cases (r : Run line) : line = r.front ++ (r.word ++ ' ' :: r.back.tail) ∨
    line = r.front ++ r.word ∧ r.back.tail = [] := by
  have hline := r.line_eq
  rcases r.back_cases with hback | hback
  · rw [hback] at hline
    exact Or.inl hline
  · rw [hback, List.append_nil] at hline
    exact Or.inr ⟨hline, by rw [hback, List.tail_nil]⟩

theorem tail_lt (r : Run line) : r.back.tail.length < line.length := by
  have hline := congrArg List.length r.line_eq
  have hword := List.length_pos_iff.mpr r.ne_nil
  rw [List.length_append, List.length_append] at hline
  rw [List.length_tail]
  omega

end Later

end Run

section All

/-- All runs of the line, in order. -/
structure IsRuns (line : Text) (runs : List (Run line)) : Prop where
  mem : ∀ r, r ∈ runs
  ordered : runs.Pairwise fun r s => r.front.length < s.front.length

theorem isRuns_of_blank (h : ∀ c ∈ line, c = ' ') : IsRuns line [] where
  mem r := by
    obtain ⟨c, hc, hne⟩ := r.exists_mem
    exact absurd (h c hc) hne
  ordered := List.Pairwise.nil

theorem IsRuns.cons {r : Run line} {runs : List (Run r.back.tail)} (hr : r.IsFirst)
    (hruns : IsRuns r.back.tail runs) : IsRuns line (r :: runs.map r.later) where
  mem s := by
    rcases hr.eq_or_later s with rfl | ⟨t, rfl⟩
    · exact List.mem_cons_self
    · exact List.mem_cons_of_mem r (List.mem_map_of_mem (hruns.mem t))
  ordered := by
    refine List.pairwise_cons.mpr ⟨fun s hs => ?_, List.Pairwise.map _ (fun s t hst => ?_) hruns.ordered⟩
    · obtain ⟨t, _, rfl⟩ := List.mem_map.mp hs
      simp only [Run.later, List.length_append, List.length_cons]
      omega
    · simp only [Run.later, List.length_append, List.length_cons]
      omega

/-- The words that are read one after the other are the runs, and behind each the text is left that
follows the blank. -/
theorem exists_runs (line : Text) : ∃ runs, IsRuns line runs ∧
    ∀ k, nextWord (remainder k line) =
      (runs[k]?.map Run.word, (runs[k]?.map fun r => r.back.tail).getD []) := by
  induction hlen : line.length using Nat.strong_induction_on generalizing line with
  | _ n ih =>
    subst hlen
    rcases Run.blank_or_first line with hblank | ⟨r, hr⟩
    · refine ⟨[], isRuns_of_blank hblank, fun k => ?_⟩
      rw [nextWord_remainder_of_blank hblank, List.getElem?_nil]
      rfl
    · obtain ⟨runs, hruns, hread⟩ := ih _ r.tail_lt r.back.tail rfl
      refine ⟨r :: runs.map r.later, hruns.cons hr, fun k => ?_⟩
      cases k with
      | zero => exact hr.nextWord
      | succ k =>
        rw [remainder_succ_inner, hr.nextWord, hread, List.getElem?_cons_succ, List.getElem?_map,
          Option.map_map, Option.map_map]
        rfl

end All

theorem head?_trimLine (line : Text) : (trimLine line).head? ≠ some ' ' := by
  intro h
  obtain ⟨t, ht⟩ : trimLine line <+: line.dropWhile isLeader := List.rdropWhile_prefix _ _
  have hhead := List.head?_dropWhile_not isLeader line
  rw [← ht, List.head?_append, h] at hhead
  cases hhead

/-- A text that begins with no blank begins with a run. -/
theorem exists_run_at_start (hne : line ≠ []) (hhead : line.head? ≠ some ' ') :
    ∃ r : Run line, r.front = [] := by
  rcases Run.blank_or_first line with hblank | ⟨r, hr⟩
  · obtain ⟨c, t, rfl⟩ := List.exists_cons_of_ne_nil hne
    exact absurd (congrArg some (hblank c List.mem_cons_self)) hhead
  · refine ⟨r, ?_⟩
    cases hfront : r.front with
    | nil => rfl
    | cons d front =>
      have hd := hr d (hfront ▸ List.mem_cons_self)
      have hline := congrArg List.head? r.line_eq
      rw [hfront, hd] at hline
      exact absurd hline hhead

end CardShell.Arguments

namespace CardShell.Shell

open CardShell.Action CardShell.Arguments

/-- The words that are asked for are the runs of the line in their order, and then there are none for
ever. What is left behind the last word read is all that stands behind the one blank at its end, or
nothing where the line ends there. So a line that is run passes on to its handler or its program
everything behind that blank. -/
theorem words_are_runs (line : Text) :
    (∃ runs : List (Run line), (∀ r, r ∈ runs) ∧
      runs.Pairwise (fun r s => r.front.length < s.front.length) ∧
      (∀ k r, runs[k]? = some r →
        nextWord (remainder k line) = (some r.word, remainder (k + 1) line) ∧
        (line = r.front ++ (r.word ++ ' ' :: remainder (k + 1) line) ∨
          line = r.front ++ r.word ∧ remainder (k + 1) line = [])) ∧
      ∀ k, runs.length ≤ k → nextWord (remainder k line) = (none, [])) ∧
    ∀ depth atPrompt m, isSilent (trimLine line) = false →
      ∃ word args, word ≠ [] ∧ ' ' ∉ word ∧
        (trimLine line = word ++ ' ' :: args ∨ trimLine line = word ∧ args = []) ∧
        runLineWithin (depth + 1) atPrompt line m =
          match (Record.resolve m.table word).bind Record.handler with
          | some h => runHandler (runLineWithin depth true) h args m
          | none => runProgram word args atPrompt m := by
  constructor
  · obtain ⟨runs, hruns, hread⟩ := exists_runs line
    refine ⟨runs, hruns.mem, hruns.ordered, fun k r hk => ?_, fun k hk => ?_⟩
    · have hnext := hread k
      rw [hk] at hnext
      have hleft : remainder (k + 1) line = r.back.tail := by
        rw [remainder_succ, hnext]
        rfl
      rw [hleft]
      exact ⟨hnext, r.line_cases⟩
    · rw [hread, List.getElem?_eq_none hk]
      rfl
  · intro depth atPrompt m hs
    have hne : trimLine line ≠ [] := by
      intro hnil
      rw [hnil] at hs
      cases hs
    obtain ⟨r, hfront⟩ := exists_run_at_start hne (head?_trimLine line)
    have hcases := r.line_cases
    rw [hfront, List.nil_append, List.nil_append] at hcases
    have hr : r.IsFirst := fun c hc => absurd (hfront ▸ hc) List.not_mem_nil
    refine ⟨r.word, r.back.tail, r.ne_nil, r.no_blank, hcases, ?_⟩
    rw [runLineWithin]
    simp only [hs, hr.nextWord, Bool.false_eq_true, if_false]
    rw [bind_apply, get_apply]
    dsimp only
    cases (Record.resolve m.table r.word).bind Record.handler <;> rfl

/-- Blanks in front, two between the words and one behind, and a character of two bytes. -/
theorem words_are_runs_spaced :
    let line : Text := " *echo  é  x "
    (∃ k, nextWord (remainder k line) = (some ['é'], " x ".toList)) ∧
    (∃ k, nextWord (remainder k line) = (none, [])) ∧
    isSilent (trimLine line) = false ∧
    ∃ word args, trimLine line = word ++ ' ' :: args ∧
      runLineWithin 1 true line default =
        match (Record.resolve (default : Machine).table word).bind Record.handler with
        | some h => runHandler (runLineWithin 0 true) h args default
        | none => runProgram word args true default := by
  intro line
  obtain ⟨⟨runs, hmem, _, hread, hend⟩, hrun⟩ := words_are_runs line
  let r : Run line := ⟨" *echo  ", ['é'], "  x ", by decide, by decide, by decide,
    fun _ hc => (Option.some.inj hc).symm, fun _ hc => (Option.some.inj hc).symm⟩
  obtain ⟨k, hk⟩ := List.mem_iff_getElem?.mp (hmem r)
  obtain ⟨hnext, hleft | ⟨hlast, _⟩⟩ := hread k r hk
  · have hline : line = r.front ++ (r.word ++ ' ' :: " x ".toList) := by decide
    have hcut := List.append_cancel_left (List.append_cancel_left (hleft.symm.trans hline))
    rw [(List.cons.inj hcut).2] at hnext
    refine ⟨⟨k, hnext⟩, ⟨_, hend runs.length (Nat.le_refl _)⟩, by decide, ?_⟩
    obtain ⟨word, args, _, hblank, hsplit | ⟨hword, _⟩, hrun⟩ := hrun 0 true default (by decide)
    · exact ⟨word, args, hsplit, hrun⟩
    · exact absurd (hword ▸ hblank) (by decide)
  · exact absurd hlast (by decide)

end CardShell.Shell
