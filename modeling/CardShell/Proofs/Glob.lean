import CardShell.Glob
import CardShell.Proofs.Path

/-!
What a pattern matches. `Reads` takes the characters of a pattern one after the other, and leaves
open how much of the name each star stands for. Two searches decide it: by the parts between the
stars, each at its first place, and by one walk over the name that only ever widens the last star
it met. Both rest on one fact: what can be read from a text with a star in front can be read from
every text that ends in it, so that an earlier place is never a worse one.
-/

set_option autoImplicit false

namespace CardShell.Glob

/-- `*` stands for any run of characters, `?` for one, and any other character for one that is the
same up to the case of A to Z. -/
inductive Reads : Text → Text → Prop
  | done : Reads [] []
  | star {p t : Text} (run : Text) : Reads p t → Reads ('*' :: p) (run ++ t)
  | one {p t : Text} (d : Char) : Reads p t → Reads ('?' :: p) (d :: t)
  | same {p t : Text} {c d : Char} : c ≠ '*' → c ≠ '?' → c.toLower = d.toLower → Reads p t →
      Reads (c :: p) (d :: t)

variable {c d : Char} {u p t r : Text}

section OneCharacter

theorem reads_nil_iff : Reads [] t ↔ t = [] := by
  constructor
  · rintro ⟨⟩
    rfl
  · rintro rfl
    exact .done

theorem reads_star_iff : Reads ('*' :: p) t ↔ ∃ r, r <:+ t ∧ Reads p r := by
  constructor
  · intro h
    cases h with
    | star run h => exact ⟨_, List.suffix_append run _, h⟩
    | same hs => exact absurd rfl hs
  · rintro ⟨r, ⟨run, rfl⟩, h⟩
    exact .star run h

theorem standsFor_iff : standsFor c d = true ↔ c = '?' ∨ c.toLower = d.toLower := by
  rw [standsFor, Bool.or_eq_true, beq_iff_eq, beq_iff_eq]

theorem reads_cons_iff (hs : c ≠ '*') :
    Reads (c :: p) t ↔ ∃ d r, t = d :: r ∧ standsFor c d = true ∧ Reads p r := by
  constructor
  · intro h
    cases h with
    | star => exact absurd rfl hs
    | one d h => exact ⟨d, _, rfl, rfl, h⟩
    | same _ _ hcd h => exact ⟨_, _, rfl, standsFor_iff.mpr (Or.inr hcd), h⟩
  · rintro ⟨d, r, rfl, hcd, h⟩
    by_cases hq : c = '?'
    · subst hq
      exact .one d h
    · exact .same hs hq ((standsFor_iff.mp hcd).resolve_left hq) h

/-- What reads from a text with a star in front reads from every text that ends in it. -/
theorem Reads.widen (h : Reads ('*' :: p) r) (hr : r <:+ t) : Reads ('*' :: p) t := by
  obtain ⟨s, hs, hp⟩ := reads_star_iff.mp h
  exact reads_star_iff.mpr ⟨s, hs.trans hr, hp⟩

theorem reads_empty_iff : Reads p [] ↔ p.all (· == '*') = true := by
  induction p with
  | nil => simp [reads_nil_iff]
  | cons c p ih =>
    rw [List.all_cons, Bool.and_eq_true, beq_iff_eq]
    by_cases hs : c = '*'
    · subst hs
      rw [reads_star_iff, ← ih]
      constructor
      · rintro ⟨r, hr, h⟩
        rw [List.suffix_nil.mp hr] at h
        exact ⟨rfl, h⟩
      · exact fun h => ⟨[], List.suffix_rfl, h.2⟩
    · simp [reads_cons_iff hs, hs]

end OneCharacter

section OnePart

theorem afterPart?_eq_some (h : afterPart? u t = some r) :
    ∃ w, t = w ++ r ∧ w.length = u.length := by
  induction u generalizing t with
  | nil =>
    cases h
    exact ⟨[], rfl, rfl⟩
  | cons c u ih =>
    cases t with
    | nil => cases h
    | cons d t =>
      rw [afterPart?] at h
      split at h
      · obtain ⟨w, rfl, hw⟩ := ih h
        exact ⟨d :: w, rfl, congrArg (· + 1) hw⟩
      · cases h

theorem length_afterPart? (h : afterPart? u t = some r) : t.length = u.length + r.length := by
  obtain ⟨w, rfl, hw⟩ := afterPart?_eq_some h
  rw [List.length_append, hw]

theorem afterPart?_suffix (h : afterPart? u t = some r) : r <:+ t := by
  obtain ⟨w, rfl, _⟩ := afterPart?_eq_some h
  exact List.suffix_append w r

/-- A part taken further on leaves no more than the same part taken here. -/
theorem afterPart?_further {s r' : Text} (hs : s <:+ t) (h : afterPart? u t = some r)
    (h' : afterPart? u s = some r') : r' <:+ r := by
  have hlen := length_afterPart? h
  have hlen' := length_afterPart? h'
  have hle := hs.length_le
  exact List.suffix_of_suffix_length_le ((afterPart?_suffix h').trans hs) (afterPart?_suffix h)
    (by omega)

theorem afterPart?_concat (h : afterPart? u t = some (d :: r)) (hcd : standsFor c d = true) :
    afterPart? (u ++ [c]) t = some r := by
  induction u generalizing t with
  | nil =>
    cases h
    rw [List.nil_append, afterPart?, if_pos hcd, afterPart?]
  | cons e u ih =>
    cases t with
    | nil => cases h
    | cons f t =>
      rw [afterPart?] at h
      rw [List.cons_append, afterPart?]
      split at h
      · rw [if_pos ‹_›]
        exact ih h
      · cases h

theorem reads_append_iff (hu : '*' ∉ u) :
    Reads (u ++ p) t ↔ ∃ r, afterPart? u t = some r ∧ Reads p r := by
  induction u generalizing t with
  | nil => simp [afterPart?]
  | cons c u ih =>
    rw [List.mem_cons, not_or] at hu
    rw [List.cons_append, reads_cons_iff (Ne.symm hu.1)]
    constructor
    · rintro ⟨d, r, rfl, hcd, h⟩
      rw [afterPart?, if_pos hcd]
      exact (ih hu.2).mp h
    · rintro ⟨r, hr, h⟩
      cases t with
      | nil => cases hr
      | cons d t =>
        rw [afterPart?] at hr
        split at hr
        · exact ⟨d, t, rfl, ‹_›, (ih hu.2).mpr ⟨r, hr, h⟩⟩
        · cases hr

theorem reads_part_iff (hu : '*' ∉ u) : Reads u t ↔ afterPart? u t = some [] := by
  have h := reads_append_iff (p := []) (t := t) hu
  simp only [List.append_nil, reads_nil_iff] at h
  rw [h]
  exact ⟨fun ⟨r, hr, he⟩ => he ▸ hr, fun hr => ⟨[], hr, rfl⟩⟩

end OnePart

section Parts

theorem behind?_eq_some (h : behind? u t = some r) : ∃ s, s <:+ t ∧ afterPart? u s = some r := by
  induction t with
  | nil => exact ⟨[], List.suffix_rfl, h⟩
  | cons d t ih =>
    rw [behind?] at h
    split at h
    · cases h
      exact ⟨d :: t, List.suffix_rfl, ‹_›⟩
    · obtain ⟨s, hs, hr⟩ := ih h
      exact ⟨s, hs.trans (List.suffix_cons d t), hr⟩

/-- The first place of a part leaves at least as much of the name as any other. -/
theorem behind?_first {s : Text} (hs : s <:+ t) (h : afterPart? u s = some r) :
    ∃ r', behind? u t = some r' ∧ r <:+ r' := by
  induction t with
  | nil =>
    rw [List.suffix_nil.mp hs] at h
    exact ⟨r, h, List.suffix_rfl⟩
  | cons d t ih =>
    rw [behind?]
    cases hfirst : afterPart? u (d :: t) with
    | none =>
      rcases List.suffix_cons_iff.mp hs with rfl | hs
      · rw [h] at hfirst
        cases hfirst
      · exact ih hs
    | some r' => exact ⟨r', rfl, afterPart?_further hs hfirst h⟩

/-- The last part can only stand at the end. -/
theorem reads_star_part_iff (hu : '*' ∉ u) :
    Reads ('*' :: u) t ↔ afterPart? u (t.drop (t.length - u.length)) = some [] := by
  rw [reads_star_iff]
  constructor
  · rintro ⟨r, hr, h⟩
    rw [reads_part_iff hu] at h
    have hlen : r.length = u.length := length_afterPart? h
    rwa [← hlen, ← List.suffix_iff_eq_drop.mp hr]
  · exact fun h => ⟨_, List.drop_suffix _ t, (reads_part_iff hu).mpr h⟩

theorem reads_star_append_iff (hu : '*' ∉ u) :
    Reads ('*' :: (u ++ '*' :: p)) t ↔ ∃ r, behind? u t = some r ∧ Reads ('*' :: p) r := by
  rw [reads_star_iff]
  constructor
  · rintro ⟨s, hs, h⟩
    obtain ⟨r, hr, h⟩ := (reads_append_iff hu).mp h
    obtain ⟨r', hr', hle⟩ := behind?_first hs hr
    exact ⟨r', hr', h.widen hle⟩
  · rintro ⟨r, hr, h⟩
    obtain ⟨s, hs, hr⟩ := behind?_eq_some hr
    exact ⟨s, hs, (reads_append_iff hu).mpr ⟨r, hr, h⟩⟩

theorem isSpread_iff {parts : List Text} (hne : parts ≠ []) (hparts : ∀ u ∈ parts, '*' ∉ u) :
    isSpread parts t = true ↔ Reads (parts.flatMap ('*' :: ·)) t := by
  induction parts generalizing t with
  | nil => exact absurd rfl hne
  | cons u parts ih =>
    have hu : '*' ∉ u := hparts u List.mem_cons_self
    cases parts with
    | nil =>
      rw [isSpread, beq_iff_eq, List.flatMap_singleton]
      exact (reads_star_part_iff hu).symm
    | cons w parts =>
      have ih' := fun r => ih (t := r) (List.cons_ne_nil _ _)
        fun v hv => hparts v (List.mem_cons_of_mem u hv)
      rw [List.flatMap_cons, List.cons_append]
      have h := reads_star_append_iff (p := w ++ parts.flatMap ('*' :: ·)) (t := t) hu
      rw [List.flatMap_cons, List.cons_append] at ih' ⊢
      rw [h, isSpread]
      · cases behind? u t with
        | none => simp
        | some r => simpa using ih' r
      · exact List.cons_ne_nil _ _

theorem splitOn_spec (pattern : Text) : ∃ u parts, Text.splitOn '*' pattern = u :: parts ∧
    pattern = u ++ parts.flatMap ('*' :: ·) := by
  induction pattern with
  | nil => exact ⟨[], [], rfl, rfl⟩
  | cons c p ih =>
    obtain ⟨u, parts, hsplit, hp⟩ := ih
    rw [Text.splitOn, hsplit]
    by_cases hc : c = '*'
    · refine ⟨[], u :: parts, if_pos hc, ?_⟩
      rw [hc, List.nil_append, List.flatMap_cons, List.cons_append, ← hp]
    · exact ⟨c :: u, parts, if_neg hc, by rw [List.cons_append, ← hp]⟩

theorem isMatch_iff_reads (pattern name : Text) :
    isMatch pattern name = true ↔ Reads pattern name := by
  obtain ⟨u, parts, hsplit, hp⟩ := splitOn_spec pattern
  have hparts : ∀ w ∈ u :: parts, '*' ∉ w :=
    fun w hw => Text.not_mem_of_mem_splitOn (hsplit ▸ hw)
  have hu : '*' ∉ u := hparts u List.mem_cons_self
  unfold isMatch
  rw [hsplit, hp]
  cases parts with
  | nil =>
    rw [List.flatMap_nil, List.append_nil, beq_iff_eq]
    exact (reads_part_iff hu).symm
  | cons w parts =>
    rw [reads_append_iff hu]
    have hrest := fun r => isSpread_iff (t := r) (List.cons_ne_nil w parts)
      fun v hv => hparts v (List.mem_cons_of_mem u hv)
    dsimp only
    cases afterPart? u name with
    | none => simp
    | some r => simpa using hrest r

end Parts

section Walk

/-- The walk keeps what stands behind the last star met, and the text that was tried there last.
Where the pattern does not go on, that star takes one character more. -/
def walk (pattern : Text) : (name : Text) → (last : Option (Text × Text)) → Bool
  | [], _ => pattern.all (· == '*')
  | d :: name, last =>
    if pattern.head? = some '*' then
      walk pattern.tail (d :: name) (some (pattern.tail, d :: name))
    else if pattern.head?.any (standsFor · d) then walk pattern.tail name last
    else match last with
      | some (behind, _ :: tried) => walk behind tried (some (behind, tried))
      | _ => false
-- Each turn either goes on in the pattern, or leaves less to the last star.
termination_by name last => (max (last.elim 0 (·.2.length)) name.length, pattern.length)
decreasing_by
  · cases pattern with
    | nil => cases ‹[].head? = some '*'›
    | cons c p =>
      exact Prod.Lex.right' _ (by simp only [Option.elim_some]; omega) (Nat.lt_succ_self _)
  · cases pattern with
    | nil => cases ‹[].head?.any _ = true›
    | cons c p =>
      exact Prod.Lex.right' _ (by simp only [List.length_cons]; omega) (Nat.lt_succ_self _)
  · refine Prod.Lex.left _ _ ?_
    simp only [Option.elim_some, List.length_cons]
    omega

/-- The last star was tried on `tried`, and the pattern has been read from there up to the rest of
the name. -/
def Resumes (pattern name : Text) : Option (Text × Text) → Prop
  | none => True
  | some (behind, tried) =>
    ∃ u, '*' ∉ u ∧ behind = u ++ pattern ∧ afterPart? u tried = some name

/-- What a walk has to decide from here: the last star may stand for more than it was tried with. -/
def Ahead (pattern name : Text) : Option (Text × Text) → Prop
  | none => Reads pattern name
  | some (behind, tried) => Reads ('*' :: behind) tried

variable {last : Option (Text × Text)}

theorem resumes_star (p t : Text) : Resumes p t (some (p, t)) :=
  ⟨[], List.not_mem_nil, rfl, rfl⟩

theorem Resumes.ahead (h : Resumes p t last) (hr : Reads p t) : Ahead p t last := by
  match last, h with
  | none, _ => exact hr
  | some (behind, tried), ⟨u, hu, hbehind, hafter⟩ =>
    subst hbehind
    exact reads_star_iff.mpr ⟨tried, List.suffix_rfl, (reads_append_iff hu).mpr ⟨t, hafter, hr⟩⟩

/-- Wherever the last star ends, the rest of the pattern is left with no more than now. -/
theorem Resumes.suffix (h : Resumes p t last) (ha : Ahead p t last) : ∃ r, r <:+ t ∧ Reads p r := by
  match last, h with
  | none, _ => exact ⟨t, List.suffix_rfl, ha⟩
  | some (behind, tried), ⟨u, hu, hbehind, hafter⟩ =>
    subst hbehind
    obtain ⟨s, hs, ha⟩ := reads_star_iff.mp ha
    obtain ⟨r, hafter', hr⟩ := (reads_append_iff hu).mp ha
    exact ⟨r, afterPart?_further hs hafter hafter', hr⟩

/-- Another star takes over: widening the one before it cannot help any more. -/
theorem Resumes.takeover (h : Resumes ('*' :: p) t last) :
    Ahead p t (some (p, t)) ↔ Ahead ('*' :: p) t last := by
  constructor
  · exact h.ahead
  · intro ha
    obtain ⟨r, hr, ha⟩ := h.suffix ha
    exact ha.widen hr

theorem Resumes.ended (h : Resumes p [] last) : p.all (· == '*') = true ↔ Ahead p [] last := by
  rw [← reads_empty_iff]
  constructor
  · exact h.ahead
  · intro ha
    obtain ⟨r, hr, ha⟩ := h.suffix ha
    rwa [List.suffix_nil.mp hr] at ha

theorem Resumes.next (hs : c ≠ '*') (hcd : standsFor c d = true)
    (h : Resumes (c :: p) (d :: t) last) :
    Resumes p t last ∧ (Ahead p t last ↔ Ahead (c :: p) (d :: t) last) := by
  match last, h with
  | none, _ =>
    refine ⟨trivial, ?_⟩
    unfold Ahead
    rw [reads_cons_iff hs]
    constructor
    · exact fun hr => ⟨d, t, rfl, hcd, hr⟩
    · rintro ⟨_, _, ht, _, hr⟩
      cases ht
      exact hr
  | some (behind, tried), ⟨u, hu, hbehind, hafter⟩ =>
    refine ⟨⟨u ++ [c], ?_, ?_, afterPart?_concat hafter hcd⟩, Iff.rfl⟩
    · rw [List.mem_append, List.mem_singleton, not_or]
      exact ⟨hu, Ne.symm hs⟩
    · rw [hbehind, List.append_assoc, List.singleton_append]

theorem not_reads_of_mismatch (hs : p.head? ≠ some '*') (hd : ¬ p.head?.any (standsFor · d)) :
    ¬ Reads p (d :: t) := by
  cases p with
  | nil => simp [reads_nil_iff]
  | cons c p =>
    have hc : c ≠ '*' := fun he => hs (congrArg some he)
    rw [reads_cons_iff hc]
    rintro ⟨_, _, ht, hcd, _⟩
    cases ht
    exact hd hcd

/-- Where the pattern does not go on, only a longer run for the last star is left to try. -/
theorem Resumes.retry {behind tried : Text} {e : Char} (hn : ¬ Reads p t)
    (h : Resumes p t (some (behind, e :: tried))) :
    Ahead behind tried (some (behind, tried)) ↔ Ahead p t (some (behind, e :: tried)) := by
  obtain ⟨u, hu, hbehind, hafter⟩ := h
  unfold Ahead
  constructor
  · exact fun ha => ha.widen (List.suffix_cons e tried)
  · intro ha
    obtain ⟨s, hs, ha⟩ := reads_star_iff.mp ha
    rcases List.suffix_cons_iff.mp hs with rfl | hs
    · rw [hbehind] at ha
      obtain ⟨r, hr, ha⟩ := (reads_append_iff hu).mp ha
      rw [hafter] at hr
      cases hr
      exact absurd ha hn
    · exact reads_star_iff.mpr ⟨s, hs, ha⟩

/-- Along a walk the answer it has to give stays the same. -/
theorem walk_iff (h : Resumes p t last) : walk p t last = true ↔ Ahead p t last := by
  fun_induction walk p t last with
  | case1 p last => exact h.ended
  | case2 p d t last hs ih =>
    obtain ⟨p, rfl⟩ : ∃ q, p = '*' :: q := List.head?_eq_some_iff.mp hs
    rw [← h.takeover]
    exact ih (resumes_star p (d :: t))
  | case3 p d t last hs hd ih =>
    cases p with
    | nil => cases hd
    | cons c p =>
      obtain ⟨hnext, hsame⟩ := h.next (fun he => hs (congrArg some he)) hd
      rw [← hsame]
      exact ih hnext
  | case4 p d t hs hd behind e tried ih =>
    rw [← h.retry (not_reads_of_mismatch hs hd)]
    exact ih (resumes_star behind tried)
  | case5 p d t last hs hd hlast =>
    have hn := not_reads_of_mismatch (t := t) hs hd
    match last, h with
    | none, _ => simpa [Ahead] using hn
    | some (behind, []), ⟨u, _, _, hafter⟩ =>
      have hlen := length_afterPart? hafter
      simp at hlen
    | some (behind, e :: tried), _ => exact absurd rfl (hlast behind e tried)

/-- A pattern matches what can be read from it, and the walk finds this out too. -/
theorem isMatch_iff (pattern name : Text) :
    (isMatch pattern name = true ↔ Reads pattern name) ∧
    walk pattern name none = isMatch pattern name := by
  refine ⟨isMatch_iff_reads pattern name, ?_⟩
  rw [Bool.eq_iff_iff, isMatch_iff_reads]
  exact walk_iff trivial

example : isMatch "a*b?d" "axxbbcd" = true ∧ isMatch "a*b?d" "axxbd" = false := by decide

end Walk

end CardShell.Glob
