import CardShell.Text.Fold
import CardShell.Text.Lower

/-!
Two ways to ignore case. Folding maps the letters A to Z, lower-casing maps the capitals of all of
Unicode and goes further than folding, but never against it. Both come to an end after one step.
Texts are ordered by what folding leaves of them.
-/

set_option autoImplicit false

namespace CardShell

namespace CaseTable.Run

/-- Whether the run tells the lower-case form of the character numbered `n`. -/
def covers (r : Run) (n : Nat) : Bool :=
  r.first ≤ n && n ≤ r.last && (n - r.first) % r.step == 0

def low (r : Run) : Nat := (r.first + r.shift).toNat

def high (r : Run) : Nat := (r.last + r.shift).toNat

/-- None of the lower-case forms of `r` is covered by `s`: they lie before or behind, or each lies
between two characters that `s` covers. -/
def clears (r s : Run) : Bool :=
  Nat.blt r.high s.first || Nat.blt s.last r.low ||
    Nat.beq s.step 2 && (Nat.beq r.step 2 || Nat.beq r.first r.last) &&
      Nat.beq ((r.low + s.first) % 2) 1

/-- The lower-case forms of `r` are characters behind the controls, save for `k` alone. -/
def isSound (r : Run) : Bool :=
  (Nat.ble 0xA0 r.low || Nat.beq r.low 0x6B && Nat.beq r.high 0x6B) &&
    (Nat.blt r.high 0xD800 || Nat.blt 0xDFFF r.low && Nat.blt r.high 0x110000)

variable {r s : Run} {n : Nat}

/-- The lower-case forms of a run that does not reach below 1 lie as far apart as its characters. -/
theorem shifted_eq (hr : 0 < r.low) (hn : r.covers n = true) :
    ((n : Int) + r.shift).toNat = r.low + (n - r.first) ∧ r.low + (n - r.first) ≤ r.high := by
  unfold covers at hn
  simp only [Bool.and_eq_true, decide_eq_true_eq] at hn
  obtain ⟨⟨hfirst, hlast⟩, _⟩ := hn
  unfold low high at *
  omega

theorem covers_of_clears (h : r.clears s = true) (hr : 0 < r.low) (hn : r.covers n = true) :
    s.covers ((n : Int) + r.shift).toNat = false := by
  obtain ⟨heq, hle⟩ := shifted_eq hr hn
  rw [heq]
  unfold clears at h
  unfold covers at hn ⊢
  simp only [Bool.or_eq_true, Bool.and_eq_true, Nat.blt_eq, Nat.beq_eq, decide_eq_true_eq,
    beq_iff_eq] at h hn
  rw [Bool.eq_false_iff]
  intro hs
  simp only [Bool.and_eq_true, decide_eq_true_eq, beq_iff_eq] at hs
  obtain ⟨⟨hfirst, hlast⟩, hstep⟩ := hn
  obtain ⟨⟨hsfirst, hslast⟩, hsstep⟩ := hs
  rcases h with (h | h) | ⟨⟨hs2, hr2⟩, hodd⟩
  · omega
  · omega
  · rw [hs2] at hsstep
    rcases hr2 with hr2 | hr2
    · rw [hr2] at hstep
      omega
    · omega

/-- The character `İ`, whose lower-case form is in no run because it is not a single character. -/
def dotted : Run := ⟨304, 304, 1, 0⟩

/-- Lower-case forms have no lower-case form of their own but themselves. -/
theorem lowerRuns_sound : (lowerRuns.all fun r => r.isSound && (dotted :: lowerRuns).all r.clears) = true := by
  decide +kernel

end CaseTable.Run

/-- No letter from A to Z is ignorable. -/
theorem CaseTable.ignorable_apart : (ignorable.all fun r =>
    Nat.blt r.2 65 || Nat.blt 90 r.1 && Nat.blt r.2 97 || Nat.blt 122 r.1) = true := by
  decide +kernel

namespace Text

section Characters

theorem char_eq_of_toNat {c d : Char} (h : c.toNat = d.toNat) : c = d :=
  Char.ext (UInt32.toNat_inj.mp h)

theorem toNat_toLower (c : Char) :
    c.toLower.toNat = if 65 ≤ c.toNat ∧ c.toNat ≤ 90 then c.toNat + 32 else c.toNat := by
  have hA : c.val ≥ 'A'.val ∧ c.val ≤ 'Z'.val ↔ 65 ≤ c.toNat ∧ c.toNat ≤ 90 := by
    rw [ge_iff_le, UInt32.le_iff_toNat_le, UInt32.le_iff_toNat_le]
    exact Iff.rfl
  unfold Char.toLower
  by_cases h : 65 ≤ c.toNat ∧ c.toNat ≤ 90
  · rw [dif_pos (hA.mpr h), if_pos h]
    unfold Char.toNat at h ⊢
    simp only [UInt32.toNat_add]
    have h32 : ('a'.val - 'A'.val).toNat = 32 := by decide
    rw [h32]
    omega
  · rw [dif_neg (fun h' => h (hA.mp h')), if_neg h]

@[simp] theorem toLower_toLower (c : Char) : c.toLower.toLower = c.toLower := by
  refine char_eq_of_toNat ?_
  rw [toNat_toLower c.toLower, toNat_toLower c]
  split
  · rw [if_neg (by omega)]
  · rfl

theorem toLower_eq_self {c : Char} (h : ¬ (65 ≤ c.toNat ∧ c.toNat ≤ 90)) : c.toLower = c :=
  char_eq_of_toNat (by rw [toNat_toLower, if_neg h])

theorem toLower_of_le {c : Char} (h : 0x80 ≤ c.toNat) : c.toLower = c :=
  toLower_eq_self (by omega)

theorem lowerChar_of_lt {c : Char} (h : c.toNat < 0x80) : lowerChar c = c.toLower := if_pos h

/-- Beyond ASCII, the lower-case form of a character is the character itself or is told by a run. -/
theorem lowerChar_cases {c : Char} (h : 0x80 ≤ c.toNat) :
    (lowerChar c = c ∧ ∀ r ∈ CaseTable.lowerRuns, r.covers c.toNat = false) ∨
    ∃ r ∈ CaseTable.lowerRuns, r.covers c.toNat = true ∧
      lowerChar c = Char.ofNat ((c.toNat : Int) + r.shift).toNat := by
  have hbeyond : ¬ c.toNat < 0x80 := by omega
  unfold lowerChar
  rw [if_neg hbeyond]
  unfold CaseTable.Run.covers
  split
  · rename_i r hr
    have hc := List.find?_some hr
    exact Or.inr ⟨r, List.mem_of_find?_eq_some hr, hc, rfl⟩
  · rename_i hr
    refine Or.inl ⟨rfl, fun r hmem => ?_⟩
    rw [List.find?_eq_none] at hr
    exact Bool.eq_false_iff.mpr (hr r hmem)

/-- A character that lower-casing leaves as it is. -/
structure IsLower (c : Char) : Prop where
  ne_dotted : c ≠ 'İ'
  lower : lowerChar c = c

theorem isLower_toLower {c : Char} (h : c.toNat < 0x80) : IsLower c.toLower := by
  have hlt : c.toLower.toNat < 0x80 := by
    rw [toNat_toLower]
    split <;> omega
  refine ⟨?_, ?_⟩
  · intro he
    rw [he] at hlt
    exact absurd hlt (by decide)
  · rw [lowerChar_of_lt hlt, toLower_toLower]

/-- The number of a lower-case form: `k`, or behind the controls, and no run goes on from there. -/
theorem toNat_lowerChar_of_run {c : Char} {r : CaseTable.Run} (hr : r ∈ CaseTable.lowerRuns)
    (hc : r.covers c.toNat = true) (hl : lowerChar c = Char.ofNat ((c.toNat : Int) + r.shift).toNat) :
    ((lowerChar c).toNat = 0x6B ∨ 0xA0 ≤ (lowerChar c).toNat) ∧
    ∀ s ∈ CaseTable.Run.dotted :: CaseTable.lowerRuns, s.covers (lowerChar c).toNat = false := by
  have hsound := List.all_eq_true.mp CaseTable.Run.lowerRuns_sound r hr
  rw [Bool.and_eq_true] at hsound
  obtain ⟨hsound, hclears⟩ := hsound
  unfold CaseTable.Run.isSound at hsound
  simp only [Bool.or_eq_true, Bool.and_eq_true, Nat.blt_eq, Nat.ble_eq, Nat.beq_eq] at hsound
  have hlow : 0 < r.low := by omega
  obtain ⟨heq, hle⟩ := CaseTable.Run.shifted_eq hlow hc
  have hvalid : ((c.toNat : Int) + r.shift).toNat.isValidChar := by
    unfold Nat.isValidChar
    omega
  have hnat : (lowerChar c).toNat = ((c.toNat : Int) + r.shift).toNat := by
    rw [hl, Char.ofNat, dif_pos hvalid]
    rfl
  rw [hnat]
  refine ⟨by omega, fun s hs => ?_⟩
  exact CaseTable.Run.covers_of_clears (List.all_eq_true.mp hclears s hs) hlow hc

/-- What can become of `c` by lower-casing. -/
structure LowerOf (c d : Char) : Prop where
  isLower : IsLower d
  kind : 0xA0 ≤ d.toNat ∨ 97 ≤ d.toNat ∧ d.toNat ≤ 122 ∨ d = c

theorem lowerOf_lowerChar {c : Char} (hc : c ≠ 'İ') : LowerOf c (lowerChar c) := by
  by_cases hlt : c.toNat < 0x80
  · rw [lowerChar_of_lt hlt]
    refine ⟨isLower_toLower hlt, ?_⟩
    by_cases h : 65 ≤ c.toNat ∧ c.toNat ≤ 90
    · rw [toNat_toLower, if_pos h]
      omega
    · exact Or.inr (Or.inr (toLower_eq_self h))
  · rcases lowerChar_cases (Nat.not_lt.mp hlt) with ⟨hsame, _⟩ | ⟨r, hr, hcov, hl⟩
    · rw [hsame]
      exact ⟨⟨hc, hsame⟩, Or.inr (Or.inr rfl)⟩
    · obtain ⟨hnat, hnone⟩ := toNat_lowerChar_of_run hr hcov hl
      have hdotted : lowerChar c ≠ 'İ' := by
        intro he
        have h := hnone _ List.mem_cons_self
        rw [he] at h
        exact absurd h (by decide)
      by_cases hk : (lowerChar c).toNat = 0x6B
      · have hkc : lowerChar c = 'k' := char_eq_of_toNat hk
        refine ⟨⟨hdotted, ?_⟩, by omega⟩
        rw [hkc]
        rfl
      · refine ⟨⟨hdotted, ?_⟩, by omega⟩
        rcases lowerChar_cases (c := lowerChar c) (by omega) with ⟨hsame, _⟩ | ⟨s, hs, hcov', _⟩
        · exact hsame
        · rw [hnone s (List.mem_cons_of_mem _ hs)] at hcov'
          cases hcov'

theorem IsLower.ne_sigma {c : Char} (h : IsLower c) : c ≠ 'Σ' := by
  rintro rfl
  exact absurd h.lower (by decide +kernel)

theorem IsLower.toLower {c : Char} (h : IsLower c) : c.toLower = c := by
  by_cases hlt : c.toNat < 0x80
  · rw [← lowerChar_of_lt hlt, h.lower]
  · exact toLower_of_le (Nat.not_lt.mp hlt)

/-- A character that case beyond A to Z does not concern. -/
def IsPlain (c : Char) : Prop := c.toNat < 0x80 ∨ IsLower c

theorem isPlain_of_toLower {c : Char} (h : IsLower c.toLower) : IsPlain c := by
  rcases Nat.lt_or_ge c.toNat 0x80 with hlt | hge
  · exact Or.inl hlt
  · exact Or.inr (toLower_of_le hge ▸ h)

theorem forall_capital {P : Char → Prop} (h : ∀ k < 26, P (Char.ofNat (65 + k))) {c : Char}
    (hc : 65 ≤ c.toNat ∧ c.toNat ≤ 90) : P c := by
  have hk := h (c.toNat - 65) (by omega)
  rwa [show 65 + (c.toNat - 65) = c.toNat by omega, Char.ofNat_toNat] at hk

theorem isIgnorable_letter {c : Char}
    (h : 65 ≤ c.toNat ∧ c.toNat ≤ 90 ∨ 97 ≤ c.toNat ∧ c.toNat ≤ 122) : isIgnorable c = false := by
  unfold isIgnorable CaseTable.inRanges
  rw [List.any_eq_false]
  intro r hr
  have hapart := List.all_eq_true.mp CaseTable.ignorable_apart r hr
  simp only [Bool.or_eq_true, Bool.and_eq_true, Nat.blt_eq] at hapart
  rw [Bool.and_eq_true, decide_eq_true_eq, decide_eq_true_eq]
  omega

theorem isIgnorable_toLower (c : Char) : isIgnorable c.toLower = isIgnorable c := by
  by_cases h : 65 ≤ c.toNat ∧ c.toNat ≤ 90
  · have hl : 97 ≤ c.toLower.toNat ∧ c.toLower.toNat ≤ 122 := by
      rw [toNat_toLower, if_pos h]
      omega
    rw [isIgnorable_letter (Or.inl h), isIgnorable_letter (Or.inr hl)]
  · rw [toLower_eq_self h]

theorem isCased_toLower (c : Char) : isCased c.toLower = isCased c := by
  by_cases h : 65 ≤ c.toNat ∧ c.toNat ≤ 90
  · exact forall_capital (P := fun c => isCased c.toLower = isCased c) (by decide +kernel) h
  · rw [toLower_eq_self h]

theorem lowerChar_toLower (c : Char) : lowerChar c.toLower = lowerChar c := by
  rcases Nat.lt_or_ge c.toNat 0x80 with hlt | hge
  · rw [(isLower_toLower hlt).lower, lowerChar_of_lt hlt]
  · rw [toLower_of_le hge]

/-- No letter becomes one of the two that are treated apart, or ceases to be one. -/
theorem toLower_eq_iff {c d : Char} (hd : 0x80 ≤ d.toNat) : c.toLower = d ↔ c = d := by
  rcases Nat.lt_or_ge c.toNat 0x80 with hlt | hge
  · have hne : c.toLower.toNat < 0x80 := by
      rw [toNat_toLower]
      split <;> omega
    constructor
    · rintro rfl
      omega
    · rintro rfl
      omega
  · rw [toLower_of_le hge]

end Characters

section Texts

/-- What a character becomes within a text. -/
theorem lowerAfter_cons (before : Text) (c : Char) (t : Text) :
    ∃ piece, lowerAfter before (c :: t) = piece ++ lowerAfter (c :: before) t ∧ piece ≠ [] ∧
      (∀ d ∈ piece, LowerOf c d) ∧ (IsPlain c → piece = [c.toLower]) := by
  have hplain : IsPlain c → c ≠ 'Σ' ∧ c ≠ 'İ' ∧ lowerChar c = c.toLower := by
    rintro (hlt | hl)
    · refine ⟨?_, ?_, lowerChar_of_lt hlt⟩
      · rintro rfl
        exact absurd hlt (by decide)
      · rintro rfl
        exact absurd hlt (by decide)
    · exact ⟨hl.ne_sigma, hl.ne_dotted, by rw [hl.lower, hl.toLower]⟩
  rw [lowerAfter]
  by_cases hs : c = 'Σ'
  · rw [if_pos hs]
    refine ⟨_, rfl, List.cons_ne_nil _ _, fun d hd => ?_, fun hp => absurd hs (hplain hp).1⟩
    rw [List.mem_singleton] at hd
    subst hd
    split
    · exact ⟨⟨by decide, by decide +kernel⟩, Or.inl (by decide)⟩
    · exact ⟨⟨by decide, by decide +kernel⟩, Or.inl (by decide)⟩
  · rw [if_neg hs]
    by_cases hi : c = 'İ'
    · rw [if_pos hi]
      refine ⟨_, rfl, List.cons_ne_nil _ _, fun d hd => ?_, fun hp => absurd hi (hplain hp).2.1⟩
      rcases List.mem_cons.mp hd with rfl | hd
      · exact ⟨⟨by decide, by decide +kernel⟩, Or.inr (Or.inl (by decide))⟩
      · rw [List.mem_singleton] at hd
        subst hd
        exact ⟨⟨by decide, by decide +kernel⟩, Or.inl (by decide)⟩
    · rw [if_neg hi]
      refine ⟨_, rfl, List.cons_ne_nil _ _, fun d hd => ?_, fun hp => by rw [(hplain hp).2.2]⟩
      rw [List.mem_singleton] at hd
      subst hd
      exact lowerOf_lowerChar hi

/-- Everything in a lower-case form comes from a character of the text. -/
theorem exists_of_mem_lowerAfter {before t : Text} {d : Char} (h : d ∈ lowerAfter before t) :
    ∃ c ∈ t, LowerOf c d := by
  induction t generalizing before with
  | nil => cases h
  | cons c t ih =>
    obtain ⟨piece, hx, _, hpiece, _⟩ := lowerAfter_cons before c t
    rw [hx, List.mem_append] at h
    rcases h with h | h
    · exact ⟨c, List.mem_cons_self, hpiece d h⟩
    · obtain ⟨e, he, hd⟩ := ih h
      exact ⟨e, List.mem_cons_of_mem c he, hd⟩

/-- No character of a text is lost. -/
theorem exists_mem_lowerAfter {t : Text} {c : Char} (h : c ∈ t) (before : Text) :
    ∃ d ∈ lowerAfter before t, LowerOf c d := by
  induction t generalizing before with
  | nil => cases h
  | cons e t ih =>
    obtain ⟨piece, hx, hne, hpiece, _⟩ := lowerAfter_cons before e t
    rw [hx]
    rcases List.mem_cons.mp h with rfl | h
    · obtain ⟨d, hd⟩ := List.exists_mem_of_ne_nil piece hne
      exact ⟨d, List.mem_append_left _ hd, hpiece d hd⟩
    · obtain ⟨d, hd, hde⟩ := ih h (e :: before)
      exact ⟨d, List.mem_append_right _ hd, hde⟩

theorem isLower_of_mem_lower {t : Text} {d : Char} (h : d ∈ lower t) : IsLower d := by
  obtain ⟨_, _, hd⟩ := exists_of_mem_lowerAfter h
  exact hd.isLower

theorem length_le_lowerAfter (before t : Text) : t.length ≤ (lowerAfter before t).length := by
  induction t generalizing before with
  | nil => exact Nat.le_refl 0
  | cons c t ih =>
    obtain ⟨piece, hx, hne, _⟩ := lowerAfter_cons before c t
    have hpos := List.length_pos_iff.mpr hne
    have hrest := ih (c :: before)
    rw [hx, List.length_append, List.length_cons]
    omega

theorem lowerAfter_eq_fold {t : Text} (h : ∀ c ∈ t, IsPlain c) (before : Text) :
    lowerAfter before t = fold t := by
  induction t generalizing before with
  | nil => rfl
  | cons c t ih =>
    obtain ⟨piece, hx, _, _, hself⟩ := lowerAfter_cons before c t
    rw [hx, hself (h c List.mem_cons_self), ih (fun d hd => h d (List.mem_cons_of_mem c hd))]
    rfl

theorem isPlain_of_lowerAfter {before t : Text} (h : lowerAfter before t = fold t) :
    ∀ c ∈ t, IsPlain c := by
  induction t generalizing before with
  | nil => exact fun c hc => absurd hc List.not_mem_nil
  | cons d t ih =>
    obtain ⟨piece, hx, hne, hpiece, _⟩ := lowerAfter_cons before d t
    have hpos := List.length_pos_iff.mpr hne
    have hrest := length_le_lowerAfter (d :: before) t
    have hlen := congrArg List.length h
    rw [hx, List.length_append, length_fold, List.length_cons] at hlen
    obtain ⟨e, rfl⟩ := List.length_eq_one_iff.mp (show piece.length = 1 by omega)
    rw [hx, List.singleton_append] at h
    obtain ⟨he, ht⟩ := List.cons.inj h
    intro c hc
    rcases List.mem_cons.mp hc with rfl | hc
    · exact isPlain_of_toLower (he ▸ (hpiece e List.mem_cons_self).isLower)
    · exact ih ht c hc

/-- Lower-casing does no more than folding exactly to the texts of plain characters. -/
theorem lower_eq_fold_iff {t : Text} : lower t = fold t ↔ ∀ c ∈ t, IsPlain c :=
  ⟨isPlain_of_lowerAfter, fun h => lowerAfter_eq_fold h []⟩

theorem fold_of_isLower {t : Text} (h : ∀ c ∈ t, IsLower c) : fold t = t := by
  unfold fold
  rw [List.map_congr_left fun c hc => (h c hc).toLower, List.map_id']

@[simp] theorem fold_lower (t : Text) : fold (lower t) = lower t :=
  fold_of_isLower fun _ hc => isLower_of_mem_lower hc

/-- Lower-casing comes to an end after one step. -/
@[simp] theorem lower_lower (t : Text) : lower (lower t) = lower t := by
  have hplain : ∀ c ∈ lower t, IsPlain c := fun c hc => Or.inr (isLower_of_mem_lower hc)
  rw [lower_eq_fold_iff.mpr hplain, fold_lower]

theorem fold_cons (c : Char) (t : Text) : fold (c :: t) = c.toLower :: fold t := rfl

theorem casedNext_fold (t : Text) : casedNext (fold t) = casedNext t := by
  unfold casedNext
  induction t with
  | nil => rfl
  | cons c t ih =>
    rw [fold_cons, List.dropWhile_cons, List.dropWhile_cons, isIgnorable_toLower]
    split
    · exact ih
    · rw [List.head?_cons, List.head?_cons, Option.map_some, Option.map_some, isCased_toLower]

theorem lowerAfter_fold (before t : Text) :
    lowerAfter (fold before) (fold t) = lowerAfter before t := by
  induction t generalizing before with
  | nil => rfl
  | cons c t ih =>
    rw [fold_cons, lowerAfter, lowerAfter, ← fold_cons, ih, lowerChar_toLower, casedNext_fold,
      casedNext_fold]
    simp only [toLower_eq_iff (c := c) (d := 'Σ') (by decide),
      toLower_eq_iff (c := c) (d := 'İ') (by decide)]

/-- Folding is a part of lower-casing. -/
@[simp] theorem lower_fold (t : Text) : lower (fold t) = lower t := lowerAfter_fold [] t

end Texts

theorem compareFold_eq_iff {s t : Text} : compareFold s t = .eq ↔ fold s = fold t := by
  unfold compareFold
  exact Std.LawfulEqCmp.compare_eq_iff_eq

theorem compareFold_gt_iff {s t : Text} : compareFold s t = .gt ↔ compareFold t s = .lt := by
  unfold compareFold
  exact Std.OrientedCmp.gt_iff_lt

theorem compareFold_lt_trans {s t u : Text} (h : compareFold s t = .lt) (h' : compareFold t u = .lt) :
    compareFold s u = .lt := by
  unfold compareFold at h h' ⊢
  exact Std.TransCmp.lt_trans h h'

theorem compareFold_congr_left {s t : Text} (h : fold s = fold t) (u : Text) :
    compareFold s u = compareFold t u := by
  unfold compareFold
  rw [h]

theorem compareFold_congr_right {t u : Text} (h : fold t = fold u) (s : Text) :
    compareFold s t = compareFold s u := by
  unfold compareFold
  rw [h]

theorem sameFold_iff {s t : Text} : sameFold s t = true ↔ compareFold s t = .eq := by
  rw [compareFold_eq_iff, sameFold, beq_iff_eq]

end Text

end CardShell
