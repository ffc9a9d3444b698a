import CardShell.Glob
import CardShell.Proofs.Text.Case
import CardShell.Proofs.Volume.Atomic

/-!
When two names are the same. A volume goes by the lower-case forms of names, wildcards and the order
of listings by what folding A to Z leaves of them. Where case beyond A to Z plays no part, this comes
to the same; any other name is found under its lower-case form, but that form does not match it.
-/

set_option autoImplicit false

namespace CardShell

namespace Glob

theorem afterPart?_eq_nil_iff {part t : Text} (h : '?' ∉ part) :
    afterPart? part t = some [] ↔ Text.fold part = Text.fold t := by
  induction part generalizing t with
  | nil =>
    cases t with
    | nil => simp [afterPart?]
    | cons d t => simp [afterPart?, Text.fold]
  | cons c part ih =>
    rw [List.mem_cons, not_or] at h
    cases t with
    | nil => simp [afterPart?, Text.fold]
    | cons d t =>
      have hc : standsFor c d = true ↔ c.toLower = d.toLower := by
        unfold standsFor
        simp [Ne.symm h.1]
      rw [afterPart?, Text.fold_cons, Text.fold_cons, List.cons.injEq, ← hc, ← ih h.2]
      by_cases hcd : standsFor c d = true
      · rw [if_pos hcd]
        simp [hcd]
      · rw [if_neg hcd]
        simp [hcd]

/-- A pattern without wildcards matches what it folds to. -/
theorem isMatch_iff_fold {pattern name : Text} (hs : '*' ∉ pattern) (hq : '?' ∉ pattern) :
    isMatch pattern name = true ↔ Text.fold pattern = Text.fold name := by
  unfold isMatch
  rw [Text.splitOn_of_not_mem hs]
  simp only [beq_iff_eq]
  exact afterPart?_eq_nil_iff hq

end Glob

namespace Path

instance (name : Text) : Decidable (IsName name) :=
  decidable_of_iff (isValidName name = true ∧ '/' ∉ name ∧ name ≠ ['.'] ∧ name ≠ ['.', '.'])
    ⟨fun h => ⟨h.1, h.2.1, h.2.2.1, h.2.2.2⟩,
      fun h => ⟨h.valid, h.no_separator, h.ne_here, h.ne_up⟩⟩

theorem IsName.not_mem_reserved {name : Text} (h : IsName name) {c : Char} (hc : c ∈ reserved) :
    c ∉ name := by
  intro hmem
  have hv := h.valid
  unfold isValidName at hv
  simp only [Bool.and_eq_true, Bool.not_eq_true', List.any_eq_false, Bool.or_eq_true, not_or] at hv
  exact (hv.2 c hmem).2 (List.contains_iff_mem.mpr hc)

theorem isName_of_chars {name : Text} (hne : name ≠ [])
    (h : ∀ c ∈ name, Text.isControl c = false ∧ c ∉ reserved ∧ c ≠ '/')
    (hh : name ≠ ['.']) (hu : name ≠ ['.', '.']) : IsName name := by
  refine ⟨?_, fun hs => (h _ hs).2.2 rfl, hh, hu⟩
  unfold isValidName
  rw [Bool.and_eq_true, decide_eq_true_eq, Bool.not_eq_true', List.any_eq_false]
  refine ⟨hne, fun c hc => ?_⟩
  obtain ⟨hcontrol, hreserved, _⟩ := h c hc
  simp [hcontrol, hreserved]

theorem IsName.chars {name : Text} (h : IsName name) {c : Char} (hc : c ∈ name) :
    Text.isControl c = false ∧ c ∉ reserved ∧ c ≠ '/' := by
  refine ⟨?_, fun hr => h.not_mem_reserved hr hc, fun he => h.no_separator (he ▸ hc)⟩
  have hv := h.valid
  unfold isValidName at hv
  simp only [Bool.and_eq_true, Bool.not_eq_true', List.any_eq_false, Bool.or_eq_true, not_or] at hv
  simpa using (hv.2 c hc).1

/-- Characters that lower-casing brings in are no trouble to a name. -/
theorem chars_of_lowerOf {c d : Char} (hd : Text.LowerOf c d)
    (hc : Text.isControl c = false ∧ c ∉ reserved ∧ c ≠ '/') :
    Text.isControl d = false ∧ d ∉ reserved ∧ d ≠ '/' := by
  have hall : ∀ e ∈ '/' :: reserved, e.toNat < 97 ∨ 122 < e.toNat ∧ e.toNat < 0xA0 := by
    unfold reserved
    simp only [List.forall_mem_cons, List.not_mem_nil, false_imp_iff, implies_true, and_true]
    decide
  have hout : ∀ e ∈ '/' :: reserved, 0xA0 ≤ d.toNat ∨ 97 ≤ d.toNat ∧ d.toNat ≤ 122 → d ≠ e := by
    rintro e he hk rfl
    have hrange := hall d he
    omega
  have hnew : 0xA0 ≤ d.toNat ∨ 97 ≤ d.toNat ∧ d.toNat ≤ 122 →
      Text.isControl d = false ∧ d ∉ reserved ∧ d ≠ '/' := by
    intro hk
    refine ⟨?_, fun hr => hout d (List.mem_cons_of_mem _ hr) hk rfl, hout _ List.mem_cons_self hk⟩
    unfold Text.isControl
    simp only [Bool.or_eq_false_iff, Bool.and_eq_false_iff, decide_eq_false_iff_not]
    omega
  rcases hd.kind with hk | hk | rfl
  · exact hnew (Or.inl hk)
  · exact hnew (Or.inr hk)
  · exact hc

theorem eq_dot_of_lowerOf {c : Char} (h : Text.LowerOf c '.') : c = '.' := by
  rcases h.kind with hk | hk | hk
  · exact absurd hk (by decide)
  · exact absurd hk (by decide)
  · exact hk.symm

/-- A text of dots alone is the lower-case form of no other text. -/
theorem eq_of_lower_dots {name : Text} (h : ∀ d ∈ name.lower, d = '.') : name.lower = name := by
  have hname : ∀ c ∈ name, Text.IsLower c := by
    intro c hc
    obtain ⟨d, hd, hcd⟩ := Text.exists_mem_lowerAfter hc []
    rw [h d hd] at hcd
    rw [eq_dot_of_lowerOf hcd]
    exact hcd.isLower
  rw [Text.lower_eq_fold_iff.mpr fun c hc => Or.inr (hname c hc), Text.fold_of_isLower hname]

/-- The lower-case form of a name is a name. -/
theorem IsName.lower {name : Text} (h : IsName name) : IsName name.lower := by
  refine isName_of_chars ?_ ?_ ?_ ?_
  · have hlen := Text.length_le_lowerAfter [] name
    have hpos := List.length_pos_iff.mpr h.ne_nil
    exact List.length_pos_iff.mp (Nat.lt_of_lt_of_le hpos hlen)
  · intro d hd
    obtain ⟨c, hc, hcd⟩ := Text.exists_of_mem_lowerAfter hd
    exact chars_of_lowerOf hcd (h.chars hc)
  · intro he
    have hsame : name.lower = name := eq_of_lower_dots (by rw [he]; simp)
    exact h.ne_here (hsame ▸ he)
  · intro he
    have hsame : name.lower = name := eq_of_lower_dots (by rw [he]; simp)
    exact h.ne_up (hsame ▸ he)

end Path

namespace Volume

open CardShell.Action

/-- Whatever a volume has been through, the same is found under both names in every directory. -/
def SameEntry (a b : Text) : Prop := ∀ (label : Text) (ops : List Operation) (dir : Text),
  let v := (labelled label).runAll ops
  v.find (dir ++ '/' :: a) = v.find (dir ++ '/' :: b)

variable {a b : Text}

theorem find_below (v : Volume) (dir : Text) (ha : Path.IsName a) (hb : Path.IsName b)
    (h : a.lower = b.lower) : v.find (dir ++ '/' :: a) = v.find (dir ++ '/' :: b) := by
  obtain ⟨below, hbelow⟩ := Path.resolve_below v.directory dir
  unfold find resolve
  rw [hbelow a ha, hbelow b hb]
  cases below with
  | error e => rfl
  | ok p =>
    have hkey : Path.key (p ++ [a]) = Path.key (p ++ [b]) := by rw [key_concat, key_concat, h]
    have hmissing : v.missing (p ++ [a]) = v.missing (p ++ [b]) := by
      unfold missing Path.parent
      rw [List.dropLast_concat, List.dropLast_concat]
    simp only [bind, Except.bind, Except.map]
    rw [hkey, hmissing]

theorem resolve_root (v : Volume) (ha : Path.IsName a) : v.resolve ('/' :: a) = .ok [a] := by
  have h := Path.resolve_text (p := [a]) (fun c hc => List.mem_singleton.mp hc ▸ ha) v.directory
  rwa [Path.text, if_neg (List.cons_ne_nil _ _), List.flatMap_singleton] at h

/-- A volume on which a directory was made is one on which it is found. -/
theorem find_made (ha : Path.IsName a) :
    ∃ n, ((labelled []).runAll [.makeDirectory ('/' :: a)]).find ('/' :: a) = .ok ([a.lower], n) := by
  have hv := wellFormed_labelled []
  have hn : (labelled []).node? (Path.key [a]) = none := rfl
  obtain ⟨_, hmake⟩ := makeDirectoryAt_new hn (node?_nil _) rfl
  have hrun : (labelled []).runAll [.makeDirectory ('/' :: a)] = (labelled []).insert [a] .directory := by
    have hx : makeDirectory ('/' :: a) (labelled []) =
        .ok () ((labelled []).insert [a] .directory) := by
      unfold makeDirectory
      rw [bind_apply, query, resolve_root _ ha]
      exact hmake
    exact after_ok hx
  have hnode : ∃ n, ((labelled []).insert [a] .directory).node? (Path.key [a]) = some n :=
    ⟨_, (node?_insert hv (d := (labelled []).root) .directory rfl hn _).trans (if_pos rfl)⟩
  obtain ⟨n, hnode⟩ := hnode
  refine ⟨n, ?_⟩
  rw [hrun]
  unfold find
  rw [resolve_root _ ha]
  simp only [bind, Except.bind, hnode]
  rfl

/-- Volumes go by the lower-case forms of names. -/
theorem sameEntry_iff (ha : Path.IsName a) (hb : Path.IsName b) :
    SameEntry a b ↔ a.lower = b.lower := by
  constructor
  · intro h
    obtain ⟨n, hn⟩ := find_made ha
    have hfind := h [] [.makeDirectory ('/' :: a)] []
    simp only [List.nil_append, hn] at hfind
    obtain ⟨p, hp, hkey, _⟩ := find_ok hfind.symm
    rw [resolve_root _ hb] at hp
    cases hp
    exact (List.cons.inj hkey).1
  · exact fun h label ops dir => find_below _ dir ha hb h

theorem isMatch_name (ha : Path.IsName a) (b : Text) :
    Glob.isMatch a b = true ↔ a.fold = b.fold :=
  Glob.isMatch_iff_fold (ha.not_mem_reserved (by decide)) (ha.not_mem_reserved (by decide))

/-- Names that match are the same entry and stand side by side in a listing. The other way round this
goes for names that case beyond A to Z does not concern, and for no others: any other name is the
same entry as its lower-case form, which neither matches it nor stands with it. -/
theorem same_name (a b : Text) (ha : Path.IsName a) (hb : Path.IsName b) :
    (SameEntry a b ↔ a.lower = b.lower) ∧
    (Glob.isMatch a b = true ↔ a.fold = b.fold) ∧
    (Text.compareFold a b = .eq ↔ a.fold = b.fold) ∧
    (Glob.isMatch a b = true → SameEntry a b) ∧
    ((∀ c ∈ a, Text.IsPlain c) → (∀ c ∈ b, Text.IsPlain c) →
      (SameEntry a b ↔ Glob.isMatch a b = true)) ∧
    (¬ (∀ c ∈ a, Text.IsPlain c) → Path.IsName a.lower ∧ SameEntry a a.lower ∧
      Glob.isMatch a a.lower = false ∧ Text.compareFold a a.lower ≠ .eq) := by
  have hentry := sameEntry_iff ha hb
  have hmatch := isMatch_name ha b
  refine ⟨hentry, hmatch, Text.compareFold_eq_iff, fun h => ?_, fun hpa hpb => ?_, fun hpa => ?_⟩
  · rw [hentry, ← Text.lower_fold a, hmatch.mp h, Text.lower_fold]
  · rw [hentry, hmatch, Text.lower_eq_fold_iff.mpr hpa, Text.lower_eq_fold_iff.mpr hpb]
  · have hne : a.fold ≠ a.lower.fold := by
      rw [Text.fold_lower]
      exact fun h => hpa (Text.lower_eq_fold_iff.mp h.symm)
    refine ⟨ha.lower, (sameEntry_iff ha ha.lower).mpr (Text.lower_lower a).symm, ?_, ?_⟩
    · rw [Bool.eq_false_iff]
      exact fun h => hne ((isMatch_name ha a.lower).mp h)
    · exact fun h => hne (Text.compareFold_eq_iff.mp h)

theorem same_name_ascii :
    Path.IsName "ReadMe.txt" ∧ Path.IsName "README.TXT" ∧ SameEntry "ReadMe.txt" "README.TXT" := by
  have ha : Path.IsName "ReadMe.txt" := by decide
  have hb : Path.IsName "README.TXT" := by decide
  exact ⟨ha, hb, (same_name _ _ ha hb).2.2.2.1 (by decide)⟩

/-- One accented letter is two names to a pattern, and one to the volume. -/
theorem same_name_accented : ¬ ∀ a b : Text, Path.IsName a → Path.IsName b →
    (SameEntry a b ↔ Glob.isMatch a b = true) ∧
    (Glob.isMatch a b = true ↔ Text.compareFold a b = .eq) := by
  intro law
  have ha : Path.IsName "é" := by decide
  have hb : Path.IsName "É" := by decide
  have hsame : SameEntry "é" "É" := (sameEntry_iff ha hb).mpr (by decide +kernel)
  have hmatch := (law "é" "É" ha hb).1.mp hsame
  exact absurd hmatch (by decide)

end Volume

end CardShell
