import CardShell.Path

/-!
Names, paths and their keys. What a typed path resolves to holds entry names only, and the key of a
path has the lower-case form of the path's text as its own text.
-/

set_option autoImplicit false

namespace CardShell

namespace Text

theorem not_mem_of_mem_splitOn {c : Char} {t w : Text} (h : w ∈ splitOn c t) : c ∉ w := by
  induction t generalizing w with
  | nil =>
    rw [splitOn, List.mem_singleton] at h
    simp [h]
  | cons d t ih =>
    rw [splitOn] at h
    split at h
    · rcases List.mem_cons.mp h with rfl | h
      · simp
      · exact ih h
    · rename_i hd
      cases hs : splitOn c t with
      | nil => exact absurd hs (splitOn_ne_nil c t)
      | cons v vs =>
        rw [hs] at h ih
        rcases List.mem_cons.mp h with rfl | h
        · rw [List.mem_cons, not_or]
          exact ⟨fun he => hd he.symm, ih List.mem_cons_self⟩
        · exact ih (List.mem_cons_of_mem v h)

theorem splitOn_cons_self (c : Char) (t : Text) : splitOn c (c :: t) = [] :: splitOn c t := by
  rw [splitOn, if_pos rfl]

theorem splitOn_of_not_mem {c : Char} {w : Text} (h : c ∉ w) : splitOn c w = [w] := by
  induction w with
  | nil => rfl
  | cons d w ih =>
    rw [List.mem_cons, not_or] at h
    rw [splitOn, if_neg (Ne.symm h.1), ih h.2]

theorem splitOn_append (c : Char) (s t : Text) :
    splitOn c (s ++ c :: t) = splitOn c s ++ splitOn c t := by
  induction s with
  | nil => exact splitOn_cons_self c t
  | cons d s ih =>
    rw [List.cons_append, splitOn, splitOn, ih]
    by_cases hd : d = c
    · rw [if_pos hd, if_pos hd]
      rfl
    · rw [if_neg hd, if_neg hd]
      cases hs : splitOn c s with
      | nil => exact absurd hs (splitOn_ne_nil c s)
      | cons w ws => rfl

/-- Every character but the separators is in a part. -/
theorem exists_mem_splitOn {c d : Char} {t : Text} (h : d ∈ t) (hd : d ≠ c) :
    ∃ w ∈ splitOn c t, d ∈ w := by
  induction t with
  | nil => cases h
  | cons e t ih =>
    unfold splitOn
    split
    · rename_i he
      obtain ⟨w, hw, hdw⟩ := ih (List.mem_of_ne_of_mem (he ▸ hd) h)
      exact ⟨w, List.mem_cons_of_mem _ hw, hdw⟩
    · cases hs : splitOn c t with
      | nil => exact absurd hs (splitOn_ne_nil c t)
      | cons v vs =>
        rcases List.mem_cons.mp h with rfl | h
        · exact ⟨d :: v, List.mem_cons_self, List.mem_cons_self⟩
        · obtain ⟨w, hw, hdw⟩ := ih h
          rw [hs] at hw
          rcases List.mem_cons.mp hw with rfl | hw
          · exact ⟨e :: w, List.mem_cons_self, List.mem_cons_of_mem e hdw⟩
          · exact ⟨w, List.mem_cons_of_mem _ hw, hdw⟩

theorem isIgnorable_separator : isIgnorable '/' = false := by decide +kernel

theorem isCased_separator : isCased '/' = false := by decide +kernel

theorem casedNext_append_separator (s t : Text) : casedNext (s ++ '/' :: t) = casedNext s := by
  induction s with
  | nil => simp [casedNext, isIgnorable_separator, isCased_separator]
  | cons c s ih =>
    by_cases hc : isIgnorable c = true
    · simpa [casedNext, hc] using ih
    · simp [casedNext, hc]

theorem lowerAfter_append_separator (u b t : Text) :
    lowerAfter (u ++ '/' :: b) t = lowerAfter u t := by
  induction t generalizing u with
  | nil => rfl
  | cons c t ih =>
    have h := ih (c :: u)
    rw [List.cons_append] at h
    rw [lowerAfter, lowerAfter, casedNext_append_separator, h]

theorem lowerAfter_separator (b s t : Text) :
    lowerAfter b (s ++ '/' :: t) = lowerAfter b s ++ '/' :: lower t := by
  induction s generalizing b with
  | nil =>
    have h := lowerAfter_append_separator [] b t
    rw [List.nil_append] at h
    rw [List.nil_append, lowerAfter.eq_2, h]
    rfl
  | cons c s ih =>
    rw [List.cons_append, lowerAfter, lowerAfter, ih, casedNext_append_separator,
      List.append_assoc]

/-- Each part between separators is put into lower case by itself. -/
theorem lower_separator (s t : Text) : lower (s ++ '/' :: t) = lower s ++ '/' :: lower t :=
  lowerAfter_separator [] s t

end Text

namespace Path

/-- What an entry may be called: valid, in one part, and not one of the two parts that only move
about. -/
structure IsName (name : Text) : Prop where
  valid : isValidName name = true
  no_separator : '/' ∉ name
  ne_here : name ≠ ['.']
  ne_up : name ≠ ['.', '.']

/-- The parts that can be entered are names and those that only move about. -/
theorem isName_or_of_enter {here p : Path} {part : Text} (hs : '/' ∉ part)
    (h : enter here part = .ok p) :
    IsName part ∨ part = [] ∨ part = ['.'] ∨ part = ['.', '.'] := by
  by_cases hhere : part = [] ∨ part = ['.']
  · exact Or.inr (hhere.imp_right Or.inl)
  · by_cases hup : part = ['.', '.']
    · exact Or.inr (Or.inr (Or.inr hup))
    · unfold enter at h
      rw [if_neg hhere, if_neg hup] at h
      split at h
      · rename_i hvalid
        exact Or.inl ⟨hvalid, hs, fun he => hhere (Or.inr he), hup⟩
      · cases h

theorem isName_of_enter {here p : Path} {part : Text} (hs : '/' ∉ part)
    (hh : ∀ c ∈ here, IsName c) (h : enter here part = .ok p) : ∀ c ∈ p, IsName c := by
  unfold enter at h
  split at h
  · cases h
    exact hh
  · rename_i hdot
    split at h
    · cases h
      exact fun c hc => hh c (List.dropLast_subset here hc)
    · rename_i hup
      split at h
      · rename_i hv
        cases h
        intro c hc
        rcases List.mem_append.mp hc with hc | hc
        · exact hh c hc
        · rw [List.mem_singleton] at hc
          subst hc
          exact ⟨hv, hs, fun he => hdot (Or.inr he), hup⟩
      · cases h

theorem isName_of_foldlM {parts : List Text} (hs : ∀ w ∈ parts, '/' ∉ w) {here p : Path}
    (hh : ∀ c ∈ here, IsName c) (h : parts.foldlM enter here = .ok p) : ∀ c ∈ p, IsName c := by
  induction parts generalizing here with
  | nil =>
    cases h
    exact hh
  | cons w parts ih =>
    rw [List.foldlM_cons] at h
    cases he : enter here w with
    | error e => rw [he] at h; cases h
    | ok q =>
      rw [he] at h
      have hq := isName_of_enter (hs w List.mem_cons_self) hh he
      exact ih (fun v hv => hs v (List.mem_cons_of_mem w hv)) hq h

theorem isName_of_resolve {here p : Path} {typed : Text} (hh : ∀ c ∈ here, IsName c)
    (h : resolve here typed = .ok p) : ∀ c ∈ p, IsName c := by
  refine isName_of_foldlM (fun w hw => Text.not_mem_of_mem_splitOn hw) ?_ h
  split
  · simp
  · exact hh

/-- Entering parts fails in one way only. -/
theorem foldlM_enter_error {parts : List Text} {here : Path} {e : Error}
    (h : parts.foldlM enter here = .error e) : e = .invalidName := by
  induction parts generalizing here with
  | nil => cases h
  | cons part parts ih =>
    rw [List.foldlM_cons] at h
    cases hp : enter here part with
    | ok p =>
      rw [hp] at h
      exact ih h
    | error f =>
      rw [hp] at h
      cases h
      unfold enter at hp
      split at hp
      · cases hp
      · split at hp
        · cases hp
        · split at hp
          · cases hp
          · cases hp
            rfl

/-- A reserved character anywhere in a typed path makes it one that names nothing. -/
theorem resolve_of_reserved {c : Char} {typed : Text} (hc : c ∈ reserved) (h : c ∈ typed)
    (here : Path) : resolve here typed = .error .invalidName := by
  have hne : ∀ d ∈ reserved, d ≠ '/' ∧ d ≠ '.' := by simp [reserved]
  obtain ⟨part, hpart, hin⟩ := Text.exists_mem_splitOn h (hne c hc).1
  have hbad : ∀ p, enter p part = .error .invalidName := by
    intro p
    have hvalid : isValidName part = false := by
      simp only [isValidName, Bool.and_eq_false_iff, Bool.not_eq_false', List.any_eq_true]
      exact Or.inr ⟨c, hin, by simp [hc]⟩
    have hmoves : ¬ (part = [] ∨ part = ['.']) ∧ part ≠ ['.', '.'] := by
      have hdot : c ≠ '.' := (hne c hc).2
      constructor
      · rintro (rfl | rfl) <;> simp [hdot] at hin
      · rintro rfl
        simp [hdot] at hin
    rw [enter, if_neg hmoves.1, if_neg hmoves.2, hvalid]
    rfl
  cases hr : resolve here typed with
  | error e => rw [foldlM_enter_error hr]
  | ok p =>
    obtain ⟨front, back, hsplit⟩ := List.append_of_mem hpart
    rw [resolve, hsplit, List.foldlM_append] at hr
    cases hf : front.foldlM enter (if typed.head? = some '/' then [] else here) with
    | error e => rw [hf] at hr; cases hr
    | ok q =>
      rw [hf] at hr
      change (part :: back).foldlM enter q = .ok p at hr
      rw [List.foldlM_cons, hbad q] at hr
      cases hr

section PathText

theorem IsName.ne_nil {name : Text} (h : IsName name) : name ≠ [] := by
  rintro rfl
  exact absurd h.valid (by decide)

theorem IsName.enter {name : Text} (h : IsName name) (p : Path) :
    Path.enter p name = .ok (p ++ [name]) := by
  unfold Path.enter
  rw [if_neg (not_or.mpr ⟨h.ne_nil, h.ne_here⟩), if_neg h.ne_up, if_pos h.valid]

theorem foldlM_enter {p : Path} (h : ∀ c ∈ p, IsName c) (here : Path) :
    p.foldlM Path.enter here = .ok (here ++ p) := by
  induction p generalizing here with
  | nil => rw [List.append_nil]; rfl
  | cons c p ih =>
    rw [List.foldlM_cons, (h c List.mem_cons_self).enter]
    have hp := ih (fun d hd => h d (List.mem_cons_of_mem c hd)) (here ++ [c])
    rw [List.append_assoc, List.singleton_append] at hp
    exact hp

theorem splitOn_names {c : Text} {p : Path} (h : ∀ d ∈ c :: p, '/' ∉ d) :
    Text.splitOn '/' (c ++ p.flatMap ('/' :: ·)) = c :: p := by
  induction p generalizing c with
  | nil => rw [List.flatMap_nil, List.append_nil, Text.splitOn_of_not_mem (h c List.mem_cons_self)]
  | cons d p ih =>
    rw [List.flatMap_cons, List.cons_append, Text.splitOn_append,
      Text.splitOn_of_not_mem (h c List.mem_cons_self), ih fun e he => h e (List.mem_cons_of_mem c he)]
    rfl

/-- The text of a path leads back to it, from wherever it is typed. -/
theorem resolve_text {p : Path} (h : ∀ c ∈ p, IsName c) (here : Path) :
    resolve here p.text = .ok p := by
  cases p with
  | nil => rfl
  | cons c p =>
    unfold resolve
    rw [text, if_neg (List.cons_ne_nil c p), List.flatMap_cons, List.cons_append,
      Text.splitOn_cons_self, splitOn_names fun d hd => (h d hd).no_separator, List.head?_cons,
      if_pos rfl, List.foldlM_cons]
    exact foldlM_enter h []

/-- A part typed behind a directory and a separator is entered from wherever the directory leads. -/
theorem resolve_part (here : Path) (dir : Text) {part : Text} (hpart : '/' ∉ part) :
    resolve here (dir ++ '/' :: part) =
      (resolve here (dir ++ ['/'])).bind fun p => Path.enter p part := by
  have hhead : (dir ++ '/' :: part).head? = (dir ++ ['/']).head? := by cases dir <;> rfl
  unfold resolve
  rw [hhead, Text.splitOn_append, Text.splitOn_append, Text.splitOn_of_not_mem hpart,
    List.foldlM_append, List.foldlM_append]
  cases (dir.splitOn '/').foldlM Path.enter
      (if (dir ++ ['/']).head? = some '/' then [] else here) with
  | error e => rfl
  | ok p =>
    show ([part].foldlM Path.enter p : Except Error Path) = Path.enter p part
    rw [List.foldlM_cons]
    cases Path.enter p part <;> rfl

/-- A name typed there goes below. -/
theorem resolve_concat (here : Path) (dir : Text) {name : Text} (hname : IsName name) :
    resolve here (dir ++ '/' :: name) = (resolve here (dir ++ ['/'])).map (· ++ [name]) := by
  rw [resolve_part here dir hname.no_separator]
  cases resolve here (dir ++ ['/']) with
  | error e => rfl
  | ok p => exact hname.enter p

theorem resolve_below (here : Path) (dir : Text) : ∃ below : Except Error Path,
    ∀ name, IsName name → resolve here (dir ++ '/' :: name) = below.map (· ++ [name]) :=
  ⟨resolve here (dir ++ ['/']), fun _ hname => resolve_concat here dir hname⟩

/-- A separator behind a directory changes nothing. -/
theorem resolve_separator (here : Path) {dir : Text} (h : dir ≠ []) :
    resolve here (dir ++ ['/']) = resolve here dir := by
  have hhead : (dir ++ ['/']).head? = dir.head? := by
    cases dir with
    | nil => exact absurd rfl h
    | cons c dir => rfl
  unfold resolve
  rw [hhead, Text.splitOn_append, List.foldlM_append]
  cases (dir.splitOn '/').foldlM Path.enter (if dir.head? = some '/' then [] else here) <;> rfl

end PathText

section Keys

@[simp] theorem key_nil : key [] = [] := rfl

@[simp] theorem key_append (p q : Path) : key (p ++ q) = key p ++ key q := List.map_append

@[simp] theorem length_key (p : Path) : (key p).length = p.length := List.length_map _

@[simp] theorem key_eq_nil {p : Path} : key p = [] ↔ p = [] := List.map_eq_nil_iff

theorem key_parent (p : Path) : p.parent.key = p.key.dropLast := List.map_dropLast

theorem parent_append_leaf {p : Path} (h : p ≠ []) : p.parent ++ [p.leaf] = p := by
  rw [parent, leaf, List.getLast?_eq_some_getLast h]
  exact List.dropLast_concat_getLast h

theorem leaf_mem {p : Path} (h : p ≠ []) : p.leaf ∈ p := by
  rw [leaf, List.getLast?_eq_some_getLast h]
  exact List.getLast_mem h

theorem isUnder_iff {top p : Path} : isUnder top p = true ↔ top <+: p := List.isPrefixOf_iff_prefix

theorem isBelow_iff {top p : Path} :
    isBelow top p = true ↔ top <+: p ∧ top.length < p.length := by
  rw [isBelow, Bool.and_eq_true, decide_eq_true_eq, List.isPrefixOf_iff_prefix]

theorem lower_append_names (s : Text) (p : Path) :
    Text.lower (s ++ p.flatMap ('/' :: ·)) = Text.lower s ++ p.key.flatMap ('/' :: ·) := by
  induction p generalizing s with
  | nil => simp
  | cons c p ih =>
    rw [List.flatMap_cons, List.cons_append, Text.lower_separator, ih c]
    rfl

/-- The text of a key is the lower-case form of the path's text. -/
theorem text_key (p : Path) : p.key.text = Text.lower p.text := by
  by_cases h : p = []
  · subst h
    decide
  · rw [text, text, if_neg (by rwa [key_eq_nil]), if_neg h]
    exact (lower_append_names [] p).symm

end Keys

end Path

end CardShell
