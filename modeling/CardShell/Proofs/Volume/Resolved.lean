import CardShell.Proofs.Path
import CardShell.Volume.Tree

/-!
What a typed path comes to. Its parts are read from the left, behind those of the current directory
unless it begins at the root, and the names that are left make up the path.
-/

set_option autoImplicit false

namespace CardShell

theorem Text.cons_joinWith (c : Char) (w : Text) (ws : List Text) :
    c :: joinWith [c] (w :: ws) = (w :: ws).flatMap (c :: ·) := by
  induction ws generalizing w with
  | nil => simp [joinWith]
  | cons v ws ih =>
    rw [joinWith, List.append_assoc, List.singleton_append, ih v]
    rfl

namespace Path

variable {here p q r : Path} {part typed : Text} {parts : List Text}

/-- The parts that name no entry. -/
def IsMove (part : Text) : Prop := part = [] ∨ part = ['.'] ∨ part = ['.', '.']

/-- What is left of the names `p` when the parts have been read from the left. -/
inductive Reads : (p : Path) → (parts : List Text) → (left : Path) → Prop
  | done (p : Path) : Reads p [] p
  | stay {p q : Path} {part : Text} {parts : List Text} (h : part = [] ∨ part = ['.']) :
      Reads p parts q → Reads p (part :: parts) q
  | up {p q : Path} {parts : List Text} : Reads p.dropLast parts q → Reads p (['.', '.'] :: parts) q
  | down {p q : Path} {name : Text} {parts : List Text} (h : ¬ IsMove name) :
      Reads (p ++ [name]) parts q → Reads p (name :: parts) q

/-- A part that can be neither passed over nor entered. -/
def IsBad (part : Text) : Prop := ¬ IsMove part ∧ isValidName part = false

theorem not_isMove_iff : ¬ IsMove part ↔ ¬ (part = [] ∨ part = ['.']) ∧ part ≠ ['.', '.'] := by
  rw [IsMove, ← or_assoc, not_or]

/-- The parts can always be read. -/
theorem exists_reads (p : Path) (parts : List Text) : ∃ q, Reads p parts q := by
  induction parts generalizing p with
  | nil => exact ⟨p, .done p⟩
  | cons part parts ih =>
    by_cases hstay : part = [] ∨ part = ['.']
    · exact (ih p).imp fun _ => .stay hstay
    · by_cases hup : part = ['.', '.']
      · exact (ih p.dropLast).imp fun _ hq => hup ▸ .up hq
      · exact (ih (p ++ [part])).imp fun _ => .down (not_isMove_iff.mpr ⟨hstay, hup⟩)

theorem enter_of_bad (p : Path) (h : IsBad part) : enter p part = .error .invalidName := by
  obtain ⟨hstay, hup⟩ := not_isMove_iff.mp h.1
  rw [enter, if_neg hstay, if_neg hup, h.2]
  rfl

theorem foldlM_enter_of_bad (p : Path) (hbad : IsBad part) (h : part ∈ parts) :
    parts.foldlM enter p = .error .invalidName := by
  induction parts generalizing p with
  | nil => cases h
  | cons first parts ih =>
    rw [List.foldlM_cons]
    rcases List.mem_cons.mp h with rfl | h
    · rw [enter_of_bad p hbad]
      rfl
    · cases hfirst : enter p first with
      | error e =>
        have hone : [first].foldlM enter p = .error e := by
          rw [List.foldlM_cons, hfirst]
          rfl
        rw [foldlM_enter_error hone]
        rfl
      | ok q => exact ih q h

/-- Where no part is bad, entering them ends where reading them does. -/
theorem Reads.foldlM_enter (h : Reads p parts q) (hgood : ∀ part ∈ parts, ¬ IsBad part) :
    parts.foldlM enter p = .ok q := by
  induction h with
  | done p => rfl
  | @stay p q part parts hstay _ ih =>
    have hfirst : enter p part = .ok p := if_pos hstay
    rw [List.foldlM_cons, hfirst]
    exact ih fun part hpart => hgood part (List.mem_cons_of_mem _ hpart)
  | up _ ih =>
    rw [List.foldlM_cons]
    exact ih fun part hpart => hgood part (List.mem_cons_of_mem _ hpart)
  | @down p q name parts hname _ ih =>
    obtain ⟨hstay, hup⟩ := not_isMove_iff.mp hname
    have hvalid : isValidName name = true := by
      cases hv : isValidName name with
      | true => rfl
      | false => exact absurd ⟨hname, hv⟩ (hgood name List.mem_cons_self)
    have hfirst : enter p name = .ok (p ++ [name]) := by
      rw [enter, if_neg hstay, if_neg hup, if_pos hvalid]
    rw [List.foldlM_cons, hfirst]
    exact ih fun part hpart => hgood part (List.mem_cons_of_mem _ hpart)

/-- A path is refused exactly for a bad part, and in one way. -/
theorem resolve_error_iff {e : Error} :
    resolve here typed = .error e ↔ e = .invalidName ∧ ∃ part ∈ typed.splitOn '/', IsBad part := by
  constructor
  · intro h
    refine ⟨foldlM_enter_error h, ?_⟩
    by_cases hbad : ∃ part ∈ typed.splitOn '/', IsBad part
    · exact hbad
    · obtain ⟨q, hq⟩ :=
        exists_reads (if typed.head? = some '/' then [] else here) (typed.splitOn '/')
      rw [resolve, hq.foldlM_enter fun part hpart hpb => hbad ⟨part, hpart, hpb⟩] at h
      cases h
  · rintro ⟨rfl, part, hpart, hbad⟩
    exact foldlM_enter_of_bad _ hbad hpart

/-- The text that `typed` stands for in directory `here`. -/
def fullText (here : Path) (typed : Text) : Text :=
  if typed.head? = some '/' then typed else here.text ++ '/' :: typed

theorem text_eq_cons_joinWith (p : Path) : p.text = '/' :: Text.joinWith ['/'] p := by
  cases p with
  | nil => rfl
  | cons name p => rw [Text.cons_joinWith, text, if_neg (List.cons_ne_nil name p)]

/-- Behind the text of a directory a path means what it means there. -/
theorem resolve_fullText (hhere : ∀ name ∈ here, IsName name) (there : Path) (typed : Text) :
    resolve there (fullText here typed) = resolve here typed := by
  unfold fullText
  by_cases habsolute : typed.head? = some '/'
  · rw [if_pos habsolute, resolve, resolve, if_pos habsolute, if_pos habsolute]
  · have hhere' := resolve_text hhere there
    rw [text_eq_cons_joinWith] at hhere'
    rw [if_neg habsolute, text_eq_cons_joinWith, resolve, resolve, if_neg habsolute,
      Text.splitOn_append, List.foldlM_append]
    exact congrArg (· >>= fun p => (typed.splitOn '/').foldlM enter p) hhere'

/-- The parts of a path's text are its names, behind the separator in front. -/
theorem splitOn_text (hp : ∀ name ∈ p, IsName name) (hne : p ≠ []) :
    p.text.splitOn '/' = [] :: p := by
  cases p with
  | nil => exact absurd rfl hne
  | cons name p =>
    rw [text, if_neg hne, List.flatMap_cons, List.cons_append, Text.splitOn_cons_self,
      splitOn_names fun d hd => (hp d hd).no_separator]

end Path

namespace Volume

open Path

/-- Where the current directory is made up of names, a typed path is refused exactly if one of its
parts is neither a move nor a valid name. Any other path comes to the names that are left when the
full text is read from the left; their text begins at the root, has these names and nothing else
between its separators, and leads back to them from every directory. -/
theorem resolve_by_parts (v : Volume) (hv : ∀ name ∈ v.directory, IsName name) (typed : Text) :
    (∀ e, v.resolve typed = .error e ↔ e = .invalidName ∧
      ∃ part ∈ typed.splitOn '/', ¬ IsMove part ∧ isValidName part = false) ∧
    ((∀ part ∈ typed.splitOn '/', ¬ IsMove part → isValidName part = true) →
      ∃ p, v.resolve typed = .ok p ∧
        (∀ q, Reads [] ((fullText v.directory typed).splitOn '/') q ↔ q = p) ∧
        p.text = '/' :: Text.joinWith ['/'] p ∧
        (∀ part ∈ p, IsName part) ∧
        (p ≠ [] → p.text.splitOn '/' = [] :: p) ∧
        ∀ u : Volume, u.resolve p.text = .ok p) := by
  refine ⟨fun e => resolve_error_iff, fun hgood => ?_⟩
  cases hp : v.resolve typed with
  | error e =>
    obtain ⟨_, part, hpart, hmove, hinvalid⟩ := resolve_error_iff.mp hp
    rw [hgood part hpart hmove] at hinvalid
    cases hinvalid
  | ok p =>
    have hname : ∀ part ∈ p, IsName part := isName_of_resolve hv hp
    have hfull : Path.resolve [] (fullText v.directory typed) = .ok p :=
      (resolve_fullText hv [] typed).trans hp
    have hallgood : ∀ part ∈ (fullText v.directory typed).splitOn '/', ¬ IsBad part := by
      intro part hpart hbad
      rw [resolve_error_iff.mpr ⟨rfl, part, hpart, hbad⟩] at hfull
      cases hfull
    have hreads : ∀ q, Reads [] ((fullText v.directory typed).splitOn '/') q → q = p := by
      intro q hq
      have hq := hq.foldlM_enter hallgood
      rw [Path.resolve, ite_self, hq] at hfull
      exact Except.ok.inj hfull
    obtain ⟨q, hq⟩ := exists_reads [] ((fullText v.directory typed).splitOn '/')
    have hqp := hreads q hq
    refine ⟨p, rfl, fun r => ⟨hreads r, ?_⟩, text_eq_cons_joinWith p, hname,
      splitOn_text hname, fun u => resolve_text hname u.directory⟩
    rintro rfl
    exact hqp ▸ hq

/-- Up and down from `/bin`. -/
theorem resolve_by_parts_below_bin : ∃ v : Volume, v.currentDirectory = "/bin".toList ∧
    (∀ name ∈ v.directory, IsName name) ∧
    ∃ p, v.resolve "x/../.././a//b/" = .ok p ∧ p.text = "/a/b".toList ∧
      ∀ u : Volume, u.resolve p.text = .ok p := by
  let v : Volume := { labelled [] with directory := ["bin".toList] }
  have hv : ∀ name ∈ v.directory, IsName name := by
    intro name hname
    cases List.mem_singleton.mp hname
    exact ⟨by decide, by decide, by decide, by decide⟩
  have hgood : ∀ part ∈ Text.splitOn '/' "x/../.././a//b/".toList,
      ¬ IsMove part → isValidName part = true := by
    unfold IsMove
    decide
  obtain ⟨p, hp, hreads, _, _, _, hback⟩ := (resolve_by_parts v hv _).2 hgood
  have hpath : v.resolve "x/../.././a//b/" = .ok ["a".toList, "b".toList] := rfl
  cases hpath.symm.trans hp
  exact ⟨v, rfl, hv, _, hp, rfl, hback⟩

end Volume

end CardShell
