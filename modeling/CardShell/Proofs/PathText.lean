import CardShell.PathText
import CardShell.Proofs.Path
import Mathlib.Data.List.TakeDrop

/-!
Typed directories and the names below them. Which entry a typed path means depends on the current
directory by its key alone, and the last part of the path is entered last. A path that leads anywhere
has no wildcard in it.
-/

set_option autoImplicit false

namespace CardShell

namespace Path

variable {here here' : Path} {key : Path} {name typed : Text}

theorem enter_congr {p q : Path} (h : p.key = q.key) (part : Text) :
    (enter p part).map Path.key = (enter q part).map Path.key := by
  unfold enter
  split
  · exact congrArg Except.ok h
  · split
    · have hparent : p.parent.key = q.parent.key := by rw [key_parent, key_parent, h]
      exact congrArg Except.ok hparent
    · split
      · have hbelow : (p ++ [part]).key = (q ++ [part]).key := by rw [key_append, key_append, h]
        exact congrArg Except.ok hbelow
      · rfl

theorem foldlM_enter_congr (parts : List Text) {p q : Path} (h : p.key = q.key) :
    (parts.foldlM enter p).map Path.key = (parts.foldlM enter q).map Path.key := by
  induction parts generalizing p q with
  | nil => exact congrArg Except.ok h
  | cons part parts ih =>
    have hpart := enter_congr h part
    rw [List.foldlM_cons, List.foldlM_cons]
    cases hp : enter p part with
    | error e =>
      cases hq : enter q part with
      | error e' =>
        rw [hp, hq] at hpart
        exact hpart
      | ok q' =>
        rw [hp, hq] at hpart
        cases hpart
    | ok p' =>
      cases hq : enter q part with
      | error e =>
        rw [hp, hq] at hpart
        cases hpart
      | ok q' =>
        rw [hp, hq] at hpart
        exact ih (Except.ok.inj hpart)

theorem resolve_congr (h : here.key = here'.key) (typed : Text) :
    (resolve here typed).map Path.key = (resolve here' typed).map Path.key := by
  unfold resolve
  refine foldlM_enter_congr _ ?_
  split
  · rfl
  · exact h

/-- The key of what `typed` means where `here` is the current directory. -/
def LeadsTo (here : Path) (typed : Text) (key : Path) : Prop :=
  (resolve here typed).map Path.key = .ok key

theorem leadsTo_iff : LeadsTo here typed key ↔ ∃ p, resolve here typed = .ok p ∧ p.key = key := by
  unfold LeadsTo
  cases resolve here typed with
  | error e =>
    constructor
    · intro h
      cases h
    · rintro ⟨p, hp, _⟩
      cases hp
  | ok p =>
    constructor
    · intro h
      exact ⟨p, rfl, Except.ok.inj h⟩
    · rintro ⟨q, hq, rfl⟩
      cases hq
      rfl

theorem LeadsTo.congr (h : LeadsTo here typed key) (hk : here'.key = here.key) :
    LeadsTo here' typed key := (resolve_congr hk typed).trans h

/-- A path that begins at the root means the same everywhere. -/
theorem LeadsTo.of_absolute (h : LeadsTo here typed key) (ha : typed.head? = some '/')
    (here' : Path) : LeadsTo here' typed key := by
  unfold LeadsTo resolve at h ⊢
  rw [if_pos ha] at h ⊢
  exact h

end Path

namespace PathText

open CardShell.Path

variable {name : Text}

theorem resolve_toOpen (here : Path) (dir : Text) : resolve here (toOpen dir) = resolve here dir := by
  unfold toOpen
  split
  · rename_i hdir
    rw [hdir]
    rfl
  · rfl

/-- A part joined to a directory is entered from wherever the directory leads. -/
theorem resolve_join_part (here : Path) (dir : Text) {part : Text} (hpart : '/' ∉ part) :
    resolve here (join dir part) = (resolve here dir).bind fun p => enter p part := by
  unfold join
  by_cases hdir : dir = []
  · have hhead : part.head? ≠ some '/' := fun h => hpart (List.mem_of_head? h)
    rw [if_pos hdir, hdir, resolve, if_neg hhead, Text.splitOn_of_not_mem hpart, List.foldlM_cons]
    show (enter here part >>= fun p => .ok p) = enter here part
    cases enter here part <;> rfl
  · rw [if_neg hdir]
    split
    · rename_i hlast
      obtain ⟨above, rfl⟩ := List.getLast?_eq_some_iff.mp hlast
      rw [List.append_assoc, List.singleton_append, resolve_part here above hpart]
    · rw [← resolve_separator here hdir, ← resolve_part here dir hpart]
      exact congrArg (resolve here) (List.append_assoc dir _ part)

/-- A name joined to a directory goes below wherever the directory leads. -/
theorem resolve_join (here : Path) (dir : Text) (hname : IsName name) :
    resolve here (join dir name) = (resolve here dir).map (· ++ [name]) := by
  rw [resolve_join_part here dir hname.no_separator]
  cases resolve here dir with
  | error e => rfl
  | ok p => exact hname.enter p

section LastPart

theorem span_separator (t : Text) :
    ('/' ∉ t ∧ t.span (fun c => decide (c ≠ '/')) = (t, [])) ∨
    ∃ s r, t = s ++ '/' :: r ∧ '/' ∉ s ∧ t.span (fun c => decide (c ≠ '/')) = (s, '/' :: r) := by
  simp only [List.span_eq_takeWhile_dropWhile]
  induction t with
  | nil => exact Or.inl ⟨List.not_mem_nil, rfl⟩
  | cons c t ih =>
    by_cases hc : c = '/'
    · subst hc
      exact Or.inr ⟨[], t, rfl, List.not_mem_nil, rfl⟩
    · rw [List.takeWhile_cons_of_pos (by simpa using hc), List.dropWhile_cons_of_pos (by simpa using hc)]
      rcases ih with ⟨hnone, hspan⟩ | ⟨s, r, rfl, hs, hspan⟩
      · rw [Prod.mk.injEq] at hspan
        rw [hspan.1, hspan.2]
        exact Or.inl ⟨by simp [Ne.symm hc, hnone], rfl⟩
      · rw [Prod.mk.injEq] at hspan
        rw [hspan.1, hspan.2]
        exact Or.inr ⟨c :: s, r, rfl, by simp [Ne.symm hc, hs], rfl⟩

theorem cutLast_cases (path : Text) :
    ('/' ∉ path ∧ cutLast path = none) ∨
    ∃ dir last, path = dir ++ '/' :: last ∧ '/' ∉ last ∧ cutLast path = some (dir, last) := by
  unfold cutLast
  rcases span_separator path.reverse with ⟨hnone, hspan⟩ | ⟨s, r, hpath, hs, hspan⟩
  · rw [hspan]
    rw [List.mem_reverse] at hnone
    exact Or.inl ⟨hnone, rfl⟩
  · rw [hspan]
    have hreversed := congrArg List.reverse hpath
    rw [List.reverse_reverse, List.reverse_append, List.reverse_cons, List.append_assoc,
      List.singleton_append] at hreversed
    exact Or.inr ⟨r.reverse, s.reverse, hreversed, by rwa [List.mem_reverse], rfl⟩

/-- What a path comes to is told by its last part, entered from where the rest leads. -/
theorem resolve_baseName (here : Path) (path : Text) : ∃ above : Except Error Path,
    resolve here path = above.bind fun p => enter p (baseName path) := by
  rcases cutLast_cases path with ⟨hpath, hcut⟩ | ⟨dir, last, rfl, hlast, hcut⟩
  · unfold baseName
    rw [hcut]
    have hjoin := resolve_join_part here [] hpath
    exact ⟨resolve here [], hjoin⟩
  · unfold baseName
    rw [hcut]
    exact ⟨_, resolve_part here dir hlast⟩

theorem not_mem_baseName (path : Text) : '/' ∉ baseName path := by
  unfold baseName
  rcases cutLast_cases path with ⟨hpath, hcut⟩ | ⟨dir, last, _, hlast, hcut⟩
  · rw [hcut]
    exact hpath
  · rw [hcut]
    exact hlast

end LastPart

section Wildcards

theorem hasWildcard_of_enter {p q : Path} {part : Text} (h : enter p part = .ok q) :
    Glob.hasWildcard part = false := by
  unfold enter at h
  split at h
  · rename_i hhere
    rcases hhere with rfl | rfl <;> rfl
  · split at h
    · rename_i hup
      rw [hup]
      rfl
    · split at h
      · rename_i hvalid
        unfold isValidName at hvalid
        unfold Glob.hasWildcard
        simp only [Bool.and_eq_true, Bool.not_eq_true', List.any_eq_false, Bool.or_eq_true, not_or,
          List.contains_iff_mem, beq_iff_eq] at hvalid ⊢
        intro c hc
        have hreserved := (hvalid.2 c hc).2
        constructor
        · rintro rfl
          exact hreserved (by decide)
        · rintro rfl
          exact hreserved (by decide)
      · cases h

theorem hasWildcard_of_foldlM {parts : List Text} {p q : Path}
    (h : parts.foldlM enter p = .ok q) : ∀ part ∈ parts, Glob.hasWildcard part = false := by
  induction parts generalizing p with
  | nil =>
    intro part hpart
    cases hpart
  | cons part parts ih =>
    rw [List.foldlM_cons] at h
    cases hfirst : enter p part with
    | error e =>
      rw [hfirst] at h
      cases h
    | ok p' =>
      rw [hfirst] at h
      intro other hother
      rcases List.mem_cons.mp hother with rfl | hother
      · exact hasWildcard_of_enter hfirst
      · exact ih h other hother

/-- A path that leads anywhere has no wildcard in it. -/
theorem hasWildcard_of_resolve {here p : Path} {path : Text} (h : resolve here path = .ok p) :
    Glob.hasWildcard path = false := by
  have hparts := hasWildcard_of_foldlM h
  unfold Glob.hasWildcard at hparts ⊢
  simp only [List.any_eq_false, Bool.or_eq_true, beq_iff_eq, not_or] at hparts ⊢
  intro c hc
  by_cases hseparator : c = '/'
  · rw [hseparator]
    decide
  · obtain ⟨w, hw, hcw⟩ := Text.exists_mem_splitOn hc hseparator
    exact hparts w hw c hcw

theorem split_of_plain {path : Text} (h : Glob.hasWildcard path = false) :
    split path = .single path := by
  rcases cutLast_cases path with ⟨_, hcut⟩ | ⟨dir, last, rfl, _, hcut⟩
  · unfold split
    rw [hcut]
    simp [h]
  · have hlast : Glob.hasWildcard last = false := by
      unfold Glob.hasWildcard at h ⊢
      rw [List.any_append, List.any_cons, Bool.or_eq_false_iff, Bool.or_eq_false_iff] at h
      exact h.2.2
    unfold split
    rw [hcut]
    cases dir <;> simp [hlast]

/-- A path is taken for a pattern just if its last part has a wildcard. The directory is what stands in
front of the separator before that part, or the separator itself at the very beginning. -/
theorem split_cases (path : Text) :
    (Glob.hasWildcard (baseName path) = false ∧ split path = .single path) ∨
    Glob.hasWildcard (baseName path) = true ∧ ∃ dir, split path = .matching dir (baseName path) ∧
      (dir = [] ∧ path = baseName path ∨ dir = ['/'] ∧ path = '/' :: baseName path ∨
        dir ≠ [] ∧ path = dir ++ '/' :: baseName path) := by
  unfold split baseName
  rcases cutLast_cases path with ⟨_, hcut⟩ | ⟨dir, last, hpath, _, hcut⟩
  · rw [hcut]
    dsimp only
    cases hw : Glob.hasWildcard path with
    | false => exact Or.inl ⟨rfl, if_neg Bool.false_ne_true⟩
    | true => exact Or.inr ⟨rfl, [], if_pos rfl, Or.inl ⟨rfl, rfl⟩⟩
  · rw [hcut]
    dsimp only
    cases hw : Glob.hasWildcard last with
    | false => cases dir <;> exact Or.inl ⟨rfl, if_neg (by simp [hw])⟩
    | true =>
      refine Or.inr ⟨rfl, ?_⟩
      cases dir with
      | nil => exact ⟨['/'], if_pos hw, Or.inr (Or.inl ⟨rfl, hpath⟩)⟩
      | cons c dir =>
        exact ⟨c :: dir, if_pos hw, Or.inr (Or.inr ⟨List.cons_ne_nil c dir, hpath⟩)⟩

theorem matching_of_split {path dir pattern : Text} (h : split path = .matching dir pattern) :
    '/' ∉ pattern ∧ Glob.hasWildcard pattern = true ∧
      (dir = [] ∧ path = pattern ∨ dir = ['/'] ∧ path = '/' :: pattern ∨
        dir ≠ [] ∧ path = dir ++ '/' :: pattern) := by
  rcases split_cases path with ⟨_, hsplit⟩ | ⟨hwild, dir', hsplit, hpath⟩
  · rw [hsplit] at h
    cases h
  · rw [hsplit] at h
    cases h
    exact ⟨not_mem_baseName path, hwild, hpath⟩

theorem eq_of_split_single {path single : Text} (h : split path = .single single) :
    single = path := by
  rcases split_cases path with ⟨_, hsplit⟩ | ⟨_, dir, hsplit, _⟩
  · rw [hsplit] at h
    cases h
    rfl
  · rw [hsplit] at h
    cases h

/-- What stands in the place of a pattern means what it means joined to the pattern's directory. -/
theorem resolve_in_place {path dir pattern : Text} (h : split path = .matching dir pattern) :
    ∃ front, path = front ++ pattern ∧ ∀ (here : Path) {part : Text}, '/' ∉ part →
      resolve here (front ++ part) = resolve here (join dir part) := by
  obtain ⟨_, _, ⟨rfl, hpath⟩ | ⟨rfl, hpath⟩ | ⟨hne, hpath⟩⟩ := matching_of_split h
  · exact ⟨[], hpath, fun _ _ _ => rfl⟩
  · exact ⟨['/'], hpath, fun _ _ _ => rfl⟩
  · refine ⟨dir ++ ['/'], by rwa [List.append_assoc], fun here part hpart => ?_⟩
    rw [List.append_assoc, List.singleton_append, resolve_part here dir hpart,
      resolve_separator here hne, resolve_join_part here dir hpart]

end Wildcards

end PathText

end CardShell
