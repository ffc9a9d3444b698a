import CardShell.Proofs.Shell.Walk
import CardShell.Proofs.Volume.Operation
import CardShell.Proofs.Volume.Relocated

/-!
A path typed in a directory against the same path typed behind the directory's own. The first goes
on from the stored names of the directory, the second from the names as they were typed, which may
differ in case. What the two resolve to is followed part by part as a pair of paths.
-/

set_option autoImplicit false

namespace CardShell

open CardShell.Action

namespace Path

variable {top p q : Path}

/-- The two paths go one way from `top` or a directory above it, and down to there they differ in
case at most. -/
def Parallel (top p q : Path) : Prop :=
  ∃ s t tail, s.key = t.key ∧ t.key <+: top ∧ p = s ++ tail ∧ q = t ++ tail

theorem Parallel.start (h : p.key = q.key) : Parallel q.key p q :=
  ⟨p, q, [], h, List.prefix_refl _, (List.append_nil p).symm, (List.append_nil q).symm⟩

theorem Parallel.key_eq (h : Parallel top p q) : p.key = q.key := by
  obtain ⟨s, t, tail, hkey, _, rfl, rfl⟩ := h
  simp only [key_append, hkey]

/-- Only on the way down to `top` can the last names differ. -/
theorem Parallel.leaf_eq (h : Parallel top p q) (hbelow : ¬ q.key <+: top) : p.leaf = q.leaf := by
  obtain ⟨s, t, tail, _, hprefix, rfl, rfl⟩ := h
  cases tail with
  | nil =>
    apply absurd hprefix
    simpa using hbelow
  | cons c tail => simp [leaf, List.getLast?_cons]

theorem Parallel.dropLast (h : Parallel top p q) : Parallel top p.dropLast q.dropLast := by
  obtain ⟨s, t, tail, hkey, hprefix, rfl, rfl⟩ := h
  cases tail with
  | nil =>
    refine ⟨s.dropLast, t.dropLast, [], ?_, ?_, by simp, by simp⟩
    · exact (key_parent s).trans ((congrArg List.dropLast hkey).trans (key_parent t).symm)
    · exact (key_parent t).symm ▸ (List.dropLast_prefix _).trans hprefix
  | cons c tail =>
    refine ⟨s, t, (c :: tail).dropLast, hkey, hprefix, ?_, ?_⟩
    · exact List.dropLast_append_of_ne_nil (List.cons_ne_nil c tail)
    · exact List.dropLast_append_of_ne_nil (List.cons_ne_nil c tail)

theorem Parallel.concat (h : Parallel top p q) (name : Text) :
    Parallel top (p ++ [name]) (q ++ [name]) := by
  obtain ⟨s, t, tail, hkey, hprefix, rfl, rfl⟩ := h
  exact ⟨s, t, tail ++ [name], hkey, hprefix, List.append_assoc _ _ _, List.append_assoc _ _ _⟩

/-- Two ways to resolve a path that fail alike or lead to parallel paths. -/
def Abreast (top : Path) (x y : Except Error Path) : Prop :=
  (∃ e, x = .error e ∧ y = .error e) ∨ ∃ p q, x = .ok p ∧ y = .ok q ∧ Parallel top p q

theorem Parallel.enter (h : Parallel top p q) (part : Text) :
    Abreast top (Path.enter p part) (Path.enter q part) := by
  unfold Path.enter
  split
  · exact Or.inr ⟨p, q, rfl, rfl, h⟩
  · split
    · exact Or.inr ⟨_, _, rfl, rfl, h.dropLast⟩
    · split
      · exact Or.inr ⟨_, _, rfl, rfl, h.concat part⟩
      · exact Or.inl ⟨_, rfl, rfl⟩

theorem Parallel.foldlM_enter (h : Parallel top p q) (parts : List Text) :
    Abreast top (parts.foldlM Path.enter p) (parts.foldlM Path.enter q) := by
  induction parts generalizing p q with
  | nil => exact Or.inr ⟨p, q, rfl, rfl, h⟩
  | cons part parts ih =>
    simp only [List.foldlM_cons]
    rcases h.enter part with ⟨e, hp, hq⟩ | ⟨p', q', hp, hq, hparallel⟩
    · rw [hp, hq]
      exact Or.inl ⟨e, rfl, rfl⟩
    · rw [hp, hq]
      exact ih hparallel

/-- What is typed behind a directory and a separator goes on from where the directory leads. -/
theorem resolve_append {here top : Path} {dir typed : Text} (hdir : dir ≠ [])
    (htop : resolve here dir = .ok top) (htyped : typed.head? ≠ some '/') :
    resolve here (dir ++ '/' :: typed) = resolve top typed := by
  have hhead : (dir ++ '/' :: typed).head? = dir.head? := by
    cases dir with
    | nil => exact absurd rfl hdir
    | cons c dir => rfl
  unfold resolve at htop ⊢
  rw [hhead, Text.splitOn_append, List.foldlM_append, htop, if_neg htyped]
  rfl

/-- Typed in the directory as it is stored, or behind the directory as it was typed. -/
theorem resolve_abreast {here top stored : Path} {dir typed : Text} (hdir : dir ≠ [])
    (htop : resolve here dir = .ok top) (hkey : stored.key = top.key)
    (htyped : typed.head? ≠ some '/') :
    Abreast top.key (resolve stored typed) (resolve here (dir ++ '/' :: typed)) := by
  rw [resolve_append hdir htop htyped]
  unfold resolve
  rw [if_neg htyped, if_neg htyped]
  exact (Parallel.start hkey).foldlM_enter _

end Path

namespace Volume

variable {v : Volume} {stored top p q : Path} {whole typed : Text}

/-- With another current directory. -/
def within (v : Volume) (dir : Path) : Volume := { v with directory := dir }

theorem missing_within (v : Volume) (stored : Path) (h : p.key = q.key) :
    (v.within stored).missing p = v.missing q := missing_congr h

theorem newPath_within (v : Volume) (stored : Path) (hkey : p.key = q.key) (hleaf : p.leaf = q.leaf) :
    (v.within stored).newPath p = v.newPath q := newPath_congr hkey hleaf

theorem updateNode_within (v : Volume) (stored key : Path) (f : Node → Node) :
    (v.within stored).updateNode key f = (v.updateNode key f).within stored := by
  unfold updateNode
  split <;> rfl

/-- The path typed in the directory `stored` and the other one, typed where the volume is, name the
same entry. -/
theorem find_within (h : Path.Abreast top (Path.resolve stored typed) (v.resolve whole)) :
    (v.within stored).find typed = v.find whole := by
  have hresolve : (v.within stored).resolve typed = Path.resolve stored typed := rfl
  unfold find
  rcases h with ⟨e, hp, hq⟩ | ⟨p, q, hp, hq, hparallel⟩
  · rw [hresolve, hp, hq]
    rfl
  · rw [hresolve, hp, hq]
    dsimp only [bind, Except.bind]
    rw [hparallel.key_eq, missing_within v stored hparallel.key_eq]
    rfl

/-- What is made at the end of either path is made under the same name: the names differ only on the
way to the directory, and there the entries are there. -/
theorem prepare_within (hkey : p.key = q.key) (hleaf : v.node? q.key = none → p.leaf = q.leaf)
    (mode : OpenMode) :
    (v.within stored).prepare p mode = (v.prepare q mode).map fun w => w.within stored := by
  have hnode : (v.within stored).node? p.key = v.node? q.key := by
    rw [hkey]
    rfl
  unfold prepare
  rw [hnode]
  cases hn : v.node? q.key with
  | none =>
    dsimp only
    rw [newPath_within v stored hkey (hleaf hn), missing_within v stored hkey]
    split
    · cases v.newPath q <;> rfl
    · rfl
  | some n =>
    dsimp only
    rw [hkey, updateNode_within]
    split
    · rfl
    · split
      · rfl
      · split
        · rfl
        · split <;> rfl

/-- A file is opened, made or emptied through the one path as through the other, or is refused for
the same reason. -/
theorem openFile_within (hv : v.WellFormed) {n : Node} (hn : v.node? top = some n)
    (h : Path.Abreast top (Path.resolve stored typed) (v.resolve whole)) (mode : OpenMode) :
    Agree (fun w' v' => w' = v'.within stored) (openFile typed mode (v.within stored))
      (openFile whole mode v) := by
  rcases h with ⟨e, hp, hq⟩ | ⟨p, q, hp, hq, hparallel⟩
  · rw [openFile_unresolved mode hq, openFile_unresolved (v := v.within stored) mode hp]
    exact ⟨rfl, rfl⟩
  · have hleaf : v.node? q.key = none → p.leaf = q.leaf := by
      intro hnone
      apply hparallel.leaf_eq
      intro hprefix
      rw [hv.node?_none_of_prefix hnone hprefix] at hn
      cases hn
    rw [openFile_resolved hq, openFile_resolved (v := v.within stored) hp,
      prepare_within hparallel.key_eq hleaf, hparallel.key_eq]
    cases v.prepare q mode with
    | error e => exact ⟨rfl, rfl⟩
    | ok w =>
      have hposition : (w.within stored).openingPosition q.key mode =
          w.openingPosition q.key mode := rfl
      dsimp only [Except.map]
      rw [hposition]
      cases w.openingPosition q.key mode <;> exact ⟨rfl, rfl⟩

theorem openListing_within
    (h : Path.Abreast top (Path.resolve stored typed) (v.resolve whole)) :
    Agree (fun w' v' => w' = v'.within stored) (openListing typed (v.within stored))
      (openListing whole v) := by
  have hentries : (v.within stored).entriesOf typed = v.entriesOf whole := by
    unfold entriesOf
    rw [find_within h]
    rfl
  rw [openListing_eq, openListing_eq, hentries]
  cases v.entriesOf whole <;> exact ⟨rfl, rfl⟩

/-- Going on to another directory ends in the same volume, or fails where the one step does. -/
theorem changeDirectory_within
    (h : Path.Abreast top (Path.resolve stored typed) (v.resolve whole)) :
    (∃ u, changeDirectory typed (v.within stored) = .ok () u ∧ changeDirectory whole v = .ok () u) ∨
      changeDirectory typed (v.within stored) = .error .noPath (v.within stored) ∧
        changeDirectory whole v = .error .noPath v := by
  have hfind := find_within h
  unfold changeDirectory
  simp only [bind_apply, get_apply, hfind]
  rcases v.find whole with e | ⟨key, n⟩
  · exact Or.inr ⟨rfl, rfl⟩
  · cases hdir : n.isDirectory with
    | true => exact Or.inl ⟨v.within n.path, by simp [hdir]; rfl, by simp [hdir]; rfl⟩
    | false => exact Or.inr (by simp [hdir])

/-- Once a directory has been gone to, a path typed there means what it meant before, typed behind the
directory and a separator: the same entries are found, opened and listed, or missed for the same
reason, and a second change of directory leads where the one step would have. -/
theorem lookups_from_directory (label : Text) (ops : List Operation) {dir typed : Text}
    (hdir : dir ≠ []) (htyped : typed.head? ≠ some '/') {w : Volume}
    (hw : changeDirectory dir ((labelled label).runAll ops) = .ok () w) :
    let v := (labelled label).runAll ops
    let whole := dir ++ '/' :: typed
    w.stat typed = v.stat whole ∧ w.contents typed = v.contents whole ∧
      w.list typed = v.list whole ∧
      (∀ mode, Agree (fun w' v' => w' = { v' with directory := w.directory })
        (openFile typed mode w) (openFile whole mode v)) ∧
      Agree (fun w' v' => w' = { v' with directory := w.directory })
        (openListing typed w) (openListing whole v) ∧
      ((∃ u, changeDirectory typed w = .ok () u ∧ changeDirectory whole v = .ok () u) ∨
        changeDirectory typed w = .error .noPath w ∧ changeDirectory whole v = .error .noPath v) := by
  have hv := (wellFormed_labelled label).runAll ops
  generalize (labelled label).runAll ops = v at hv hw
  intro v' whole
  rcases changeDirectory_cases dir v with hx | ⟨key, n, hfind, _, hx⟩
  · rw [hx] at hw
    cases hw
  · rw [hx] at hw
    cases hw
    obtain ⟨top, htop, rfl, hn⟩ := find_ok hfind
    have habreast := Path.resolve_abreast hdir htop (hv.key_path hn) htyped
    have hfound : find { v with directory := n.path } typed = v.find whole := find_within habreast
    refine ⟨?_, ?_, ?_, openFile_within hv hn habreast, openListing_within habreast,
      changeDirectory_within habreast⟩
    · unfold stat
      rw [hfound]
    · unfold contents
      rw [hfound]
    · unfold list
      rw [hfound]
      rfl

/-- The directory is typed in another case than it is stored in, and the path goes up and down again. -/
theorem lookups_from_sub :
    let v := (labelled "CARD").runAll [.makeDirectories "/Docs/Sub", .writeFile "/Docs/Sub/Note.txt" [7]]
    let w := { v with directory := ["Docs"] }
    changeDirectory "DOCS" v = .ok () w ∧
      w.stat "./sub//../SUB/note.TXT" = v.stat "DOCS/./sub//../SUB/note.TXT" ∧
      (w.stat "./sub//../SUB/note.TXT").map Entry.name = .ok "Note.txt" ∧
      w.stat "sub/none/x" = v.stat "DOCS/sub/none/x" ∧
      w.stat "sub/none/x" = .error .noPath := by
  intro v w
  have hfind : v.find "DOCS" = .ok (["docs".toList], ⟨["Docs"], .directory, {}, {}, 1⟩) := by
    decide +kernel
  have hw : changeDirectory "DOCS" v = .ok () w := by
    unfold changeDirectory
    rw [bind_apply, get_apply]
    dsimp only
    rw [hfind]
    rfl
  have hlook := fun (typed : Text) (htyped : typed.head? ≠ some '/') =>
    (lookups_from_directory "CARD" [.makeDirectories "/Docs/Sub", .writeFile "/Docs/Sub/Note.txt" [7]]
      (by decide) htyped hw).1
  exact ⟨hw, hlook _ (by decide), by decide +kernel, hlook _ (by decide), by decide +kernel⟩

end Volume

end CardShell
