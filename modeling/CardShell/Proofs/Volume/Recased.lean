import CardShell.Proofs.Volume.Copied

/-!
Names that differ in case. Moving or copying to one of them ends as it does with the other, in volumes
that differ in the case of names alone.
-/

set_option autoImplicit false

namespace CardShell

open CardShell.Action

/-- All about a node but the case of the names on its path. -/
def Node.uncased (n : Node) : Node := { n with path := n.path.key }

namespace Volume

variable {v w w' : Volume} {s s' t t' : Text} {p p' : Path}

/-- Two volumes with the same entries but for the case of their names; open files and enumerations are
not looked at. -/
structure UpToCase (v w : Volume) : Prop where
  node : ∀ key, (v.node? key).map Node.uncased = (w.node? key).map Node.uncased
  directory : v.directory.key = w.directory.key
  label : v.label = w.label
  stamp : v.stamp = w.stamp
  nextOrder : v.nextOrder = w.nextOrder

theorem UpToCase.refl (v : Volume) : UpToCase v v := ⟨fun _ => rfl, rfl, rfl, rfl, rfl⟩

/-- A new entry is stored in the same directory, or it is not for the same reason. -/
theorem newPath_recased (hp : p.key = p'.key) :
    (∃ d : Node, v.newPath p = .ok (d.path ++ [p.leaf]) ∧ v.newPath p' = .ok (d.path ++ [p'.leaf])) ∨
    ∃ e, v.newPath p = .error e ∧ v.newPath p' = .error e := by
  have hparent : v.node? p.parent.key = v.node? p'.parent.key := by
    rw [Path.key_parent, Path.key_parent, hp]
  unfold newPath
  rw [hparent]
  cases v.node? p'.parent.key with
  | none => exact Or.inr ⟨.noPath, rfl, rfl⟩
  | some d =>
    dsimp only
    cases d.isDirectory with
    | true => exact Or.inl ⟨d, rfl, rfl⟩
    | false => exact Or.inr ⟨.noPath, rfl, rfl⟩

theorem key_reroot {new new' : Path} (h : new.key = new'.key) (depth : Nat) (q : Path) :
    (Path.reroot new depth q).key = (Path.reroot new' depth q).key := by
  unfold Path.reroot
  rw [Path.key_append, Path.key_append, h]

theorem moved_recased (hv : v.WellFormed) {key new new' : Path} {n : Node}
    (h : Movable v key n p new) (h' : Movable v key n p' new') (hp : p.key = p'.key)
    (hnew : new.key = new'.key) : UpToCase (v.moved key n new) (v.moved key n new') where
  node q := by
    rw [h.node? hv, h'.node? hv, hp]
    split
    · exact congrArg (fun path => some { n with path := path, order := v.nextOrder })
        (key_reroot hnew key.length n.path)
    · split
      · have hlen : p.length = p'.length := by
          rw [← Path.length_key, hp, Path.length_key]
        rw [hlen, Option.map_map, Option.map_map]
        apply Option.map_congr
        intro m _
        exact congrArg (fun path => { m with path := path }) (key_reroot hnew key.length m.path)
      · rfl
  directory := by
    unfold moved
    dsimp only
    split
    · exact key_reroot hnew key.length v.directory
    · rfl
  label := rfl
  stamp := rfl
  nextOrder := rfl

/-- Renaming depends on the case of the new name in nothing but the case of names. -/
theorem rename_recased (hv : v.WellFormed) (hs : v.find s = v.find s') (ht : v.resolve t = .ok p)
    (ht' : v.resolve t' = .ok p') (hp : p.key = p'.key) :
    Agree UpToCase (rename s t v) (rename s' t' v) := by
  rw [rename_resolved ht, rename_resolved ht', hs, hp]
  cases hfind : v.find s' with
  | error e => exact ⟨rfl, .refl v⟩
  | ok found =>
    obtain ⟨key, n⟩ := found
    dsimp only
    by_cases hroot : key = []
    · rw [if_pos hroot, if_pos hroot]
      exact ⟨rfl, .refl v⟩
    · rw [if_neg hroot, if_neg hroot]
      by_cases hthere : p'.key ≠ key ∧ (v.node? p'.key).isSome = true
      · rw [if_pos hthere, if_pos hthere]
        exact ⟨rfl, .refl v⟩
      · rw [if_neg hthere, if_neg hthere]
        by_cases hbelow : key.isBelow p'.key = true
        · rw [if_pos hbelow, if_pos hbelow]
          exact ⟨rfl, .refl v⟩
        · rw [if_neg hbelow, if_neg hbelow]
          by_cases hopen : v.isOpen key = true
          · rw [if_pos hopen, if_pos hopen]
            exact ⟨rfl, .refl v⟩
          · rw [if_neg hopen, if_neg hopen]
            rcases newPath_recased (v := v) hp with ⟨d, hnew, hnew'⟩ | ⟨e, hnew, hnew'⟩
            · rw [hnew, hnew']
              obtain ⟨_, _, hkey, hn⟩ := find_ok hfind
              have hfree : p'.key ≠ key → v.node? p'.key = none := by simpa using hthere
              have hmove : Movable v key n p (d.path ++ [p.leaf]) :=
                ⟨hkey ▸ hn, hroot, hp ▸ hfree, by simpa [hp] using hbelow, by simpa using hopen, hnew⟩
              have hmove' : Movable v key n p' (d.path ++ [p'.leaf]) :=
                ⟨hkey ▸ hn, hroot, hfree, by simpa using hbelow, by simpa using hopen, hnew'⟩
              obtain ⟨_, _, _, _, hstored⟩ := hv.newPath hmove.target_ne hnew
              obtain ⟨_, _, _, _, hstored'⟩ := hv.newPath hmove'.target_ne hnew'
              exact ⟨rfl, moved_recased hv hmove hmove' hp (hstored.trans (hp.trans hstored'.symm))⟩
            · rw [hnew, hnew']
              exact ⟨rfl, .refl v⟩

theorem Grown.upToCase {path path' : Path} {data : Bytes} (h : Grown v [(path, data)] w)
    (h' : Grown v [(path', data)] w') (hpath : path.key = path'.key) : UpToCase w w' where
  node key := by
    by_cases hkey : path.key = key
    · subst hkey
      rw [h.made 0 path data rfl, hpath, h'.made 0 path' data rfl]
      unfold Node.uncased
      simp only [Option.map_some, hpath]
    · rw [h.others, h'.others]
      · intro file hfile
        rw [List.mem_singleton.mp hfile, ← hpath]
        exact hkey
      · intro file hfile
        rw [List.mem_singleton.mp hfile]
        exact hkey
  directory := by rw [h.directory, h'.directory]
  label := h.label.trans h'.label.symm
  stamp := h.stamp.trans h'.stamp.symm
  nextOrder := h.nextOrder.trans h'.nextOrder.symm

theorem Grown.upToCase_nil (h : Grown v [] w) (h' : Grown v [] w') : UpToCase w w' where
  node key := by rw [h.others key (by simp), h'.others key (by simp)]
  directory := by rw [h.directory, h'.directory]
  label := h.label.trans h'.label.symm
  stamp := h.stamp.trans h'.stamp.symm
  nextOrder := h.nextOrder.trans h'.nextOrder.symm

/-- Copying makes the same file but for the case of its name, or none for the same reason. -/
theorem copied_recased (hv : v.WellFormed) (hs : v.find s = v.find s') (ht : v.resolve t = .ok p)
    (ht' : v.resolve t' = .ok p') (hp : p.key = p'.key) :
    (∃ path path' data, v.copied s t = .ok (path, data) ∧ v.copied s' t' = .ok (path', data) ∧
      path.key = path'.key) ∨
    ∃ e, v.copied s t = .error e ∧ v.copied s' t' = .error e := by
  have hread : v.readable s = v.readable s' := by
    unfold readable
    rw [hs]
  have hnew : (∃ path path', v.newFile t = .ok path ∧ v.newFile t' = .ok path' ∧
      path.key = path'.key) ∨ ∃ e, v.newFile t = .error e ∧ v.newFile t' = .error e := by
    unfold newFile
    rw [ht, ht']
    simp only [bind, Except.bind]
    rw [hp]
    cases hn : v.node? p'.key with
    | some n => exact Or.inr ⟨_, rfl, rfl⟩
    | none =>
      rcases newPath_recased (v := v) hp with ⟨d, hnew, hnew'⟩ | ⟨e, hnew, hnew'⟩
      · have hne : p' ≠ [] := by
          rintro rfl
          cases hn
        have hne' : p ≠ [] := by
          rintro rfl
          exact hne (Path.key_eq_nil.mp hp.symm)
        obtain ⟨_, _, _, _, hstored⟩ := hv.newPath hne' hnew
        obtain ⟨_, _, _, _, hstored'⟩ := hv.newPath hne hnew'
        exact Or.inl ⟨_, _, hnew, hnew', hstored.trans (hp.trans hstored'.symm)⟩
      · exact Or.inr ⟨e, hnew, hnew'⟩
  unfold copied
  rw [hread]
  cases v.readable s' with
  | error e => exact Or.inr ⟨e, rfl, rfl⟩
  | ok data =>
    rcases hnew with ⟨path, path', hnew, hnew', hkey⟩ | ⟨e, hnew, hnew'⟩
    · rw [hnew, hnew']
      exact Or.inl ⟨path, path', data, rfl, rfl, hkey⟩
    · rw [hnew, hnew']
      exact Or.inr ⟨e, rfl, rfl⟩

end Volume

end CardShell
