import CardShell.Proofs.Volume.Handles

/-!
What fails leaves the volume as it was. Most operations make all their checks before their one
change. Making several directories and writing a file change the volume more than once; there the
tree tells that nothing can go wrong any more after the first change.
-/

set_option autoImplicit false

namespace CardShell

namespace Action

variable {ε σ α : Type}

/-- From `s`, `x` succeeds or leaves `s` as it is. -/
def Atomic (x : Action ε σ α) (s : σ) : Prop := (∃ a t, x s = .ok a t) ∨ ∃ e, x s = .error e s

theorem Atomic.discard {x : Action ε σ α} {s : σ} (h : Atomic x s) : Atomic (discard x) s := by
  have hd : (Functor.discard x) s = ((fun _ => ()) <$> x) s := rfl
  unfold Atomic
  rw [hd, map_apply]
  rcases h with ⟨a, t, hx⟩ | ⟨e, hx⟩
  · rw [hx]
    exact Or.inl ⟨(), t, rfl⟩
  · rw [hx]
    exact Or.inr ⟨e, rfl⟩

end Action

namespace Volume

open CardShell.Action

/-- What an operation does, without what it gives back. -/
def Operation.perform : Operation → VolumeAction Unit
  | relabel label => modify fun v => { v with label := label }
  | restamp stamp => modify fun v => { v with stamp := stamp }
  | mount => modify Volume.mount
  | changeDirectory typed => Volume.changeDirectory typed
  | makeDirectory typed => Volume.makeDirectory typed
  | makeDirectories typed => Volume.makeDirectories typed
  | unlink typed => Volume.unlink typed
  | rename source target => Volume.rename source target
  | setAttributes typed bits => Volume.setAttributes typed bits
  | writeFile typed data => Volume.writeFile typed data
  | openFile typed mode => discard (Volume.openFile typed mode)
  | closeFile h => Volume.closeFile h
  | read h count => discard (Volume.read h count)
  | write h bytes => discard (Volume.write h bytes)
  | seek h offset => Volume.seek h offset
  | openListing typed => discard (Volume.openListing typed)
  | readListing h => discard (Volume.readListing h)
  | closeListing h => Volume.closeListing h

theorem after_perform (op : Operation) (v : Volume) : op.perform.after v = op.run v := by
  cases op with
  | openFile typed mode => exact after_discard _ v
  | read h count => exact after_discard _ v
  | write h bytes => exact after_discard _ v
  | openListing typed => exact after_discard _ v
  | readListing h => exact after_discard _ v
  | _ => rfl

variable {v w : Volume} {key : Path}

section Opening

/-- What `prepare` leaves at the path is a file, so its end can be found. -/
theorem dataAt_of_prepare (hv : v.WellFormed) {p : Path} {mode : OpenMode}
    (hname : ∀ c ∈ p, Path.IsName c) (hw : v.prepare p mode = .ok w) :
    ∃ data, w.dataAt p.key = .ok data := by
  obtain ⟨_, n, hn, hfile⟩ := hv.prepare hname hw
  unfold dataAt
  rw [hn, Option.bind_some]
  unfold Node.isDirectory at hfile
  unfold Node.data?
  cases hc : n.content with
  | file data => exact ⟨data, rfl⟩
  | directory =>
    rw [hc] at hfile
    cases hfile

/-- An open fails as it stands, or gives a handle on a file that is there. -/
theorem openFile_atomic_cases (hv : v.WellFormed) (typed : Text) (mode : OpenMode) :
    (∃ e, openFile typed mode v = .error e v) ∨
    ∃ p w data position, v.resolve typed = .ok p ∧ v.prepare p mode = .ok w ∧
      w.dataAt p.key = .ok data ∧
      openFile typed mode v = .ok w.nextHandle (w.withHandle ⟨p.key, position, mode⟩) := by
  rcases openFile_cases typed mode v with hx | ⟨p, w, hp, hw, hx⟩
  · exact Or.inl hx
  · obtain ⟨data, hd⟩ := dataAt_of_prepare hv (hv.isName_of_resolve hp) hw
    rcases hx with ⟨e, _, he, _⟩ | ⟨position, _, hx⟩
    · rw [hd] at he
      cases he
    · exact Or.inr ⟨p, w, data, position, hp, hw, hd, hx⟩

theorem atomic_openFile (hv : v.WellFormed) (typed : Text) (mode : OpenMode) :
    Atomic (openFile typed mode) v := by
  rcases openFile_atomic_cases hv typed mode with hx | ⟨_, _, _, _, _, _, _, hx⟩
  · exact Or.inr hx
  · exact Or.inl ⟨_, _, hx⟩

end Opening

section Making

/-- A directory with nothing below it. -/
structure EmptyAt (v : Volume) (key : Path) : Prop where
  directory : v.isDirectoryAt key = true
  below : ∀ {r : Path}, r ≠ [] → v.node? (key ++ r) = none

theorem isDirectoryAt_iff :
    v.isDirectoryAt key = true ↔ ∃ d, v.node? key = some d ∧ d.isDirectory = true := by
  unfold isDirectoryAt
  cases v.node? key with
  | none => simp
  | some d => simp

/-- In a directory that is there, an entry that is not there can be made. -/
theorem makeDirectoryAt_new {p : Path} {d : Node} (hn : v.node? p.key = none)
    (hd : v.node? p.parent.key = some d) (hdir : d.isDirectory = true) :
    v.newPath p = .ok (d.path ++ [p.leaf]) ∧
      makeDirectoryAt p v = .ok () (v.insert (d.path ++ [p.leaf]) .directory) := by
  have hs : v.newPath p = .ok (d.path ++ [p.leaf]) := by
    unfold newPath
    rw [hd]
    simp only
    rw [if_pos hdir]
  refine ⟨hs, ?_⟩
  unfold makeDirectoryAt
  rw [bind_apply, get_apply]
  simp only [hn, hs]
  rfl

theorem ensureDirectory_new (hv : v.WellFormed) {p : Path} (hname : ∀ c ∈ p, Path.IsName c)
    (hn : v.node? p.key = none) (hd : v.isDirectoryAt p.parent.key = true) :
    ∃ w, ensureDirectory p v = .ok () w ∧ w.WellFormed ∧ w.EmptyAt p.key := by
  obtain ⟨d, hd, hdir⟩ := isDirectoryAt_iff.mp hd
  obtain ⟨hs, hmake⟩ := makeDirectoryAt_new hn hd hdir
  have hx : ensureDirectory p v = .ok () (v.insert (d.path ++ [p.leaf]) .directory) := by
    unfold ensureDirectory
    rw [bind_apply, get_apply]
    simp only [hn]
    exact hmake
  have hp : p ≠ [] := by
    rintro rfl
    cases hn
  obtain ⟨_, _, _, _, hkey⟩ := hv.newPath hp hs
  have hd' : v.node? d.path.key = some d := by rwa [hv.key_path hd]
  have hn' : v.node? (Path.key (d.path ++ [p.leaf])) = none := by rwa [hkey]
  have hnode := node?_insert hv .directory hd' hn'
  rw [hkey] at hnode
  refine ⟨_, hx, hv.insert .directory hname hn hs, ?_, ?_⟩
  · unfold isDirectoryAt
    rw [hnode, if_pos rfl]
    rfl
  · intro r hr
    rw [hnode, if_neg (by simpa using hr), hv.node?_none_of_prefix hn ⟨r, rfl⟩]

theorem ensureDirectory_of_some {p : Path} {n : Node} (hn : v.node? p.key = some n) :
    ensureDirectory p v = if n.isDirectory = true then .ok () v else .error .noPath v := by
  unfold ensureDirectory
  rw [bind_apply, get_apply]
  simp only [hn]
  split
  · rfl
  · rfl

/-- How the attempt to have directories all the way down to `p` can end. -/
inductive Reached (v : Volume) (p : Path) (x : VolumeAction Unit) : Prop
  | failed (e : Error) (h : x v = .error e v)
  | already (h : x v = .ok () v) (directory : v.isDirectoryAt p.key = true)
  | made (w : Volume) (h : x v = .ok () w) (missing : v.node? p.key = none) (wellFormed : w.WellFormed)
      (empty : w.EmptyAt p.key)

theorem ancestry_concat (p : Path) (c : Text) : ancestry (p ++ [c]) = ancestry p ++ [p ++ [c]] := by
  unfold ancestry
  rw [List.length_append, List.length_singleton, List.range_succ, List.map_append, List.map_singleton]
  congr 1
  · refine List.map_congr_left fun i hi => ?_
    rw [List.mem_range] at hi
    rw [List.take_append_of_le_length hi]
  · rw [List.take_of_length_le (by simp)]

theorem forM_ancestry_concat (p : Path) (c : Text) :
    (ancestry (p ++ [c])).forM ensureDirectory =
      (ancestry p).forM ensureDirectory >>= fun _ => ensureDirectory (p ++ [c]) := by
  rw [ancestry_concat, List.forM_eq_forM, List.forM_append]
  simp

/-- One more name: nothing is made before all of what is there has been seen to be directories, and
once something is made, nothing is in the way of the rest. -/
theorem Reached.concat (hv : v.WellFormed) {p : Path} {c : Text}
    (hname : ∀ d ∈ p ++ [c], Path.IsName d) {x : VolumeAction Unit}
    (h : Reached v p x) : Reached v (p ++ [c]) (x >>= fun _ => ensureDirectory (p ++ [c])) := by
  have hparent : Path.parent (p ++ [c]) = p := List.dropLast_concat
  have hkey : Path.key (p ++ [c]) = p.key ++ [c.lower] := key_concat p c
  cases h with
  | failed e h =>
    refine .failed e ?_
    rw [bind_apply, h]
  | already h hd =>
    have hnext : (x >>= fun _ => ensureDirectory (p ++ [c])) v = ensureDirectory (p ++ [c]) v := by
      rw [bind_apply, h]
    cases hn : v.node? (Path.key (p ++ [c])) with
    | none =>
      obtain ⟨w, hx, hw, hempty⟩ := ensureDirectory_new hv hname hn (by rwa [hparent])
      exact .made w (hnext.trans hx) hn hw hempty
    | some n =>
      by_cases hdir : n.isDirectory = true
      · refine .already ?_ (isDirectoryAt_iff.mpr ⟨n, hn, hdir⟩)
        rw [hnext, ensureDirectory_of_some hn, if_pos hdir]
      · refine .failed .noPath ?_
        rw [hnext, ensureDirectory_of_some hn, if_neg hdir]
  | made w h hmissing hw hempty =>
    have hfree : w.node? (Path.key (p ++ [c])) = none := by
      rw [hkey]
      exact hempty.below (by simp)
    obtain ⟨u, hx, hu, hdone⟩ :=
      ensureDirectory_new hw hname hfree (by rw [hparent]; exact hempty.directory)
    refine .made u ?_ (hv.node?_none_of_prefix hmissing ?_) hu hdone
    · rw [bind_apply, h]
      exact hx
    · rw [hkey]
      exact List.prefix_append _ _

theorem reached_ancestry (hv : v.WellFormed) {p : Path} (hname : ∀ c ∈ p, Path.IsName c) :
    Reached v p ((ancestry p).forM ensureDirectory) := by
  induction p using List.reverseRecOn with
  | nil => exact .already rfl (isDirectoryAt_iff.mpr ⟨v.root, rfl, hv.root_isDirectory⟩)
  | append_singleton p c ih =>
    rw [forM_ancestry_concat]
    exact (ih fun d hd => hname d (List.mem_append_left _ hd)).concat hv hname

/-- Making directories fails before its first change or not at all. -/
theorem makeDirectories_reached (hv : v.WellFormed) {typed : Text} {p : Path}
    (hp : v.resolve typed = .ok p) : Reached v p (makeDirectories typed) := by
  have hx : makeDirectories typed v = (ancestry p).forM ensureDirectory v := by
    unfold makeDirectories
    rw [bind_apply, query, hp]
  rcases reached_ancestry hv (hv.isName_of_resolve hp) with ⟨e, h⟩ | ⟨h, hd⟩ | ⟨w, h, hn, hw, hd⟩
  · exact .failed e (hx.trans h)
  · exact .already (hx.trans h) hd
  · exact .made w (hx.trans h) hn hw hd

theorem atomic_makeDirectories (hv : v.WellFormed) (typed : Text) :
    Atomic (makeDirectories typed) v := by
  cases hp : v.resolve typed with
  | error e =>
    refine Or.inr ⟨e, ?_⟩
    unfold makeDirectories
    rw [bind_apply, query, hp]
  | ok p =>
    rcases makeDirectories_reached hv hp with ⟨e, hx⟩ | ⟨hx, _⟩ | ⟨w, hx, _⟩
    · exact Or.inr ⟨e, hx⟩
    · exact Or.inl ⟨_, _, hx⟩
    · exact Or.inl ⟨_, _, hx⟩

end Making

section Writing

theorem has_updateFile (v : Volume) (h k : Nat) (f : OpenFile → OpenFile) :
    (v.updateFile h f).files.has k = v.files.has k := by
  unfold updateFile
  cases hg : v.files.get? h with
  | none => rfl
  | some g =>
    simp only [Table.has_set]
    by_cases hk : k = h
    · subst hk
      simp [Table.has, hg]
    · simp [hk]

theorem files_updateNode (v : Volume) (key : Path) (f : Node → Node) :
    (v.updateNode key f).files = v.files := by
  unfold updateNode
  split
  · rfl
  · rfl

/-- Writing to a file that is open for it succeeds, and so does closing the file after that. -/
theorem closing_write_ok {h : Nat} {f : OpenFile} {old : Bytes} (data : List UInt8)
    (hf : v.files.get? h = some f) (hm : f.mode.contains .write = true)
    (hd : v.dataAt f.key = .ok old) :
    ∃ w, Action.closing (closeFile h) (do
      if (← write h data) < data.length then throw .denied) v = .ok () w := by
  have hx := write_ok data (openFile?_of_get? hf) hm hd
  unfold Action.closing
  rw [bind_apply, hx]
  simp only
  rw [if_neg (Nat.lt_irrefl _), pure_apply]
  simp only
  rw [closeFile_ok]
  · exact ⟨_, rfl⟩
  · rw [has_updateFile, files_updateNode, Table.has, hf]
    rfl

/-- A file that can be opened for writing can be written and closed. -/
theorem openFile_write_cases (hv : v.WellFormed) (typed : Text) {mode : OpenMode}
    (data : List UInt8) (hm : mode.contains .write = true) :
    (∃ e, openFile typed mode v = .error e v) ∨
    ∃ w, (openFile typed mode >>= fun h => Action.closing (closeFile h) (do
      if (← write h data) < data.length then throw .denied)) v = .ok () w := by
  rcases openFile_atomic_cases hv typed mode with hx | ⟨p, w, old, position, _, _, hd, hx⟩
  · exact Or.inl hx
  · refine Or.inr ?_
    rw [bind_apply, hx]
    exact closing_write_ok data (Table.get?_set_self _ _ _) hm hd

/-- In an empty directory a file can be created. -/
theorem prepare_of_empty {p : Path} {mode : OpenMode} (hempty : v.EmptyAt p.parent.key)
    (hp : p ≠ []) (hm : mode.contains .createAlways = true) : ∃ w, v.prepare p mode = .ok w := by
  obtain ⟨d, hd, hdir⟩ := isDirectoryAt_iff.mp hempty.directory
  have hn : v.node? p.key = none := by
    have hkey : p.key = p.parent.key ++ [p.leaf.lower] := by
      rw [← key_concat, Path.parent_append_leaf hp]
    rw [hkey]
    exact hempty.below (List.cons_ne_nil _ _)
  refine ⟨v.insert (d.path ++ [p.leaf]) (.file (.ofList [])), ?_⟩
  unfold prepare newPath
  rw [hn, hd]
  simp only [hm, hdir, Bool.or_true, Bool.true_or, if_true]
  rfl

theorem atomic_writeFile (hv : v.WellFormed) (typed : Text) (data : List UInt8) :
    Atomic (writeFile typed data) v := by
  unfold writeFile
  cases hp : v.resolve typed with
  | error e =>
    refine Or.inr ⟨e, ?_⟩
    rw [bind_apply, query, hp]
  | ok p =>
    have hname := hv.isName_of_resolve hp
    have hparent : v.resolve p.parent.text = .ok p.parent :=
      Path.resolve_text (fun c hc => hname c (List.dropLast_subset p hc)) v.directory
    have hwrite : (OpenMode.write ∪ .createAlways).contains .write = true := by decide
    have hcreate : (OpenMode.write ∪ .createAlways).contains .createAlways = true := by decide
    unfold Atomic
    rw [bind_apply, query, hp]
    simp only [bind_apply]
    rcases makeDirectories_reached hv hparent with ⟨e, hx⟩ | ⟨hx, _⟩ | ⟨w, hx, hmissing, hw, hempty⟩
    · rw [hx]
      exact Or.inr ⟨e, rfl⟩
    · rw [hx]
      rcases openFile_write_cases hv p.text data hwrite with ⟨e, ho⟩ | ⟨u, ho⟩
      · refine Or.inr ⟨e, ?_⟩
        simp only [ho]
      · exact Or.inl ⟨(), u, ho⟩
    · -- The directory is new, so nothing can keep the file from being made in it.
      rw [hx]
      have hne : p ≠ [] := by
        rintro rfl
        cases hmissing
      obtain ⟨u, hu⟩ := prepare_of_empty hempty hne hcreate
      rcases openFile_write_cases hw p.text data hwrite with ⟨e, ho⟩ | ⟨t, ho⟩
      · rcases openFile_prepared (Path.resolve_text hname w.directory) hu with
          ⟨_, happend, _⟩ | ⟨_, _, ho'⟩
        · exact absurd happend (by decide)
        · rw [ho] at ho'
          cases ho'
      · exact Or.inl ⟨(), t, ho⟩

end Writing

section Operations

/-- From a well-formed volume, every operation succeeds or leaves the volume as it is. -/
theorem atomic_perform (hv : v.WellFormed) (op : Operation) : Atomic op.perform v := by
  cases op with
  | relabel label => exact Or.inl ⟨_, _, rfl⟩
  | restamp stamp => exact Or.inl ⟨_, _, rfl⟩
  | mount => exact Or.inl ⟨_, _, rfl⟩
  | changeDirectory typed =>
    rcases changeDirectory_cases typed v with hx | ⟨_, _, _, _, hx⟩
    · exact Or.inr ⟨_, hx⟩
    · exact Or.inl ⟨_, _, hx⟩
  | makeDirectory typed =>
    rcases makeDirectory_cases typed v with hx | ⟨_, _, _, _, _, hx⟩
    · exact Or.inr hx
    · exact Or.inl ⟨_, _, hx⟩
  | makeDirectories typed => exact atomic_makeDirectories hv typed
  | unlink typed =>
    rcases unlink_cases typed v with hx | ⟨_, _, _, _, _, _, _, hx⟩
    · exact Or.inr hx
    · exact Or.inl ⟨_, _, hx⟩
  | rename source target =>
    rcases rename_cases source target v with hx | ⟨_, _, _, _, _, _, _, _, _, _, _, hx⟩
    · exact Or.inr hx
    · exact Or.inl ⟨_, _, hx⟩
  | setAttributes typed bits =>
    rcases setAttributes_cases typed bits v with hx | ⟨_, _, _, hx⟩
    · exact Or.inr hx
    · exact Or.inl ⟨_, _, hx⟩
  | writeFile typed data => exact atomic_writeFile hv typed data
  | openFile typed mode => exact (atomic_openFile hv typed mode).discard
  | closeFile h =>
    rcases closeFile_cases h v with hx | ⟨_, hx⟩
    · exact Or.inr ⟨_, hx⟩
    · exact Or.inl ⟨_, _, hx⟩
  | read h count =>
    refine Atomic.discard ?_
    rcases read_cases h count v with hx | ⟨_, _, _, _, _, hx⟩
    · exact Or.inr hx
    · exact Or.inl ⟨_, _, hx⟩
  | write h bytes =>
    refine Atomic.discard ?_
    rcases write_cases h bytes v with hx | ⟨_, _, _, _, _, hx⟩
    · exact Or.inr hx
    · exact Or.inl ⟨_, _, hx⟩
  | seek h offset =>
    rcases seek_cases h offset v with hx | ⟨_, _, _, _, ⟨_, _, hx⟩ | ⟨_, hx⟩⟩
    · exact Or.inr hx
    · exact Or.inl ⟨_, _, hx⟩
    · exact Or.inl ⟨_, _, hx⟩
  | openListing typed =>
    refine Atomic.discard ?_
    rcases openListing_cases typed v with hx | ⟨_, _, _, _, hx⟩
    · exact Or.inr hx
    · exact Or.inl ⟨_, _, hx⟩
  | readListing h =>
    refine Atomic.discard ?_
    rcases readListing_cases h v with hx | ⟨_, hx⟩ | ⟨_, _, _, hx⟩
    · exact Or.inr ⟨_, hx⟩
    · exact Or.inl ⟨_, _, hx⟩
    · exact Or.inl ⟨_, _, hx⟩
  | closeListing h =>
    rcases closeListing_cases h v with hx | ⟨_, hx⟩
    · exact Or.inr ⟨_, hx⟩
    · exact Or.inl ⟨_, _, hx⟩

/-- Whatever a fresh volume has been through, an operation that fails changes nothing of it. -/
theorem unchanged_of_failure (label : Text) (ops : List Operation) (op : Operation) :
    let v := (labelled label).runAll ops
    (∃ w, op.perform v = .ok () w ∧ op.run v = w) ∨ ∃ e, op.perform v = .error e v ∧ op.run v = v := by
  intro v
  have hv : v.WellFormed := (wellFormed_labelled label).runAll ops
  rw [← after_perform]
  rcases atomic_perform hv op with ⟨_, w, hx⟩ | ⟨e, hx⟩
  · exact Or.inl ⟨w, hx, after_ok hx⟩
  · exact Or.inr ⟨e, hx, after_error hx⟩

end Operations

end Volume

end CardShell
