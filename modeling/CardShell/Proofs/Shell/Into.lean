import CardShell.Proofs.Shell.Copy
import CardShell.Proofs.Volume.Recased

/-!
Renaming and copying a single entry into a directory. Its name there is taken from the path that was
typed, and is what stands behind the last separator. Where that is a name, it is the entry's own up to
case, however the rest is spelled; where it is nothing or dots, nothing goes into the directory.
-/

set_option autoImplicit false

namespace CardShell

open CardShell.Action

namespace Volume

variable {v : Volume} {src dst : Text} {key : Path} {n d : Node}

theorem exists_enter_baseName {p : Path} (h : v.resolve src = .ok p) :
    ∃ above, Path.enter above (PathText.baseName src) = .ok p := by
  obtain ⟨above, hx⟩ := PathText.resolve_baseName v.directory src
  rw [show Path.resolve v.directory src = .ok p from h] at hx
  cases habove : above with
  | error e =>
    rw [habove] at hx
    cases hx
  | ok q =>
    rw [habove] at hx
    exact ⟨q, hx.symm⟩

/-- A last part that is a name is the name of the entry. -/
theorem lower_baseName (hv : v.WellFormed) (hsource : v.find src = .ok (key, n)) (hkey : key ≠ [])
    (hname : Path.IsName (PathText.baseName src)) :
    (PathText.baseName src).lower = n.path.leaf.lower := by
  obtain ⟨p, hp, hpkey, hn⟩ := find_ok hsource
  obtain ⟨above, hx⟩ := exists_enter_baseName hp
  rw [hname.enter] at hx
  cases hx
  have hpath := hv.key_path hn
  have hne : n.path ≠ [] := by
    intro hnil
    rw [hnil] at hpath
    exact hkey (hpkey ▸ hpath.symm)
  rw [← Path.parent_append_leaf hne, key_concat, key_concat] at hpath
  exact (List.singleton_inj.mp (List.append_inj' hpath rfl).2).symm

theorem find_path_text (hv : v.WellFormed) (hsource : v.find src = .ok (key, n)) :
    v.find n.path.text = v.find src := by
  obtain ⟨p, hp, _, hn⟩ := find_ok hsource
  exact find_congr (Path.resolve_text (hv.isName_of_mem hn) v.directory) hp (hv.key_path hn)

/-- Whether the last part or the name itself is put behind a directory, the same entry is meant. -/
theorem resolve_into (hv : v.WellFormed) (hsource : v.find src = .ok (key, n)) (hkey : key ≠ [])
    (hdst : v.directoryAt? dst = some d) (hname : Path.IsName (PathText.baseName src)) :
    ∃ p p' : Path, v.resolve (PathText.join dst (PathText.baseName src)) = .ok p ∧
      v.resolve (PathText.join dst n.path.leaf) = .ok p' ∧ p.key = p'.key := by
  obtain ⟨_, _, hpkey, hn⟩ := find_ok hsource
  obtain ⟨q, hq, _⟩ := find_ok (find_of_directoryAt? hv hdst).1
  have hleaf : Path.IsName n.path.leaf := by
    apply hv.isName_of_mem hn
    apply Path.leaf_mem
    intro hnil
    rw [hpkey, ← hv.key_path hn, hnil] at hkey
    exact hkey rfl
  have hjoin : ∀ {name : Text}, Path.IsName name →
      v.resolve (PathText.join dst name) = .ok (q ++ [name]) := by
    intro name hname
    have hjoined := PathText.resolve_join v.directory dst hname
    rw [show Path.resolve v.directory dst = .ok q from hq] at hjoined
    exact hjoined
  refine ⟨_, _, hjoin hname, hjoin hleaf, ?_⟩
  rw [key_concat, key_concat, lower_baseName hv hsource hkey hname]

/-- A part that only moves about leads from a directory to a directory. -/
theorem resolve_join_dots (hv : v.WellFormed) (hdst : v.directoryAt? dst = some d) {part : Text}
    (hpart : part = [] ∨ part = ['.'] ∨ part = ['.', '.']) :
    ∃ p t, v.resolve (PathText.join dst part) = .ok p ∧ v.node? p.key = some t ∧
      t.isDirectory = true := by
  obtain ⟨hfind, hdir⟩ := find_of_directoryAt? hv hdst
  obtain ⟨p, hp, hpkey, hd⟩ := find_ok hfind
  have hseparator : '/' ∉ part := by
    rcases hpart with rfl | rfl | rfl <;> decide
  have hjoin := PathText.resolve_join_part v.directory dst hseparator
  rw [show Path.resolve v.directory dst = .ok p from hp] at hjoin
  have hstays : ∀ q, Path.enter p part = .ok q → v.resolve (PathText.join dst part) = .ok q :=
    fun q hq => hjoin.trans hq
  rcases hpart with rfl | rfl | rfl
  · exact ⟨p, d, hstays p rfl, hpkey ▸ hd, hdir⟩
  · exact ⟨p, d, hstays p rfl, hpkey ▸ hd, hdir⟩
  · refine ⟨p.parent, ?_⟩
    by_cases hroot : p = []
    · subst hroot
      exact ⟨d, hstays [] rfl, hpkey ▸ hd, hdir⟩
    · obtain ⟨above, _, habove, haboveDir, _⟩ := hv.parent hd (mt Path.key_eq_nil.mp hroot)
      rw [← Path.key_parent] at habove
      exact ⟨above, hstays p.parent rfl, habove, haboveDir⟩

/-- Nothing is copied onto a directory. -/
theorem copied_onto (hsource : v.find src = .ok (key, n)) {p : Path} {t : Node} {typed : Text}
    (hp : v.resolve typed = .ok p) (ht : v.node? p.key = some t) (hdir : t.isDirectory = true) :
    v.copied src typed = .error .denied := by
  have hnew : v.newFile typed = .error .denied := by
    unfold newFile
    rw [hp]
    simp only [bind, Except.bind]
    rw [ht]
    dsimp only
    rw [hdir]
    rfl
  unfold copied readable
  rw [hsource]
  dsimp only
  cases n.data? with
  | none => rfl
  | some data =>
    rw [hnew]
    rfl

/-- An entry is renamed onto another one only if it is that one. -/
theorem rename_onto (hsource : v.find src = .ok (key, n)) (hkey : key ≠ []) {p : Path} {t : Node}
    {typed : Text} (hp : v.resolve typed = .ok p) (ht : v.node? p.key = some t) :
    v.find typed = v.find src ∨ rename src typed v = .error .alreadyExists v := by
  by_cases hsame : p.key = key
  · obtain ⟨q, hq, hqkey, _⟩ := find_ok hsource
    exact Or.inl (find_congr hp hq (hsame.trans hqkey))
  · rw [rename_resolved hp, hsource]
    dsimp only
    rw [if_neg hkey, if_pos ⟨hsame, by rw [ht]; rfl⟩]
    exact Or.inr rfl

end Volume

namespace Shell

open Drive

variable {m : Machine} {src dst : Text} {key : Path} {n d : Node}

/-- Two runs end alike, and leave cards with the same on them but for the case of names. -/
def SameOutcome : EStateM.Result Halt Machine Unit → EStateM.Result Halt Machine Unit → Prop :=
  Agree fun m m' => m.drive.volume.UpToCase m'.drive.volume

theorem drive_rename (hf : m.drive.faults = []) (s t : Text) :
    drive (Drive.rename s t) m = match Volume.rename s t m.drive.volume with
      | .ok _ w => ofExcept (.ok ()) { m with drive := { m.drive with volume := w } }
      | .error e w => ofExcept (.error e) { m with drive := { m.drive with volume := w } } := by
  have hx : Drive.rename s t m.drive = onVolume (Volume.rename s t) m.drive :=
    change_of_faultless hf .rename _
  cases h : Volume.rename s t m.drive.volume with
  | ok _ w => exact drive_ok (hx.trans (onVolume_ok h))
  | error e w => exact drive_error (hx.trans (onVolume_error h))

/-- A single path is renamed as the volume renames it. -/
theorem rename_single (hf : m.drive.faults = []) (hw : m.drive.volume.WellFormed)
    (hbare : m.drive.volume.Bare) (hsplit : PathText.split src = .single src)
    (hdst : Glob.hasWildcard dst = false)
    (hroom : m.heap.RoomFor [src, destination m.drive.volume src dst]) (verbose : Bool) :
    ∃ result m', rename src dst verbose m = ofExcept result m' ∧
      Volume.rename src (destination m.drive.volume src dst) m.drive.volume = match result with
        | .ok _ => .ok () m'.drive.volume
        | .error e => .error e m'.drive.volume := by
  obtain ⟨h, hrun⟩ := relocate_single (m := m) hf hw hbare hsplit hdst hroom
    (fun a b => drive (Drive.rename a b)) (moveMatch verbose)
  have hmove := drive_rename (m := { m with heap := h }) hf src (destination m.drive.volume src dst)
  dsimp only at hmove
  cases hx : Volume.rename src (destination m.drive.volume src dst) m.drive.volume with
  | ok _ w =>
    rw [hx] at hmove
    obtain ⟨heap, hrename⟩ := hrun (.ok ()) _ rfl hmove
    exact ⟨.ok (), _, hrename, rfl⟩
  | error e w =>
    rw [hx] at hmove
    obtain ⟨heap, hrename⟩ := hrun (.error e) _ rfl hmove
    exact ⟨.error e, _, hrename, rfl⟩

theorem sameOutcome_of_rename (hf : m.drive.faults = []) {s t : Text} {result : Except Error Unit}
    {m' : Machine}
    (h : Agree Volume.UpToCase (match result with
        | .ok _ => .ok () m'.drive.volume
        | .error e => .error e m'.drive.volume) (Volume.rename s t m.drive.volume)) :
    SameOutcome (ofExcept result m') (drive (Drive.rename s t) m) := by
  rw [drive_rename hf]
  cases result with
  | ok _ =>
    cases hx : Volume.rename s t m.drive.volume with
    | ok _ w =>
      rw [hx] at h
      exact ⟨rfl, h.2⟩
    | error e w =>
      rw [hx] at h
      exact h.elim
  | error e =>
    cases hx : Volume.rename s t m.drive.volume with
    | ok _ w =>
      rw [hx] at h
      exact h.elim
    | error e' w =>
      rw [hx] at h
      exact ⟨congrArg Halt.failed h.1, h.2⟩

theorem sameOutcome_of_copied {v : Volume} {s s' t t' : Text} {m' : Machine}
    (h : (∃ path path' data, v.copied s t = .ok (path, data) ∧ v.copied s' t' = .ok (path', data) ∧
        path.key = path'.key) ∨ ∃ e, v.copied s t = .error e ∧ v.copied s' t' = .error e)
    (hm : v.Grown (v.copied s t).toOption.toList m.drive.volume)
    (hm' : v.Grown (v.copied s' t').toOption.toList m'.drive.volume) :
    SameOutcome (ofExcept ((v.copied s t).map fun _ => ()) m)
      (ofExcept ((v.copied s' t').map fun _ => ()) m') := by
  rcases h with ⟨path, path', data, hmade, hmade', hsame⟩ | ⟨e, hmade, hmade'⟩
  · rw [hmade] at hm ⊢
    rw [hmade'] at hm' ⊢
    exact ⟨rfl, hm.upToCase hm' hsame⟩
  · rw [hmade] at hm ⊢
    rw [hmade'] at hm' ⊢
    exact ⟨rfl, hm.upToCase_nil hm'⟩

/-- An entry that is renamed or copied into a directory gets the name that stands behind the last
separator of the path it was typed as. Where that is a name, all ends as if the entry had been moved or
copied under its own name, but for case. Otherwise nothing is copied, and nothing is renamed into the
directory; at most the entry is the directory or the one above it, and is renamed onto itself. -/
theorem into_directory_by_last_part (label : Text) (ops : List Volume.Operation) (m : Machine)
    (hd : m.drive.Reliable) (hv : m.drive.volume = (Volume.labelled label).runAll ops)
    (hchunk : 1 ≤ m.settings.storage.copyChunk) (src dst : Text)
    (hsource : m.drive.volume.find src = .ok (key, n)) (hkey : key ≠ [])
    (hdst : m.drive.volume.directoryAt? dst = some d)
    (hroom : m.heap.RoomFor [src, PathText.join dst (PathText.baseName src)]) (verbose : Bool) :
    let v := m.drive.volume
    let last := PathText.baseName src
    let direct := PathText.join dst n.path.leaf
    (Path.IsName last →
      SameOutcome (rename src dst verbose m) (drive (Drive.rename n.path.text direct) m) ∧
      SameOutcome (copy src dst verbose m) (copyFile verbose n.path.text direct m)) ∧
    (¬ Path.IsName last →
      (v.find (PathText.join dst last) = v.find src ∨
        ∃ m', rename src dst verbose m = .error (.failed .alreadyExists) m' ∧ m'.drive.volume = v) ∧
      ∃ m', copy src dst verbose m = .error (.failed .denied) m' ∧ v.Grown [] m'.drive.volume) := by
  intro v last direct
  have hw : v.WellFormed := .of_runAll hv
  have hbare : v.Bare := .of_runAll hv
  obtain ⟨p, hp, _⟩ := Volume.find_ok hsource
  have hsplit := PathText.split_of_plain (PathText.hasWildcard_of_resolve hp)
  have hwild := hasWildcard_of_directoryAt? hdst
  have htarget : destination v src dst = PathText.join dst last := by
    unfold destination
    rw [hdst]
    rfl
  have hroom' : m.heap.RoomFor [src, destination v src dst] := by
    rw [htarget]
    exact hroom
  have hchunk' : m.settings.storage.copyChunk ≠ 0 := Nat.ne_of_gt hchunk
  obtain ⟨result, m₁, hrename, hresult⟩ :=
    rename_single hd.faults hw hbare hsplit hwild hroom' verbose
  obtain ⟨m₂, hcopy, hgrown⟩ := copy_single hchunk' hd hw hbare hsplit hwild hroom' verbose
  rw [htarget] at hresult hcopy hgrown
  constructor
  · intro hname
    obtain ⟨_, _, hlast, hleaf, hkeys⟩ := Volume.resolve_into hw hsource hkey hdst hname
    have hfind := (Volume.find_path_text hw hsource).symm
    constructor
    · have hagree := Volume.rename_recased hw hfind hlast hleaf hkeys
      rw [hresult] at hagree
      rw [hrename]
      exact sameOutcome_of_rename hd.faults hagree
    · obtain ⟨c, d', hx, hgained⟩ := copyFile_ends hchunk' hd hw verbose n.path.text direct
      rw [hcopy, hx]
      exact sameOutcome_of_copied (Volume.copied_recased hw hfind hlast hleaf hkeys) hgrown
        hgained.grown
  · intro hname
    obtain ⟨above, hlast⟩ := Volume.exists_enter_baseName hp
    have hdots := (Path.isName_or_of_enter (PathText.not_mem_baseName src) hlast).resolve_left hname
    obtain ⟨q, t, hq, ht, hdir⟩ := Volume.resolve_join_dots hw hdst hdots
    constructor
    · rcases Volume.rename_onto hsource hkey hq ht with hsame | hrefused
      · exact Or.inl hsame
      · rw [show Volume.rename src (PathText.join dst last) m.drive.volume = _ from hrefused] at hresult
        cases result with
        | ok _ => cases hresult
        | error e =>
          injection hresult with he hvolume
          subst he
          exact Or.inr ⟨m₁, hrename, hvolume.symm⟩
    · have hdenied := Volume.copied_onto hsource hq ht hdir
      rw [hdenied] at hcopy hgrown
      exact ⟨m₂, hcopy, hgrown⟩

/-- A card with a file in `/a` and nothing in `/d`. -/
def oneFile : Machine :=
  Machine.boot {} ((Volume.labelled []).runAll [.writeFile "/a/f" [1], .makeDirectory "/d"]) [] {}
    (.hosted 0 0) .absent

/-- The way to an entry may be spelled as one likes. -/
theorem into_directory_roundabout :
    ∃ n, oneFile.drive.volume.find "/d/..//A" = .ok (["a"], n) ∧
      SameOutcome (rename "/d/..//A" "/d" false oneFile)
        (drive (Drive.rename n.path.text (PathText.join "/d" n.path.leaf)) oneFile) ∧
      SameOutcome (copy "/d/..//A" "/d" false oneFile)
        (copyFile false n.path.text (PathText.join "/d" n.path.leaf) oneFile) := by
  have hw : oneFile.drive.volume.WellFormed := (Volume.wellFormed_labelled []).runAll _
  obtain ⟨d, hdst⟩ : ∃ d, oneFile.drive.volume.directoryAt? "/d" = some d :=
    Option.isSome_iff_exists.mp (by decide +kernel)
  obtain ⟨n, hn⟩ : ∃ n, oneFile.drive.volume.directoryAt? "/d/..//A" = some n :=
    Option.isSome_iff_exists.mp (by decide +kernel)
  have hpath : (oneFile.drive.volume.directoryAt? "/d/..//A").map Node.path = some (["a"] : Path) := by
    decide +kernel
  rw [hn, Option.map_some, Option.some.injEq] at hpath
  have hsource := (Volume.find_of_directoryAt? hw hn).1
  have hkey : n.path.key = (["a"] : Path) := by
    rw [hpath]
    decide +kernel
  rw [hkey] at hsource
  have hroom : oneFile.heap.RoomFor
      ["/d/..//A", PathText.join "/d" (PathText.baseName "/d/..//A")] := by
    unfold Heap.RoomFor
    decide +kernel
  have hname : Path.IsName (PathText.baseName "/d/..//A") :=
    ⟨by decide +kernel, by decide +kernel, by decide +kernel, by decide +kernel⟩
  have h := (into_directory_by_last_part [] _ oneFile ⟨rfl, List.not_mem_nil⟩ rfl (by decide +kernel)
    "/d/..//A" "/d" hsource (by decide +kernel) hdst hroom false).1 hname
  exact ⟨n, hsource, h⟩

/-- A separator behind the source takes its name away. -/
theorem into_directory_slashed : ¬ ∀ (src dst : Text) (key : Path) (n d : Node),
    oneFile.drive.volume.find src = .ok (key, n) → key ≠ [] →
    oneFile.drive.volume.directoryAt? dst = some d →
    oneFile.heap.RoomFor [src, PathText.join dst (PathText.baseName src)] →
    SameOutcome (rename src dst false oneFile)
      (drive (Drive.rename n.path.text (PathText.join dst n.path.leaf)) oneFile) := by
  intro law
  have hw : oneFile.drive.volume.WellFormed := (Volume.wellFormed_labelled []).runAll _
  obtain ⟨d, hdst⟩ : ∃ d, oneFile.drive.volume.directoryAt? "/d" = some d :=
    Option.isSome_iff_exists.mp (by decide +kernel)
  obtain ⟨n, hn⟩ : ∃ n, oneFile.drive.volume.directoryAt? "/a/" = some n :=
    Option.isSome_iff_exists.mp (by decide +kernel)
  have hpath : (oneFile.drive.volume.directoryAt? "/a/").map Node.path = some (["a"] : Path) := by
    decide +kernel
  rw [hn, Option.map_some, Option.some.injEq] at hpath
  have hsource := (Volume.find_of_directoryAt? hw hn).1
  have hkey : n.path.key ≠ [] := by
    rw [hpath]
    decide +kernel
  have hroom : oneFile.heap.RoomFor ["/a/", PathText.join "/d" (PathText.baseName "/a/")] := by
    unfold Heap.RoomFor
    decide +kernel
  have hsame := Agree.after (law "/a/" "/d" _ n d hsource hkey hdst hroom)
  rw [hpath] at hsame
  have hnode := congrArg Option.isSome (hsame.node ["d", "a"])
  rw [Option.isSome_map, Option.isSome_map] at hnode
  -- Moved under its own name, the directory is in `/d`; renamed as it was typed, it is not.
  have hruns :
      (((rename "/a/" "/d" false).after oneFile).drive.volume.node? ["d", "a"]).isSome = false ∧
      (((drive (Drive.rename "/a" "/d/a")).after oneFile).drive.volume.node? ["d", "a"]).isSome =
        true := by
    cbv
  have hdirect : drive (Drive.rename (Path.text (["a"] : Path))
      (PathText.join "/d" (Path.leaf (["a"] : Path)))) = drive (Drive.rename "/a" "/d/a") := by
    cbv
  rw [hdirect, hruns.1, hruns.2] at hnode
  cases hnode

end Shell

end CardShell
