import CardShell.Proofs.Volume.Moved

/-!
The operations of a volume as data, and what any run of them keeps, whether they succeed or fail.
-/

set_option autoImplicit false

namespace CardShell.Volume

open CardShell.Action

inductive Operation
  | relabel (label : Text)
  | restamp (stamp : Stamp)
  | mount
  | changeDirectory (typed : Text)
  | makeDirectory (typed : Text)
  | makeDirectories (typed : Text)
  | unlink (typed : Text)
  | rename (source target : Text)
  | setAttributes (typed : Text) (bits : UInt8)
  | writeFile (typed : Text) (data : List UInt8)
  | openFile (typed : Text) (mode : OpenMode)
  | closeFile (h : Nat)
  | read (h count : Nat)
  | write (h : Nat) (bytes : List UInt8)
  | seek (h offset : Nat)
  | openListing (typed : Text)
  | readListing (h : Nat)
  | closeListing (h : Nat)
  deriving DecidableEq, Repr

def Operation.run : Operation → Volume → Volume
  | relabel label, v => { v with label := label }
  | restamp stamp, v => { v with stamp := stamp }
  | mount, v => v.mount
  | changeDirectory typed, v => (Volume.changeDirectory typed).after v
  | makeDirectory typed, v => (Volume.makeDirectory typed).after v
  | makeDirectories typed, v => (Volume.makeDirectories typed).after v
  | unlink typed, v => (Volume.unlink typed).after v
  | rename source target, v => (Volume.rename source target).after v
  | setAttributes typed bits, v => (Volume.setAttributes typed bits).after v
  | writeFile typed data, v => (Volume.writeFile typed data).after v
  | openFile typed mode, v => (Volume.openFile typed mode).after v
  | closeFile h, v => (Volume.closeFile h).after v
  | read h count, v => (Volume.read h count).after v
  | write h bytes, v => (Volume.write h bytes).after v
  | seek h offset, v => (Volume.seek h offset).after v
  | openListing typed, v => (Volume.openListing typed).after v
  | readListing h, v => (Volume.readListing h).after v
  | closeListing h, v => (Volume.closeListing h).after v

def runAll (v : Volume) (ops : List Operation) : Volume := ops.foldl (fun v op => op.run v) v

variable {v w : Volume}

theorem WellFormed.mount (h : v.WellFormed) : v.mount.WellFormed := by
  refine h.of_shapeAt (fun _ => rfl) h.distinct rfl ⟨v.root, rfl, h.root_isDirectory, ?_⟩ ?_
  · exact h.root_path
  · intro p hp
    cases hp

theorem keeps_changeDirectory (typed : Text) : Keeps WellFormed (changeDirectory typed) := by
  intro v h
  rcases changeDirectory_cases typed v with hx | ⟨key, n, hf, hdir, hx⟩
  · rw [after_error hx]
    exact h
  · rw [after_ok hx]
    obtain ⟨p, _, rfl, hn⟩ := find_ok hf
    refine h.of_shapeAt (fun _ => rfl) h.distinct rfl ⟨n, ?_, hdir, rfl⟩ h.files
    rw [h.key_path hn, hn]

theorem keeps_makeDirectory (typed : Text) : Keeps WellFormed (makeDirectory typed) := by
  intro v h
  rcases makeDirectory_cases typed v with ⟨e, hx⟩ | ⟨p, stored, hp, hn, hs, hx⟩
  · rw [after_error hx]
    exact h
  · rw [after_ok hx]
    exact h.insert .directory (h.isName_of_resolve hp) hn hs

theorem keeps_ensureDirectory {p : Path} (hname : ∀ c ∈ p, Path.IsName c) :
    Keeps WellFormed (ensureDirectory p) := by
  intro v h
  rcases ensureDirectory_cases p v with ⟨e, hx⟩ | hx | ⟨stored, hn, hs, hx⟩
  · rw [after_error hx]
    exact h
  · rw [after_ok hx]
    exact h
  · rw [after_ok hx]
    exact h.insert .directory hname hn hs

theorem keeps_makeDirectories (typed : Text) : Keeps WellFormed (makeDirectories typed) := by
  intro v h
  unfold makeDirectories
  cases hp : v.resolve typed with
  | error e =>
    have hq : (query (resolve · typed) : VolumeAction Path) v = .error e v := query_error hp
    rw [after_bind_error hq]
    exact h
  | ok p =>
    have hq : (query (resolve · typed) : VolumeAction Path) v = .ok p v := query_ok hp
    rw [after_bind_ok hq]
    refine keeps_forM ?_ v h
    intro q hq
    obtain ⟨i, _, rfl⟩ := List.mem_map.mp hq
    exact keeps_ensureDirectory fun c hc => h.isName_of_resolve hp c (List.mem_of_mem_take hc)

theorem keeps_unlink (typed : Text) : Keeps WellFormed (unlink typed) := by
  intro v h
  rcases unlink_cases typed v with ⟨e, hx⟩ | ⟨key, n, hf, hk, _, hc, ho, hx⟩
  · rw [after_error hx]
    exact h
  · rw [after_ok hx]
    obtain ⟨p, _, rfl, hn⟩ := find_ok hf
    exact h.erase hk hn hc ho

theorem keeps_rename (source target : Text) : Keeps WellFormed (rename source target) := by
  intro v h
  rcases rename_cases source target v with
    ⟨e, hx⟩ | ⟨key, n, p, new, hf, hk, hp, hfree, hb, ho, hnew, hx⟩
  · rw [after_error hx]
    exact h
  · rw [after_ok hx]
    obtain ⟨q, _, rfl, hn⟩ := find_ok hf
    exact Movable.wellFormed h ⟨hn, hk, hfree, hb, ho, hnew⟩ (h.isName_of_resolve hp)

theorem keeps_setAttributes (typed : Text) (bits : UInt8) :
    Keeps WellFormed (setAttributes typed bits) := by
  intro v h
  rcases setAttributes_cases typed bits v with ⟨e, hx⟩ | ⟨key, n, _, hx⟩
  · rw [after_error hx]
    exact h
  · rw [after_ok hx]
    exact h.updateNode key fun _ _ => ⟨rfl, rfl, rfl⟩

/-- New contents for a file leave it a file. -/
theorem isDirectory_of_file {n : Node} {old : Bytes} (h : n.content = .file old) (data : Bytes)
    (stamp : Stamp) :
    { n with content := .file data, stamp := stamp }.isDirectory = n.isDirectory := by
  unfold Node.isDirectory
  rw [h]
  rfl

/-- Whatever the mode asks for, a file is there in the end. -/
theorem WellFormed.prepare (h : v.WellFormed) {p : Path} {mode : OpenMode}
    (hname : ∀ c ∈ p, Path.IsName c) (hw : v.prepare p mode = .ok w) :
    w.WellFormed ∧ ∃ n, w.node? p.key = some n ∧ n.isDirectory = false := by
  rcases prepare_cases hw with ⟨n, hn, hfile, _, _, rfl⟩ | ⟨stored, hn, _, hs, rfl⟩
  · split
    · refine ⟨h.updateNode p.key ?_, { n with content := .file (.ofList []), stamp := v.stamp }, ?_,
        rfl⟩
      · intro m hm
        rw [hn] at hm
        cases hm
        exact ⟨rfl, hfile.symm, rfl⟩
      · rw [node?_updateNode, if_pos rfl, hn]
        rfl
    · exact ⟨h, n, hn, hfile⟩
  · have hp : p ≠ [] := by
      rintro rfl
      cases hn
    obtain ⟨d, hd, _, rfl, hkey⟩ := h.newPath hp hs
    have hw := h.insert (.file (.ofList [])) hname hn hs
    rw [← h.key_path hd] at hd
    rw [← hkey] at hn
    have hnode := node?_insert h (.file (.ofList [])) hd hn p.key
    rw [if_pos hkey.symm] at hnode
    exact ⟨hw, _, hnode, rfl⟩

theorem keeps_openFile (typed : Text) (mode : OpenMode) :
    Keeps WellFormed (openFile typed mode) := by
  intro v h
  rcases openFile_cases typed mode v with ⟨e, hx⟩ | ⟨p, w, hp, hw, hx⟩
  · rw [after_error hx]
    exact h
  · obtain ⟨hwf, n, hn, hfile⟩ := h.prepare (h.isName_of_resolve hp) hw
    rcases hx with ⟨e, _, _, hx⟩ | ⟨position, _, hx⟩
    · rw [after_error hx]
      exact hwf
    · rw [after_ok hx]
      refine hwf.withFiles rfl rfl rfl rfl ?_
      intro f hf
      rcases mem_of_mem_set hf with rfl | hf
      · exact ⟨n, hn, hfile⟩
      · exact hwf.files f hf

theorem keeps_closeFile (h : Nat) : Keeps WellFormed (closeFile h) := by
  intro v hv
  rcases closeFile_cases h v with hx | ⟨_, hx⟩
  · rw [after_error hx]
    exact hv
  · rw [after_ok hx]
    refine hv.withFiles rfl rfl rfl rfl ?_
    intro p hp
    exact hv.files p (List.mem_filter.mp hp).1

theorem keeps_read (h count : Nat) : Keeps WellFormed (read h count) := by
  intro v hv
  rcases read_cases h count v with ⟨e, hx⟩ | ⟨f, data, _, _, _, hx⟩
  · rw [after_error hx]
    exact hv
  · rw [after_ok hx]
    exact hv.updateFile h fun _ => rfl

theorem keeps_write (h : Nat) (bytes : List UInt8) : Keeps WellFormed (write h bytes) := by
  intro v hv
  rcases write_cases h bytes v with ⟨e, hx⟩ | ⟨f, data, _, _, hd, hx⟩
  · rw [after_error hx]
    exact hv
  · rw [after_ok hx]
    obtain ⟨n, hn, hc⟩ := dataAt_ok hd
    refine (hv.updateNode f.key ?_).updateFile h fun _ => rfl
    intro m hm
    rw [hn] at hm
    cases hm
    exact ⟨rfl, isDirectory_of_file hc _ _, rfl⟩

theorem keeps_seek (h offset : Nat) : Keeps WellFormed (seek h offset) := by
  intro v hv
  rcases seek_cases h offset v with ⟨e, hx⟩ | ⟨f, data, _, hd, ⟨_, _, hx⟩ | ⟨_, hx⟩⟩
  · rw [after_error hx]
    exact hv
  · rw [after_ok hx]
    obtain ⟨n, hn, hc⟩ := dataAt_ok hd
    refine (hv.updateNode f.key ?_).updateFile h fun _ => rfl
    intro m hm
    rw [hn] at hm
    cases hm
    exact ⟨rfl, isDirectory_of_file hc _ _, rfl⟩
  · rw [after_ok hx]
    exact hv.updateFile h fun _ => rfl

theorem keeps_openListing (typed : Text) : Keeps WellFormed (openListing typed) := by
  intro v h
  rcases openListing_cases typed v with ⟨e, hx⟩ | ⟨key, n, _, _, hx⟩
  · rw [after_error hx]
    exact h
  · rw [after_ok hx]
    exact h.withFiles rfl rfl rfl rfl h.files

theorem keeps_readListing (h : Nat) : Keeps WellFormed (readListing h) := by
  intro v hv
  rcases readListing_cases h v with hx | ⟨_, hx⟩ | ⟨e, es, _, hx⟩
  · rw [after_error hx]
    exact hv
  · rw [after_ok hx]
    exact hv
  · rw [after_ok hx]
    exact hv.withFiles rfl rfl rfl rfl hv.files

theorem keeps_closeListing (h : Nat) : Keeps WellFormed (closeListing h) := by
  intro v hv
  rcases closeListing_cases h v with hx | ⟨_, hx⟩
  · rw [after_error hx]
    exact hv
  · rw [after_ok hx]
    exact hv.withFiles rfl rfl rfl rfl hv.files

theorem keeps_writeFile (typed : Text) (data : List UInt8) :
    Keeps WellFormed (writeFile typed data) := by
  refine keeps_bind (keeps_query _) fun p => ?_
  refine keeps_bind (keeps_makeDirectories _) fun _ => ?_
  refine keeps_bind (keeps_openFile _ _) fun h => ?_
  refine keeps_closing (keeps_closeFile h) ?_
  exact keeps_bind (keeps_write h data) fun _ => keeps_ite (keeps_throw _) (keeps_pure _)

theorem WellFormed.run (h : v.WellFormed) (op : Operation) : (op.run v).WellFormed := by
  cases op with
  | relabel label => exact h.withFiles rfl rfl rfl rfl h.files
  | restamp stamp => exact h.withFiles rfl rfl rfl rfl h.files
  | mount => exact h.mount
  | changeDirectory typed => exact keeps_changeDirectory typed v h
  | makeDirectory typed => exact keeps_makeDirectory typed v h
  | makeDirectories typed => exact keeps_makeDirectories typed v h
  | unlink typed => exact keeps_unlink typed v h
  | rename source target => exact keeps_rename source target v h
  | setAttributes typed bits => exact keeps_setAttributes typed bits v h
  | writeFile typed data => exact keeps_writeFile typed data v h
  | openFile typed mode => exact keeps_openFile typed mode v h
  | closeFile n => exact keeps_closeFile n v h
  | read n count => exact keeps_read n count v h
  | write n bytes => exact keeps_write n bytes v h
  | seek n offset => exact keeps_seek n offset v h
  | openListing typed => exact keeps_openListing typed v h
  | readListing n => exact keeps_readListing n v h
  | closeListing n => exact keeps_closeListing n v h

section SameNodes

def Operation.leavesNodes : Operation → Bool
  | relabel _ | restamp _ | mount | changeDirectory _ | closeFile _ | read _ _ | openListing _
  | readListing _ | closeListing _ => true
  | _ => false

theorem node?_updateFile (v : Volume) (h : Nat) (f : OpenFile → OpenFile) (q : Path) :
    (v.updateFile h f).node? q = v.node? q := by
  unfold updateFile
  split <;> rfl

theorem node?_run {op : Operation} (hop : op.leavesNodes = true) (v : Volume) (q : Path) :
    (op.run v).node? q = v.node? q := by
  cases op with
  | relabel label => rfl
  | restamp stamp => rfl
  | mount => rfl
  | changeDirectory typed =>
    dsimp only [Operation.run]
    rcases changeDirectory_cases typed v with hx | ⟨_, _, _, _, hx⟩
    · rw [after_error hx]
    · rw [after_ok hx]
      rfl
  | closeFile h =>
    dsimp only [Operation.run]
    rw [after_closeFile]
    rfl
  | read h count =>
    dsimp only [Operation.run]
    rcases read_cases h count v with ⟨_, hx⟩ | ⟨_, _, _, _, _, hx⟩
    · rw [after_error hx]
    · rw [after_ok hx, node?_updateFile]
  | openListing typed =>
    dsimp only [Operation.run]
    rcases openListing_cases typed v with ⟨_, hx⟩ | ⟨_, _, _, _, hx⟩
    · rw [after_error hx]
    · rw [after_ok hx]
      rfl
  | readListing h =>
    dsimp only [Operation.run]
    rcases readListing_cases h v with hx | ⟨_, hx⟩ | ⟨_, _, _, hx⟩
    · rw [after_error hx]
    · rw [after_ok hx]
    · rw [after_ok hx]
      rfl
  | closeListing h =>
    dsimp only [Operation.run]
    rw [after_closeListing]
    rfl
  | makeDirectory | makeDirectories | unlink | rename | setAttributes | writeFile | openFile | write
  | seek => cases hop

end SameNodes

section Runs

theorem WellFormed.runAll (h : v.WellFormed) (ops : List Operation) :
    (v.runAll ops).WellFormed := by
  induction ops generalizing v with
  | nil => exact h
  | cons op ops ih => exact ih (h.run op)

theorem WellFormed.of_runAll {label : Text} {ops : List Operation}
    (h : v = (labelled label).runAll ops) : v.WellFormed := by
  rw [h]
  exact (wellFormed_labelled label).runAll ops

end Runs

end CardShell.Volume
