import CardShell.Proofs.Volume.Operation

/-!
Read-only files. No operation removes a read-only file, and only a change of its attributes ends the
protection. While no handle may write it, its bytes stay as they are through any run, wherever
renames take it, save for one way: an open that asks for a new file, but not for write access, is let
through and empties it.
-/

set_option autoImplicit false

namespace CardShell.Volume

open CardShell.Action

/-- At `key` is a read-only file with contents `data`, and no handle open on it may write. -/
structure Protected (v : Volume) (key : Path) (data : Bytes) : Prop where
  file : ∃ n, v.node? key = some n ∧ n.content = .file data ∧ n.attributes.isReadOnly = true
  unwritten : ∀ p ∈ v.files, p.2.key = key → p.2.mode.contains .write = false

instance (v : Volume) (key : Path) (data : Bytes) : Decidable (Protected v key data) :=
  decidable_of_iff ((∃ n ∈ v.node? key, n.content = .file data ∧ n.attributes.isReadOnly = true) ∧
    ∀ p ∈ v.files, p.2.key = key → p.2.mode.contains .write = false)
    ⟨fun h => ⟨h.1, h.2⟩, fun h => ⟨h.file, h.unwritten⟩⟩

namespace Operation

/-- Where the entry at `key` is afterwards. Only a rename takes it elsewhere. -/
def place (op : Operation) (v : Volume) (key : Path) : Path :=
  match op with
  | .rename source target =>
    match v.find source, v.resolve target, Volume.rename source target v with
    | .ok (moved, _), .ok p, .ok _ _ => Movable.landing moved p.key key
    | _, _, _ => key
  | _ => key

/-- Whether the attributes of the entry at `key` are set. -/
def retags (op : Operation) (v : Volume) (key : Path) : Bool :=
  match op with
  | .setAttributes typed _ => match v.find typed with
    | .ok (k, _) => decide (k = key)
    | .error _ => false
  | _ => false

/-- Whether the entry at `key` is opened as a new file, but not for writing. -/
def empties (op : Operation) (v : Volume) (key : Path) : Bool :=
  match op with
  | .openFile typed mode => match v.resolve typed with
    | .ok p => decide (p.key = key) && mode.contains .createAlways && !mode.contains .createNew &&
        !mode.contains .write
    | .error _ => false
  | _ => false

end Operation

/-- The operations of a run, each with the volume before it and the place of the entry that was at
`key` when the run began. -/
def trail (v : Volume) (key : Path) : List Operation → List (Operation × Volume × Path)
  | [] => []
  | op :: ops => (op, v, key) :: trail (op.run v) (op.place v key) ops

/-- Where the entry that is at `key` will be after a run. -/
def placeAfter (v : Volume) (key : Path) : List Operation → Path
  | [] => key
  | op :: ops => placeAfter (op.run v) (op.place v key) ops

/-- Whether a run sets the attributes of the entry that was at `key`. -/
def retagged (v : Volume) (key : Path) (ops : List Operation) : Bool :=
  (trail v key ops).any fun (op, v, key) => op.retags v key

/-- Whether a run opens the entry that was at `key` as a new file, but not for writing. -/
def emptied (v : Volume) (key : Path) (ops : List Operation) : Bool :=
  (trail v key ops).any fun (op, v, key) => op.empties v key

variable {v w : Volume} {key : Path} {data : Bytes}

theorem retagged_cons (op : Operation) (ops : List Operation) :
    retagged v key (op :: ops) = (op.retags v key || retagged (op.run v) (op.place v key) ops) := rfl

theorem emptied_cons (op : Operation) (ops : List Operation) :
    emptied v key (op :: ops) = (op.empties v key || emptied (op.run v) (op.place v key) ops) := rfl

section Elsewhere

namespace Protected

/-- The node stays, and whoever may write the file could do so before. -/
theorem frame (h : Protected v key data) (hn : w.node? key = v.node? key)
    (hf : ∀ p ∈ w.files, p.2.key = key → p.2.mode.contains .write = true →
      ∃ q ∈ v.files, q.2.key = key ∧ q.2.mode.contains .write = true) : Protected w key data := by
  refine ⟨hn ▸ h.file, fun p hp hk => ?_⟩
  cases hw : p.2.mode.contains .write with
  | false => rfl
  | true =>
    obtain ⟨q, hq, hqk, hqw⟩ := hf p hp hk hw
    rw [h.unwritten q hq hqk] at hqw
    cases hqw

theorem of_files_eq (h : Protected v key data) (hn : w.node? key = v.node? key)
    (hf : w.files = v.files) : Protected w key data :=
  h.frame hn fun p hp hk hw => ⟨p, hf ▸ hp, hk, hw⟩

theorem updateFile (h : Protected v key data) (k : Nat) {f : OpenFile → OpenFile}
    (hf : ∀ g, (f g).key = g.key ∧ (f g).mode = g.mode) : Protected (v.updateFile k f) key data := by
  unfold Volume.updateFile
  cases hg : v.files.get? k with
  | none => exact h
  | some g =>
    refine h.frame rfl fun p hp hk hw => ?_
    rcases mem_of_mem_set hp with rfl | hp
    · refine ⟨(k, g), mem_of_get? hg, ?_, ?_⟩
      · rw [← (hf g).1]
        exact hk
      · rw [← (hf g).2]
        exact hw
    · exact ⟨p, hp, hk, hw⟩

theorem node_isSome (h : Protected v key data) : v.node? key ≠ none := by
  obtain ⟨n, hn, _⟩ := h.file
  rw [hn]
  exact Option.some_ne_none n

theorem updateNode_of_ne (h : Protected v key data) {k : Path} (hk : k ≠ key) (f : Node → Node) :
    Protected (v.updateNode k f) key data := by
  refine h.of_files_eq ?_ ?_
  · rw [node?_updateNode, if_neg (Ne.symm hk)]
  · unfold Volume.updateNode
    split <;> rfl

theorem insert (h : Protected v key data) (hv : v.WellFormed) {p stored : Path} (content : Content)
    (hn : v.node? p.key = none) (hs : v.newPath p = .ok stored) :
    Protected (v.insert stored content) key data := by
  have hp : p ≠ [] := by
    rintro rfl
    cases hn
  obtain ⟨d, hd, _, rfl, hkey⟩ := hv.newPath hp hs
  rw [← hv.key_path hd] at hd
  rw [← hkey] at hn
  refine h.of_files_eq ?_ rfl
  rw [node?_insert hv content hd hn, if_neg]
  rintro rfl
  exact h.node_isSome hn

/-- A handle that may not write the file may be opened, on it or elsewhere. -/
theorem withHandle (h : Protected v key data) {f : OpenFile}
    (hf : f.key = key → f.mode.contains .write = false) : Protected (v.withHandle f) key data := by
  refine h.frame rfl fun p hp hk hw => ?_
  rcases mem_of_mem_set hp with rfl | hp
  · rw [hf hk] at hw
    cases hw
  · exact ⟨p, hp, hk, hw⟩

end Protected

end Elsewhere

section Operations

/-- Well-formed, with a protected file. -/
def Guarding (key : Path) (data : Bytes) (v : Volume) : Prop := v.WellFormed ∧ Protected v key data

theorem guarding_makeDirectory (typed : Text) : Keeps (Guarding key data) (makeDirectory typed) := by
  intro v ⟨hv, h⟩
  refine ⟨keeps_makeDirectory typed v hv, ?_⟩
  rcases makeDirectory_cases typed v with ⟨e, hx⟩ | ⟨p, stored, _, hn, hs, hx⟩
  · rw [after_error hx]
    exact h
  · rw [after_ok hx]
    exact h.insert hv .directory hn hs

theorem guarding_makeDirectories (typed : Text) :
    Keeps (Guarding key data) (makeDirectories typed) := by
  intro v ⟨hv, h⟩
  unfold makeDirectories
  cases hp : v.resolve typed with
  | error e =>
    have hq : (query (resolve · typed) : VolumeAction Path) v = .error e v := query_error hp
    rw [after_bind_error hq]
    exact ⟨hv, h⟩
  | ok p =>
    have hq : (query (resolve · typed) : VolumeAction Path) v = .ok p v := query_ok hp
    rw [after_bind_ok hq]
    refine keeps_forM ?_ v ⟨hv, h⟩
    intro q hq w ⟨hw, h⟩
    obtain ⟨i, _, rfl⟩ := List.mem_map.mp hq
    have hname : ∀ c ∈ p.take (i + 1), Path.IsName c :=
      fun c hc => hv.isName_of_resolve hp c (List.mem_of_mem_take hc)
    refine ⟨keeps_ensureDirectory hname w hw, ?_⟩
    rcases ensureDirectory_cases (p.take (i + 1)) w with ⟨e, hx⟩ | hx | ⟨stored, hn, hs, hx⟩
    · rw [after_error hx]
      exact h
    · rw [after_ok hx]
      exact h
    · rw [after_ok hx]
      exact h.insert hw .directory hn hs

theorem guarding_unlink (typed : Text) : Keeps (Guarding key data) (unlink typed) := by
  intro v ⟨hv, h⟩
  refine ⟨keeps_unlink typed v hv, ?_⟩
  rcases unlink_cases typed v with ⟨e, hx⟩ | ⟨k, n, hf, hk, hro, hc, _, hx⟩
  · rw [after_error hx]
    exact h
  · rw [after_ok hx]
    obtain ⟨p, _, rfl, hn⟩ := find_ok hf
    obtain ⟨m, hm, _, hmro⟩ := h.file
    refine h.of_files_eq ?_ rfl
    -- What lies at or below an entry that can be removed is that entry, and it is not read-only.
    rw [node?_erase v hk, if_neg]
    intro hp
    have he := hv.eq_of_prefix hn (fun hd => (hc hd).1) hp hm
    rw [he, hn] at hm
    cases hm
    rw [hro] at hmro
    cases hmro

theorem guarding_read (k count : Nat) : Keeps (Guarding key data) (read k count) := by
  intro v ⟨hv, h⟩
  refine ⟨keeps_read k count v hv, ?_⟩
  rcases read_cases k count v with ⟨e, hx⟩ | ⟨f, bytes, _, _, _, hx⟩
  · rw [after_error hx]
    exact h
  · rw [after_ok hx]
    exact h.updateFile k fun _ => ⟨rfl, rfl⟩

/-- A handle with write access is not one of the file's. -/
theorem Protected.key_ne (h : Protected v key data) {k : Nat} {f : OpenFile}
    (hf : v.openFile? k = .ok f) (hw : f.mode.contains .write = true) : f.key ≠ key := by
  intro hk
  rw [h.unwritten _ (mem_of_get? (openFile?_ok hf)) hk] at hw
  cases hw

theorem guarding_write (k : Nat) (bytes : List UInt8) :
    Keeps (Guarding key data) (write k bytes) := by
  intro v ⟨hv, h⟩
  refine ⟨keeps_write k bytes v hv, ?_⟩
  rcases write_cases k bytes v with ⟨e, hx⟩ | ⟨f, old, hf, hw, _, hx⟩
  · rw [after_error hx]
    exact h
  · rw [after_ok hx]
    exact (h.updateNode_of_ne (h.key_ne hf hw) _).updateFile k fun _ => ⟨rfl, rfl⟩

theorem guarding_seek (k offset : Nat) : Keeps (Guarding key data) (seek k offset) := by
  intro v ⟨hv, h⟩
  refine ⟨keeps_seek k offset v hv, ?_⟩
  rcases seek_cases k offset v with ⟨e, hx⟩ | ⟨f, old, hf, _, ⟨_, hw, hx⟩ | ⟨_, hx⟩⟩
  · rw [after_error hx]
    exact h
  · rw [after_ok hx]
    exact (h.updateNode_of_ne (h.key_ne hf hw) _).updateFile k fun _ => ⟨rfl, rfl⟩
  · rw [after_ok hx]
    exact h.updateFile k fun _ => ⟨rfl, rfl⟩

theorem guarding_closeFile (k : Nat) : Keeps (Guarding key data) (closeFile k) := by
  intro v ⟨hv, h⟩
  refine ⟨keeps_closeFile k v hv, ?_⟩
  rcases closeFile_cases k v with hx | ⟨_, hx⟩
  · rw [after_error hx]
    exact h
  · rw [after_ok hx]
    exact h.frame rfl fun p hp hk hw => ⟨p, (List.mem_filter.mp hp).1, hk, hw⟩

theorem guarding_openListing (typed : Text) : Keeps (Guarding key data) (openListing typed) := by
  intro v ⟨hv, h⟩
  refine ⟨keeps_openListing typed v hv, ?_⟩
  rcases openListing_cases typed v with ⟨e, hx⟩ | ⟨k, n, _, _, hx⟩
  · rw [after_error hx]
    exact h
  · rw [after_ok hx]
    exact h.of_files_eq rfl rfl

theorem guarding_readListing (k : Nat) : Keeps (Guarding key data) (readListing k) := by
  intro v ⟨hv, h⟩
  refine ⟨keeps_readListing k v hv, ?_⟩
  rcases readListing_cases k v with hx | ⟨_, hx⟩ | ⟨e, es, _, hx⟩
  · rw [after_error hx]
    exact h
  · rw [after_ok hx]
    exact h
  · rw [after_ok hx]
    exact h.of_files_eq rfl rfl

theorem guarding_closeListing (k : Nat) : Keeps (Guarding key data) (closeListing k) := by
  intro v ⟨hv, h⟩
  refine ⟨keeps_closeListing k v hv, ?_⟩
  rcases closeListing_cases k v with hx | ⟨_, hx⟩
  · rw [after_error hx]
    exact h
  · rw [after_ok hx]
    exact h.of_files_eq rfl rfl

theorem guarding_changeDirectory (typed : Text) :
    Keeps (Guarding key data) (changeDirectory typed) := by
  intro v ⟨hv, h⟩
  refine ⟨keeps_changeDirectory typed v hv, ?_⟩
  rcases changeDirectory_cases typed v with hx | ⟨k, n, _, _, hx⟩
  · rw [after_error hx]
    exact h
  · rw [after_ok hx]
    exact h.of_files_eq rfl rfl

theorem Protected.setAttributes (h : Protected v key data) (typed : Text) (bits : UInt8)
    (hop : (Operation.setAttributes typed bits).retags v key = false) :
    Protected ((setAttributes typed bits).after v) key data := by
  rcases setAttributes_cases typed bits v with ⟨e, hx⟩ | ⟨k, n, hf, hx⟩
  · rw [after_error hx]
    exact h
  · rw [after_ok hx]
    refine h.updateNode_of_ne ?_ _
    simpa [Operation.retags, hf] using hop

end Operations

section Opening

theorem prepare_elsewhere (hv : v.WellFormed) (h : Protected v key data) {p : Path}
    {mode : OpenMode} (hp : p.key ≠ key) (hw : v.prepare p mode = .ok w) :
    Protected w key data := by
  rcases prepare_cases hw with ⟨n, _, _, _, _, rfl⟩ | ⟨stored, hn, _, hs, rfl⟩
  · split
    · exact h.updateNode_of_ne hp _
    · exact h
  · exact h.insert hv _ hn hs

/-- The file itself opens, not for writing, and is emptied if a new one is asked for. -/
theorem prepare_protected (h : Protected v key data) {p : Path} {mode : OpenMode}
    (hp : p.key = key) (hw : v.prepare p mode = .ok w) :
    mode.contains .createNew = false ∧ mode.contains .write = false ∧
      Protected w key (if mode.contains .createAlways then .ofList [] else data) := by
  obtain ⟨n, hn, hc, hro⟩ := h.file
  subst hp
  rcases prepare_cases hw with ⟨m, hm, _, hnew, hwrite, rfl⟩ | ⟨stored, hnone, _⟩
  · rw [hn] at hm
    cases hm
    have hwrite : mode.contains .write = false := by
      cases hb : mode.contains .write with
      | false => rfl
      | true =>
        rw [hwrite hb] at hro
        cases hro
    refine ⟨hnew, hwrite, ?_⟩
    split
    · refine ⟨⟨{ n with content := .file (.ofList []), stamp := v.stamp }, ?_, rfl, hro⟩, ?_⟩
      · rw [node?_updateNode, if_pos rfl, hn]
        rfl
      · intro q hq hk
        refine h.unwritten q ?_ hk
        unfold Volume.updateNode at hq
        split at hq <;> exact hq
    · exact h
  · rw [hn] at hnone
    cases hnone

/-- An open that would empty the file is never refused. -/
theorem prepare_of_empties (h : Protected v key data) {p : Path} {mode : OpenMode}
    (hp : p.key = key) (hnew : mode.contains .createNew = false)
    (hwrite : mode.contains .write = false) : ∃ w, v.prepare p mode = .ok w := by
  obtain ⟨n, hn, hc, _⟩ := h.file
  have hfile : n.isDirectory = false := by
    unfold Node.isDirectory
    rw [hc]
    rfl
  unfold prepare
  rw [hp, hn]
  simp only [hfile, hnew, hwrite, Bool.false_and]
  by_cases hc : mode.contains .createAlways = true
  · exact ⟨_, by rw [if_neg (by decide), if_neg (by decide), if_neg (by decide), if_pos hc]⟩
  · exact ⟨_, by rw [if_neg (by decide), if_neg (by decide), if_neg (by decide), if_neg hc]⟩

theorem empties_eq {typed : Text} {mode : OpenMode} {p : Path} (hp : v.resolve typed = .ok p) :
    (Operation.openFile typed mode).empties v key =
      (decide (p.key = key) && mode.contains .createAlways && !mode.contains .createNew &&
        !mode.contains .write) := by
  simp only [Operation.empties, hp]

theorem exists_prepare_of_empties (h : Protected v key data) {typed : Text} {mode : OpenMode}
    (he : (Operation.openFile typed mode).empties v key = true) :
    ∃ p w, v.resolve typed = .ok p ∧ v.prepare p mode = .ok w := by
  cases hp : v.resolve typed with
  | error e => simp only [Operation.empties, hp, Bool.false_eq_true] at he
  | ok p =>
    rw [empties_eq hp] at he
    simp only [Bool.and_eq_true, decide_eq_true_eq, Bool.not_eq_true'] at he
    obtain ⟨w, hw⟩ := prepare_of_empties h he.1.1.1 he.1.2 he.2
    exact ⟨p, w, rfl, hw⟩

theorem Protected.openFile_prepared (h : Protected v key data) (hv : v.WellFormed) {typed : Text}
    {mode : OpenMode} {p : Path} (hp : v.resolve typed = .ok p) (hw : v.prepare p mode = .ok w) :
    Protected ((openFile typed mode).after v) key
      (if (Operation.openFile typed mode).empties v key then .ofList [] else data) := by
  have hprep : (p.key = key → mode.contains .write = false) ∧ Protected w key
      (if (Operation.openFile typed mode).empties v key then .ofList [] else data) := by
    rw [empties_eq hp]
    by_cases hk : p.key = key
    · obtain ⟨hnew, hwrite, hprot⟩ := prepare_protected h hk hw
      refine ⟨fun _ => hwrite, ?_⟩
      simpa [hk, hnew, hwrite] using hprot
    · refine ⟨fun he => absurd he hk, ?_⟩
      simpa [hk] using prepare_elsewhere hv h hk hw
  rcases Volume.openFile_prepared hp hw with ⟨e, _, _, hx⟩ | ⟨position, _, hx⟩
  · rw [after_error hx]
    exact hprep.2
  · rw [after_ok hx]
    exact hprep.2.withHandle hprep.1

theorem Protected.openFile (h : Protected v key data) (hv : v.WellFormed) (typed : Text)
    (mode : OpenMode) :
    Protected ((openFile typed mode).after v) key
      (if (Operation.openFile typed mode).empties v key then .ofList [] else data) := by
  rcases openFile_cases typed mode v with ⟨e, hx⟩ | ⟨p, w, hp, hw, _⟩
  · by_cases he : (Operation.openFile typed mode).empties v key = true
    · obtain ⟨p, w, hp, hw⟩ := exists_prepare_of_empties h he
      exact h.openFile_prepared hv hp hw
    · rw [after_error hx, if_neg he]
      exact h
  · exact h.openFile_prepared hv hp hw

/-- An open for writing empties other files only. -/
theorem guarding_openFile_write (typed : Text) {mode : OpenMode}
    (hm : mode.contains .write = true) : Keeps (Guarding key data) (openFile typed mode) := by
  intro v ⟨hv, h⟩
  refine ⟨keeps_openFile typed mode v hv, ?_⟩
  have he : (Operation.openFile typed mode).empties v key = false := by
    cases hp : v.resolve typed with
    | error e => simp only [Operation.empties, hp]
    | ok p => rw [empties_eq hp, hm, Bool.not_true, Bool.and_false]
  have hopen := h.openFile hv typed mode
  rw [he] at hopen
  exact hopen

theorem guarding_writeFile (typed : Text) (bytes : List UInt8) :
    Keeps (Guarding key data) (writeFile typed bytes) := by
  refine keeps_bind (keeps_query _) fun p => ?_
  refine keeps_bind (guarding_makeDirectories _) fun _ => ?_
  refine keeps_bind (guarding_openFile_write _ (by decide)) fun k => ?_
  refine keeps_closing (guarding_closeFile k) ?_
  exact keeps_bind (guarding_write k bytes) fun _ => keeps_ite (keeps_throw _) (keeps_pure _)

end Opening

section Renaming

/-- A node that a rename leaves alone or takes along keeps its contents and attributes. -/
theorem Movable.lands (hv : v.WellFormed) {top new p : Path} {n m : Node}
    (hm : Movable v top n p new) {k : Path} (hk : v.node? k = some m) :
    ∃ m', (v.moved top n new).node? (landing top p.key k) = some m' ∧ m'.content = m.content ∧
      m'.attributes = m.attributes := by
  refine ⟨_, hm.carries hv hk, ?_, ?_⟩
  · unfold carried
    split <;> split <;> rfl
  · unfold carried
    split <;> split <;> rfl

theorem Protected.moved (h : Protected v key data) (hv : v.WellFormed) {top new p : Path} {n : Node}
    (hm : Movable v top n p new) :
    Protected (v.moved top n new) (Movable.landing top p.key key) data := by
  obtain ⟨m, hn, hc, hro⟩ := h.file
  obtain ⟨m', hm', hc', ha'⟩ := hm.lands hv hn
  refine ⟨⟨m', hm', hc'.trans hc, ha' ▸ hro⟩, fun f hf hk => ?_⟩
  -- A file that is moved is not open, and no other file was open where it comes to stand.
  have hopen : ¬ top <+: f.2.key := not_isUnder_of_isOpen hm.closed hf
  obtain ⟨a, ha, _⟩ := hv.files f hf
  have hkey : f.2.key = key := by
    unfold Movable.landing at hk
    split at hk
    · exact absurd (hm.prefix_of_node? hv ha (hk ▸ List.prefix_append _ _)) hopen
    · exact hk
  exact h.unwritten f hf hkey

theorem Protected.rename (h : Protected v key data) (hv : v.WellFormed) (source target : Text) :
    Protected ((rename source target).after v) ((Operation.rename source target).place v key)
      data := by
  rcases rename_cases source target v with
    ⟨e, hx⟩ | ⟨top, n, p, new, hf, hk, hp, hfree, hb, ho, hnew, hx⟩
  · have hplace : (Operation.rename source target).place v key = key := by
      simp only [Operation.place, hx]
      cases v.find source <;> cases v.resolve target <;> rfl
    rw [after_error hx, hplace]
    exact h
  · have hplace : (Operation.rename source target).place v key =
        Movable.landing top p.key key := by
      simp only [Operation.place, hf, hp, hx]
    obtain ⟨q, _, rfl, hn⟩ := find_ok hf
    rw [after_ok hx, hplace]
    exact h.moved hv ⟨hn, hk, hfree, hb, ho, hnew⟩

end Renaming

section Runs

/-- One operation that does not set the file's attributes. -/
theorem Protected.run (h : Protected v key data) (hv : v.WellFormed) (op : Operation)
    (hop : op.retags v key = false) :
    Protected (op.run v) (op.place v key) (if op.empties v key then .ofList [] else data) := by
  have kept : ∀ {α : Type} {x : VolumeAction α}, Keeps (Guarding key data) x →
      Protected (x.after v) key data := fun hx => (hx v ⟨hv, h⟩).2
  cases op with
  | relabel label => exact h.of_files_eq rfl rfl
  | restamp stamp => exact h.of_files_eq rfl rfl
  | mount => exact h.frame rfl fun p hp => by cases hp
  | changeDirectory typed => exact kept (guarding_changeDirectory typed)
  | makeDirectory typed => exact kept (guarding_makeDirectory typed)
  | makeDirectories typed => exact kept (guarding_makeDirectories typed)
  | unlink typed => exact kept (guarding_unlink typed)
  | rename source target => exact h.rename hv source target
  | setAttributes typed bits => exact h.setAttributes typed bits hop
  | writeFile typed bytes => exact kept (guarding_writeFile typed bytes)
  | openFile typed mode => exact h.openFile hv typed mode
  | closeFile n => exact kept (guarding_closeFile n)
  | read n count => exact kept (guarding_read n count)
  | write n bytes => exact kept (guarding_write n bytes)
  | seek n offset => exact kept (guarding_seek n offset)
  | openListing typed => exact kept (guarding_openListing typed)
  | readListing n => exact kept (guarding_readListing n)
  | closeListing n => exact kept (guarding_closeListing n)

theorem Protected.runAll (h : Protected v key data) (hv : v.WellFormed) (ops : List Operation)
    (hops : retagged v key ops = false) :
    Protected (v.runAll ops) (placeAfter v key ops)
      (if emptied v key ops then .ofList [] else data) := by
  induction ops generalizing v key data with
  | nil => exact h
  | cons op ops ih =>
    rw [retagged_cons, Bool.or_eq_false_iff] at hops
    have hrest := ih (h.run hv op hops.1) (hv.run op) hops.2
    rw [emptied_cons]
    rcases Bool.eq_false_or_eq_true (op.empties v key) with he | he
    · rw [he, if_pos rfl, ite_self] at hrest
      rw [he, Bool.true_or, if_pos rfl]
      exact hrest
    · rw [he, if_neg Bool.false_ne_true] at hrest
      rw [he, Bool.false_or]
      exact hrest

/-- Until its attributes are set, a read-only file that no handle may write stays on the volume,
read-only, wherever renames take it. It has all its bytes as long as it is not opened as a new file
by a mode without write access; such an open leaves it empty. -/
theorem readOnly_of_operations (label : Text) (before ops : List Operation) (key : Path)
    (data : Bytes) (h : Protected ((labelled label).runAll before) key data)
    (hops : retagged ((labelled label).runAll before) key ops = false) :
    ∃ n, (((labelled label).runAll before).runAll ops).node?
        (placeAfter ((labelled label).runAll before) key ops) = some n ∧
      n.attributes.isReadOnly = true ∧
      n.content = .file
        (if emptied ((labelled label).runAll before) key ops then .ofList [] else data) := by
  obtain ⟨n, hn, hc, hro⟩ := (h.runAll ((wellFormed_labelled label).runAll before) ops hops).file
  exact ⟨n, hn, hro, hc⟩

/-- A read-only file is opened for reading, neither emptied nor removed, and moves along with its
directory. -/
theorem readOnly_through_rename :
    ∃ n, (((labelled []).runAll
        [.makeDirectory "d", .writeFile "d/a" [120], .setAttributes "d/a" 1]).runAll
        [.openFile "d/a" (.read ∪ .openAlways), .openFile "d/a" (.write ∪ .createAlways),
          .unlink "d/a", .closeFile 2, .rename "d" "e", .writeFile "e/a" []]).node?
        ["e".toList, "a".toList] = some n ∧
      n.attributes.isReadOnly = true ∧ n.content = .file (.ofList [120]) :=
  readOnly_of_operations []
    [.makeDirectory "d", .writeFile "d/a" [120], .setAttributes "d/a" 1]
    [.openFile "d/a" (.read ∪ .openAlways), .openFile "d/a" (.write ∪ .createAlways),
      .unlink "d/a", .closeFile 2, .rename "d" "e", .writeFile "e/a" []]
    ["d".toList, "a".toList] (.ofList [120]) (by decide +kernel)
    (by decide +kernel)

/-- To be opened as a new file, a read-only file need not be opened for writing. -/
theorem readOnly_emptied_by_open : ¬ ∀ (label : Text) (before ops : List Operation) (key : Path)
    (data : Bytes), Protected ((labelled label).runAll before) key data →
    retagged ((labelled label).runAll before) key ops = false →
    ∃ n ∈ (((labelled label).runAll before).runAll ops).node?
        (placeAfter ((labelled label).runAll before) key ops), n.content = .file data := by
  intro law
  have h := law [] [.writeFile "/a" [120], .setAttributes "/a" 1] [.openFile "/a" .createAlways]
    ["a".toList] (.ofList [120]) (by decide +kernel) (by decide +kernel)
  revert h
  decide +kernel

end Runs

end CardShell.Volume
