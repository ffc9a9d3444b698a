import CardShell.Proofs.Action
import CardShell.Volume.Files

/-!
What each operation of a volume can come to: a failure that leaves the volume alone, or one change,
with all that was checked before it.
-/

set_option autoImplicit false

namespace CardShell.Volume

open CardShell.Action

variable {v : Volume} {key : Path} {n : Node}

theorem find_ok {typed : Text} (h : v.find typed = .ok (key, n)) :
    ∃ p, v.resolve typed = .ok p ∧ key = p.key ∧ v.node? p.key = some n := by
  unfold find at h
  cases hp : v.resolve typed with
  | error e => rw [hp] at h; cases h
  | ok p =>
    rw [hp] at h
    cases hn : v.node? p.key with
    | none => simp [bind, Except.bind, hn] at h
    | some m =>
      simp only [bind, Except.bind, hn, pure, Except.pure] at h
      cases h
      exact ⟨p, rfl, rfl, hn⟩

theorem newPath_ok {p stored : Path} (h : v.newPath p = .ok stored) :
    ∃ d, v.node? p.parent.key = some d ∧ d.isDirectory = true ∧ stored = d.path ++ [p.leaf] := by
  unfold newPath at h
  split at h
  · rename_i d hd
    split at h
    · rename_i hdir
      cases h
      exact ⟨d, hd, hdir, rfl⟩
    · cases h
  · cases h

theorem changeDirectory_cases (typed : Text) (v : Volume) :
    changeDirectory typed v = .error .noPath v ∨
    ∃ key n, v.find typed = .ok (key, n) ∧ n.isDirectory = true ∧
      changeDirectory typed v = .ok () { v with directory := n.path } := by
  unfold changeDirectory
  rw [bind_apply, get_apply]
  simp only
  rcases v.find typed with e | ⟨key, n⟩
  · exact Or.inl rfl
  · simp only
    split
    · rename_i hdir
      exact Or.inr ⟨key, n, rfl, hdir, rfl⟩
    · exact Or.inl rfl

theorem makeDirectoryAt_cases (p : Path) (v : Volume) :
    (∃ e, makeDirectoryAt p v = .error e v) ∨
    ∃ stored, v.node? p.key = none ∧ v.newPath p = .ok stored ∧
      makeDirectoryAt p v = .ok () (v.insert stored .directory) := by
  unfold makeDirectoryAt
  rw [bind_apply, get_apply]
  simp only
  split
  · exact Or.inl ⟨_, rfl⟩
  · rename_i hn
    cases hs : v.newPath p with
    | error e => exact Or.inl ⟨e, rfl⟩
    | ok stored => exact Or.inr ⟨stored, by simpa using hn, rfl, rfl⟩

theorem makeDirectory_cases (typed : Text) (v : Volume) :
    (∃ e, makeDirectory typed v = .error e v) ∨
    ∃ p stored, v.resolve typed = .ok p ∧ v.node? p.key = none ∧ v.newPath p = .ok stored ∧
      makeDirectory typed v = .ok () (v.insert stored .directory) := by
  unfold makeDirectory
  rw [bind_apply, query]
  cases hp : v.resolve typed with
  | error e => exact Or.inl ⟨e, rfl⟩
  | ok p =>
    rcases makeDirectoryAt_cases p v with h | ⟨stored, hn, hs, h⟩
    · exact Or.inl h
    · exact Or.inr ⟨p, stored, rfl, hn, hs, h⟩

theorem ensureDirectory_cases (p : Path) (v : Volume) :
    (∃ e, ensureDirectory p v = .error e v) ∨ ensureDirectory p v = .ok () v ∨
    ∃ stored, v.node? p.key = none ∧ v.newPath p = .ok stored ∧
      ensureDirectory p v = .ok () (v.insert stored .directory) := by
  unfold ensureDirectory
  rw [bind_apply, get_apply]
  simp only
  cases v.node? p.key with
  | some n =>
    simp only
    split
    · exact Or.inr (Or.inl rfl)
    · exact Or.inl ⟨_, rfl⟩
  | none =>
    rcases makeDirectoryAt_cases p v with h | ⟨stored, _, hs, h⟩
    · exact Or.inl h
    · exact Or.inr (Or.inr ⟨stored, rfl, hs, h⟩)

theorem unlink_cases (typed : Text) (v : Volume) :
    (∃ e, unlink typed v = .error e v) ∨
    ∃ key n, v.find typed = .ok (key, n) ∧ key ≠ [] ∧ n.attributes.isReadOnly = false ∧
      (n.isDirectory = true → v.hasChildren key = false ∧ key ≠ v.directory.key) ∧
      v.isOpen key = false ∧ unlink typed v = .ok () { v with nodes := v.nodes.erase key } := by
  unfold unlink
  rw [bind_apply, get_apply]
  simp only
  rcases v.find typed with e | ⟨key, n⟩
  · exact Or.inl ⟨e, rfl⟩
  · simp only [bind_apply, ofExcept_ok]
    split
    · exact Or.inl ⟨_, rfl⟩
    · rename_i hroot
      rw [not_or] at hroot
      split
      · exact Or.inl ⟨_, rfl⟩
      · rename_i hdir
        split
        · exact Or.inl ⟨_, rfl⟩
        · rename_i hopen
          refine Or.inr ⟨key, n, rfl, hroot.1, by simpa using hroot.2, ?_, by simpa using hopen, rfl⟩
          simpa [not_or] using hdir

/-- The volume after the entry `n` at `key`, with all below it, has been moved to `new`. -/
def moved (v : Volume) (key : Path) (n : Node) (new : Path) : Volume :=
  let move (n : Node) : Node := { n with path := Path.reroot new key.length n.path }
  { v with
    nodes := (v.nodes.erase key).put { move n with order := v.nextOrder } new.key
      ((v.nodes.inside key).map move)
    nextOrder := v.nextOrder + 1
    directory :=
      if key.isUnder v.directory.key then Path.reroot new key.length v.directory else v.directory }

/-- What a rename comes to is told by where the target leads, with its last name as it was typed. -/
theorem rename_resolved {source target : Text} {p : Path} (hp : v.resolve target = .ok p) :
    rename source target v = match v.find source with
      | .error e => .error e v
      | .ok (key, n) =>
        if key = [] then .error .denied v
        else if p.key ≠ key ∧ (v.node? p.key).isSome then .error .alreadyExists v
        else if key.isBelow p.key then .error .invalidName v
        else if v.isOpen key then .error .locked v
        else match v.newPath p with
          | .error e => .error e v
          | .ok new => .ok () (v.moved key n new) := by
  unfold rename
  rw [bind_apply, get_apply]
  dsimp only
  rcases v.find source with e | ⟨key, n⟩
  · rfl
  · rw [bind_apply, ofExcept_ok]
    dsimp only
    by_cases hroot : key = []
    · rw [if_pos hroot, if_pos hroot]
      rfl
    · rw [if_neg hroot, if_neg hroot, hp, bind_apply, ofExcept_ok]
      dsimp only
      by_cases hthere : p.key ≠ key ∧ (v.node? p.key).isSome = true
      · rw [if_pos hthere, if_pos hthere]
        rfl
      · rw [if_neg hthere, if_neg hthere]
        by_cases hbelow : key.isBelow p.key = true
        · rw [if_pos hbelow, if_pos hbelow]
          rfl
        · rw [if_neg hbelow, if_neg hbelow]
          by_cases hopen : v.isOpen key = true
          · rw [if_pos hopen, if_pos hopen]
            rfl
          · rw [if_neg hopen, if_neg hopen]
            cases v.newPath p <;> rfl

theorem rename_unresolved {source target : Text} {e : Error} (hp : v.resolve target = .error e) :
    ∃ e, rename source target v = .error e v := by
  unfold rename
  rw [bind_apply, get_apply]
  dsimp only
  rcases v.find source with e' | ⟨key, n⟩
  · exact ⟨e', rfl⟩
  · rw [bind_apply, ofExcept_ok, hp]
    dsimp only
    by_cases hroot : key = []
    · rw [if_pos hroot]
      exact ⟨.denied, rfl⟩
    · rw [if_neg hroot]
      exact ⟨e, rfl⟩

theorem rename_cases (source target : Text) (v : Volume) :
    (∃ e, rename source target v = .error e v) ∨
    ∃ key n p new, v.find source = .ok (key, n) ∧ key ≠ [] ∧ v.resolve target = .ok p ∧
      (p.key ≠ key → v.node? p.key = none) ∧ key.isBelow p.key = false ∧ v.isOpen key = false ∧
      v.newPath p = .ok new ∧ rename source target v = .ok () (v.moved key n new) := by
  cases hp : v.resolve target with
  | error e => exact Or.inl (rename_unresolved hp)
  | ok p =>
    rw [rename_resolved hp]
    rcases v.find source with e | ⟨key, n⟩
    · exact Or.inl ⟨e, rfl⟩
    · dsimp only
      by_cases hroot : key = []
      · rw [if_pos hroot]
        exact Or.inl ⟨.denied, rfl⟩
      · rw [if_neg hroot]
        by_cases hthere : p.key ≠ key ∧ (v.node? p.key).isSome = true
        · rw [if_pos hthere]
          exact Or.inl ⟨.alreadyExists, rfl⟩
        · rw [if_neg hthere]
          by_cases hbelow : key.isBelow p.key = true
          · rw [if_pos hbelow]
            exact Or.inl ⟨.invalidName, rfl⟩
          · rw [if_neg hbelow]
            by_cases hopen : v.isOpen key = true
            · rw [if_pos hopen]
              exact Or.inl ⟨.locked, rfl⟩
            · rw [if_neg hopen]
              cases hnew : v.newPath p with
              | error e => exact Or.inl ⟨e, rfl⟩
              | ok new =>
                refine Or.inr ⟨key, n, p, new, rfl, hroot, rfl, ?_, by simpa using hbelow,
                  by simpa using hopen, hnew, rfl⟩
                simpa using hthere

theorem setAttributes_cases (typed : Text) (bits : UInt8) (v : Volume) :
    (∃ e, setAttributes typed bits v = .error e v) ∨
    ∃ key n, v.find typed = .ok (key, n) ∧
      setAttributes typed bits v = .ok () (v.updateNode key fun n =>
        { n with attributes := ⟨bits &&& ~~~Attributes.directoryBit⟩ }) := by
  unfold setAttributes
  rw [bind_apply, get_apply]
  simp only
  rcases v.find typed with e | ⟨key, n⟩
  · exact Or.inl ⟨e, rfl⟩
  · exact Or.inr ⟨key, n, rfl, rfl⟩

theorem prepare_cases {p : Path} {mode : OpenMode} {w : Volume} (h : v.prepare p mode = .ok w) :
    (∃ n, v.node? p.key = some n ∧ n.isDirectory = false ∧ mode.contains .createNew = false ∧
      (mode.contains .write = true → n.attributes.isReadOnly = false) ∧
      w = if mode.contains .createAlways then
        v.updateNode p.key fun n => { n with content := .file (.ofList []), stamp := v.stamp }
        else v) ∨
    ∃ stored, v.node? p.key = none ∧
      (mode.contains .createNew || mode.contains .createAlways || mode.contains .openAlways) ∧
      v.newPath p = .ok stored ∧ w = v.insert stored (.file (.ofList [])) := by
  unfold prepare at h
  split at h
  · rename_i n hn
    refine Or.inl ⟨n, hn, ?_⟩
    split at h
    · cases h
    · rename_i hdir
      split at h
      · cases h
      · rename_i hnew
        split at h
        · cases h
        · rename_i hro
          refine ⟨by simpa using hdir, by simpa using hnew, by simpa using hro, ?_⟩
          split at h
          · rename_i hc
            cases h
            rw [if_pos hc]
          · rename_i hc
            cases h
            rw [if_neg hc]
  · rename_i hn
    split at h
    · rename_i hmode
      cases hs : v.newPath p with
      | error e => rw [hs] at h; cases h
      | ok stored =>
        rw [hs] at h
        cases h
        exact Or.inr ⟨stored, hn, hmode, rfl, rfl⟩
    · cases h

/-- Handles are none of its concern. -/
theorem handles_prepare {p : Path} {mode : OpenMode} {w : Volume} (h : v.prepare p mode = .ok w) :
    w.files = v.files ∧ w.listings = v.listings ∧ w.issued = v.issued := by
  rcases prepare_cases h with ⟨n, _, _, _, _, rfl⟩ | ⟨stored, _, _, _, rfl⟩
  · split
    · unfold updateNode
      split <;> exact ⟨rfl, rfl, rfl⟩
    · exact ⟨rfl, rfl, rfl⟩
  · exact ⟨rfl, rfl, rfl⟩

/-- A volume with a file opened under the next handle. -/
def withHandle (v : Volume) (f : OpenFile) : Volume :=
  { v with issued := v.issued + 1, files := v.files.set v.nextHandle f }

/-- Where a file is opened: at its end for appending, and at its start otherwise. -/
def openingPosition (v : Volume) (key : Path) (mode : OpenMode) : Except Error Nat :=
  if mode.contains .append then (v.dataAt key).map Bytes.size else .ok 0

/-- What opening comes to is told by where the path leads, with its last name as it was typed. -/
theorem openFile_resolved {typed : Text} {p : Path} (hp : v.resolve typed = .ok p) (mode : OpenMode) :
    openFile typed mode v = match v.prepare p mode with
      | .error e => .error e v
      | .ok w => match w.openingPosition p.key mode with
        | .error e => .error e w
        | .ok position => .ok w.nextHandle (w.withHandle ⟨p.key, position, mode⟩) := by
  unfold openFile openingPosition
  simp only [bind_apply, get_apply, hp, ofExcept_ok]
  cases v.prepare p mode with
  | error e => rfl
  | ok w =>
    simp only [ofExcept_ok, set_apply]
    by_cases ha : mode.contains .append = true
    · simp only [if_pos ha, bind_apply, map_apply, query]
      cases w.dataAt p.key <;> rfl
    · simp only [if_neg ha]
      rfl

/-- After the tree is prepared, an open can only fail on the way to the end of the file. -/
theorem openFile_prepared {typed : Text} {mode : OpenMode} {p : Path} {w : Volume}
    (hp : v.resolve typed = .ok p) (hw : v.prepare p mode = .ok w) :
    (∃ e, mode.contains .append = true ∧ w.dataAt p.key = .error e ∧
      openFile typed mode v = .error e w) ∨
    ∃ position, (mode.contains .append = false → position = 0) ∧
      openFile typed mode v = .ok w.nextHandle (w.withHandle ⟨p.key, position, mode⟩) := by
  rw [openFile_resolved hp, hw]
  dsimp only
  unfold openingPosition
  by_cases ha : mode.contains .append = true
  · rw [if_pos ha]
    cases hd : w.dataAt p.key with
    | error e => exact Or.inl ⟨e, ha, rfl, rfl⟩
    | ok data => exact Or.inr ⟨data.size, fun h => absurd ha (by simp [h]), rfl⟩
  · rw [if_neg ha]
    exact Or.inr ⟨0, fun _ => rfl, rfl⟩

/-- A file that is there is opened at its end for appending, and at its start otherwise. -/
theorem openFile_positioned {typed : Text} {mode : OpenMode} {p : Path} {w : Volume} {data : Bytes}
    (hp : v.resolve typed = .ok p) (hw : v.prepare p mode = .ok w) (hd : w.dataAt p.key = .ok data) :
    openFile typed mode v = .ok w.nextHandle
      (w.withHandle ⟨p.key, if mode.contains .append then data.size else 0, mode⟩) := by
  have hposition : w.openingPosition p.key mode =
      .ok (if mode.contains .append then data.size else 0) := by
    unfold openingPosition
    rw [hd]
    split <;> rfl
  rw [openFile_resolved hp, hw]
  dsimp only
  rw [hposition]

theorem openFile_unresolved {typed : Text} {e : Error} (mode : OpenMode)
    (hp : v.resolve typed = .error e) : openFile typed mode v = .error e v := by
  unfold openFile
  rw [bind_apply, get_apply]
  simp only [hp, bind_apply, ofExcept_error]

theorem openFile_unprepared {typed : Text} {mode : OpenMode} {p : Path} {e : Error}
    (hp : v.resolve typed = .ok p) (hw : v.prepare p mode = .error e) :
    openFile typed mode v = .error e v := by
  rw [openFile_resolved hp, hw]

theorem openFile_cases (typed : Text) (mode : OpenMode) (v : Volume) :
    (∃ e, openFile typed mode v = .error e v) ∨
    ∃ p w, v.resolve typed = .ok p ∧ v.prepare p mode = .ok w ∧
      ((∃ e, mode.contains .append = true ∧ w.dataAt p.key = .error e ∧
          openFile typed mode v = .error e w) ∨
        ∃ position, (mode.contains .append = false → position = 0) ∧
          openFile typed mode v = .ok w.nextHandle (w.withHandle ⟨p.key, position, mode⟩)) := by
  cases hp : v.resolve typed with
  | error e => exact Or.inl ⟨e, openFile_unresolved mode hp⟩
  | ok p =>
    cases hw : v.prepare p mode with
    | error e => exact Or.inl ⟨e, openFile_unprepared hp hw⟩
    | ok w => exact Or.inr ⟨p, w, rfl, hw, openFile_prepared hp hw⟩

theorem closeFile_ok {h : Nat} (hh : v.files.has h = true) :
    closeFile h v = .ok () { v with files := v.files.erase h } := by
  unfold closeFile
  rw [bind_apply, get_apply]
  simp only
  rw [if_pos hh]
  rfl

theorem closeFile_cases (h : Nat) (v : Volume) :
    closeFile h v = .error .invalidObject v ∨
    v.files.has h = true ∧ closeFile h v = .ok () { v with files := v.files.erase h } := by
  unfold closeFile
  rw [bind_apply, get_apply]
  simp only
  split
  · rename_i hh
    exact Or.inr ⟨hh, rfl⟩
  · exact Or.inl rfl

theorem after_closeFile (h : Nat) (v : Volume) :
    (closeFile h).after v = { v with files := v.files.erase h } := by
  unfold closeFile
  rw [after_bind_ok (get_apply v)]
  split
  · rfl
  · rename_i hh
    rw [Table.erase_of_has (by simpa using hh)]
    rfl

theorem openFile?_of_get? {h : Nat} {f : OpenFile} (hf : v.files.get? h = some f) :
    v.openFile? h = .ok f := by
  unfold openFile?
  rw [hf]

theorem openFile?_ok {h : Nat} {f : OpenFile} (hf : v.openFile? h = .ok f) :
    v.files.get? h = some f := by
  unfold openFile? at hf
  split at hf
  · rename_i g hg
    cases hf
    exact hg
  · cases hf

theorem dataAt_ok {data : Bytes} (h : v.dataAt key = .ok data) :
    ∃ n, v.node? key = some n ∧ n.content = .file data := by
  unfold dataAt at h
  split at h
  · rename_i d hd
    cases h
    obtain ⟨n, hn, hdata⟩ := Option.bind_eq_some_iff.mp hd
    refine ⟨n, hn, ?_⟩
    unfold Node.data? at hdata
    split at hdata
    · rename_i d' hc
      cases hdata
      exact hc
    · cases hdata
  · cases h

theorem read_ok {h : Nat} {f : OpenFile} {data : Bytes} (count : Nat) (hf : v.openFile? h = .ok f)
    (hm : f.mode.contains .read = true) (hd : v.dataAt f.key = .ok data) :
    read h count v = .ok (data.slice f.position count) (v.updateFile h fun g =>
      { g with position := g.position + (data.slice f.position count).length }) := by
  unfold read
  rw [bind_apply, get_apply]
  simp only [hf, bind_apply, ofExcept_ok, hm, Bool.not_true]
  rw [if_neg (by decide), bind_apply, hd]
  rfl

theorem read_refused {h : Nat} {e : Error} (count : Nat) (hf : v.openFile? h = .error e) :
    read h count v = .error e v := by
  unfold read
  rw [bind_apply, get_apply]
  simp only [hf, bind_apply, ofExcept_error]

theorem read_denied {h : Nat} {f : OpenFile} (count : Nat) (hf : v.openFile? h = .ok f)
    (hm : f.mode.contains .read = false) : read h count v = .error .denied v := by
  unfold read
  rw [bind_apply, get_apply]
  simp only [hf, bind_apply, ofExcept_ok, hm, Bool.not_false]
  rfl

theorem read_cases (h count : Nat) (v : Volume) :
    (∃ e, read h count v = .error e v) ∨
    ∃ f data, v.openFile? h = .ok f ∧ f.mode.contains .read = true ∧ v.dataAt f.key = .ok data ∧
      read h count v = .ok (data.slice f.position count) (v.updateFile h fun g =>
        { g with position := g.position + (data.slice f.position count).length }) := by
  cases hf : v.openFile? h with
  | error e => exact Or.inl ⟨e, read_refused count hf⟩
  | ok f =>
    cases hm : f.mode.contains .read with
    | false => exact Or.inl ⟨.denied, read_denied count hf hm⟩
    | true =>
      cases hd : v.dataAt f.key with
      | error e =>
        refine Or.inl ⟨e, ?_⟩
        unfold read
        rw [bind_apply, get_apply]
        simp only [hf, bind_apply, ofExcept_ok, hm, Bool.not_true]
        rw [if_neg (by decide), bind_apply, hd]
        rfl
      | ok data => exact Or.inr ⟨f, data, rfl, hm, hd, read_ok count hf hm hd⟩

theorem write_ok {h : Nat} {f : OpenFile} {data : Bytes} (bytes : List UInt8)
    (hf : v.openFile? h = .ok f) (hm : f.mode.contains .write = true) (hd : v.dataAt f.key = .ok data) :
    write h bytes v = .ok bytes.length ((v.updateNode f.key fun n =>
      { n with content := .file (data.splice f.position bytes), stamp := v.stamp }).updateFile h
        fun f => { f with position := f.position + bytes.length }) := by
  unfold write
  rw [bind_apply, get_apply]
  simp only [hf, bind_apply, ofExcept_ok, hm, Bool.not_true]
  rw [if_neg (by decide), bind_apply, hd]
  rfl

theorem write_refused {h : Nat} {e : Error} (bytes : List UInt8) (hf : v.openFile? h = .error e) :
    write h bytes v = .error e v := by
  unfold write
  rw [bind_apply, get_apply]
  simp only [hf, bind_apply, ofExcept_error]

theorem write_denied {h : Nat} {f : OpenFile} (bytes : List UInt8) (hf : v.openFile? h = .ok f)
    (hm : f.mode.contains .write = false) : write h bytes v = .error .denied v := by
  unfold write
  rw [bind_apply, get_apply]
  simp only [hf, bind_apply, ofExcept_ok, hm, Bool.not_false]
  rfl

theorem write_cases (h : Nat) (bytes : List UInt8) (v : Volume) :
    (∃ e, write h bytes v = .error e v) ∨
    ∃ f data, v.openFile? h = .ok f ∧ f.mode.contains .write = true ∧ v.dataAt f.key = .ok data ∧
      write h bytes v = .ok bytes.length ((v.updateNode f.key fun n =>
        { n with content := .file (data.splice f.position bytes), stamp := v.stamp }).updateFile h
          fun f => { f with position := f.position + bytes.length }) := by
  cases hf : v.openFile? h with
  | error e => exact Or.inl ⟨e, write_refused bytes hf⟩
  | ok f =>
    cases hm : f.mode.contains .write with
    | false => exact Or.inl ⟨.denied, write_denied bytes hf hm⟩
    | true =>
      cases hd : v.dataAt f.key with
      | error e =>
        refine Or.inl ⟨e, ?_⟩
        unfold write
        rw [bind_apply, get_apply]
        simp only [hf, bind_apply, ofExcept_ok, hm, Bool.not_true]
        rw [if_neg (by decide), bind_apply, hd]
        rfl
      | ok data => exact Or.inr ⟨f, data, rfl, hm, hd, write_ok bytes hf hm hd⟩

theorem seek_refused {h : Nat} {e : Error} (offset : Nat) (hf : v.openFile? h = .error e) :
    seek h offset v = .error e v := by
  unfold seek
  rw [bind_apply, get_apply]
  simp only [hf, bind_apply, ofExcept_error]

/-- Where the file is there, a seek goes where it was sent, or to the end of a file that may not
grow. -/
theorem seek_ok {h : Nat} {f : OpenFile} {data : Bytes} (offset : Nat) (hf : v.openFile? h = .ok f)
    (hd : v.dataAt f.key = .ok data) :
    (data.size < offset ∧ f.mode.contains .write = true ∧
      seek h offset v = .ok () ((v.updateNode f.key fun n =>
        { n with content := .file (data.extend offset) }).updateFile h
          fun f => { f with position := offset })) ∨
      ¬ (data.size < offset ∧ f.mode.contains .write = true) ∧
      seek h offset v = .ok () (v.updateFile h
        fun f => { f with position := min offset data.size }) := by
  unfold seek
  rw [bind_apply, get_apply]
  simp only [hf, bind_apply, ofExcept_ok, hd]
  split
  · rename_i hg
    exact Or.inl ⟨hg.1, hg.2, rfl⟩
  · rename_i hg
    exact Or.inr ⟨hg, rfl⟩

theorem seek_cases (h offset : Nat) (v : Volume) :
    (∃ e, seek h offset v = .error e v) ∨
    ∃ f data, v.openFile? h = .ok f ∧ v.dataAt f.key = .ok data ∧
      ((data.size < offset ∧ f.mode.contains .write = true ∧
        seek h offset v = .ok () ((v.updateNode f.key fun n =>
          { n with content := .file (data.extend offset) }).updateFile h
            fun f => { f with position := offset })) ∨
        ¬ (data.size < offset ∧ f.mode.contains .write = true) ∧
        seek h offset v = .ok () (v.updateFile h
          fun f => { f with position := min offset data.size })) := by
  cases hf : v.openFile? h with
  | error e => exact Or.inl ⟨e, seek_refused offset hf⟩
  | ok f =>
    cases hd : v.dataAt f.key with
    | error e =>
      refine Or.inl ⟨e, ?_⟩
      unfold seek
      rw [bind_apply, get_apply]
      simp only [hf, bind_apply, ofExcept_ok, hd, ofExcept_error]
    | ok data => exact Or.inr ⟨f, data, rfl, hd, seek_ok offset hf hd⟩

theorem openListing_cases (typed : Text) (v : Volume) :
    (∃ e, openListing typed v = .error e v) ∨
    ∃ key n, v.find typed = .ok (key, n) ∧ n.isDirectory = true ∧
      openListing typed v = .ok v.nextHandle { v with
        issued := v.issued + 1
        listings := v.listings.set v.nextHandle (v.children key) } := by
  unfold openListing
  rw [bind_apply, get_apply]
  simp only
  rcases v.find typed with e | ⟨key, n⟩
  · cases e <;> exact Or.inl ⟨_, rfl⟩
  · simp only
    split
    · exact Or.inl ⟨_, rfl⟩
    · rename_i hdir
      exact Or.inr ⟨key, n, rfl, by simpa using hdir, rfl⟩

theorem readListing_cases (h : Nat) (v : Volume) :
    readListing h v = .error .invalidObject v ∨
    v.listings.get? h = some [] ∧ readListing h v = .ok none v ∨
    ∃ e es, v.listings.get? h = some (e :: es) ∧
      readListing h v = .ok (some e) { v with listings := v.listings.set h es } := by
  unfold readListing
  rw [bind_apply, get_apply]
  simp only
  rcases v.listings.get? h with _ | _ | ⟨e, es⟩
  · exact Or.inl rfl
  · exact Or.inr (Or.inl ⟨rfl, rfl⟩)
  · exact Or.inr (Or.inr ⟨e, es, rfl, rfl⟩)

theorem closeListing_cases (h : Nat) (v : Volume) :
    closeListing h v = .error .invalidObject v ∨
    v.listings.has h = true ∧
      closeListing h v = .ok () { v with listings := v.listings.erase h } := by
  unfold closeListing
  rw [bind_apply, get_apply]
  simp only
  split
  · rename_i hh
    exact Or.inr ⟨hh, rfl⟩
  · exact Or.inl rfl

theorem after_closeListing (h : Nat) (v : Volume) :
    (closeListing h).after v = { v with listings := v.listings.erase h } := by
  unfold closeListing
  rw [after_bind_ok (get_apply v)]
  split
  · rfl
  · rename_i hh
    rw [Table.erase_of_has (by simpa using hh)]
    rfl

end CardShell.Volume
