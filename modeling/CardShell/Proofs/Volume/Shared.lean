import CardShell.Proofs.Volume.Written

/-!
Open files as programs see them. Each file is one array of bytes, which all handles on it share, and
each handle is a file, a mode and a position. Reading, writing and seeking are described on these
alone; the volume does just that, whatever else it keeps.
-/

set_option autoImplicit false

namespace CardShell

/-- The bytes of the files, each under its key, and the open handles. -/
structure Sharing where
  bytes : Path → List UInt8
  handles : Nat → Option OpenFile

inductive Access
  | read (h count : Nat)
  | write (h : Nat) (data : List UInt8)
  | seek (h offset : Nat)
  deriving DecidableEq, Repr

inductive Answer
  | bytes (data : List UInt8)
  | count (n : Nat)
  | done
  | refused (e : Error)
  deriving DecidableEq, Repr

def Access.handle : Access → Nat
  | read h _ => h
  | write h _ => h
  | seek h _ => h

def Access.operation : Access → Volume.Operation
  | read h count => .read h count
  | write h data => .write h data
  | seek h offset => .seek h offset

/-- `b` with `data` in place from `position` on, and zeros in the gap if `b` ends before it. -/
def overlay (b : List UInt8) (position : Nat) (data : List UInt8) : List UInt8 :=
  b.take position ++ List.replicate (position - b.length) 0 ++ data ++ b.drop (position + data.length)

namespace Sharing

def put (s : Sharing) (key : Path) (b : List UInt8) : Sharing :=
  { s with bytes := fun k => if k = key then b else s.bytes k }

def move (s : Sharing) (h : Nat) (f : OpenFile) (position : Nat) : Sharing :=
  { s with handles := fun j => if j = h then some { f with position := position } else s.handles j }

/-- A read gives what lies between the position and the end of the file, as far as it was asked for; a
write puts all it was given in place; a seek behind the end needs a handle that writes. -/
def access (s : Sharing) (a : Access) : Answer × Sharing :=
  match s.handles a.handle with
  | none => (.refused .invalidObject, s)
  | some f =>
    let b := s.bytes f.key
    match a with
    | .read h count =>
      if f.mode.contains .read then
        let data := (b.drop f.position).take count
        (.bytes data, s.move h f (f.position + data.length))
      else (.refused .denied, s)
    | .write h data =>
      if f.mode.contains .write then
        (.count data.length,
          (s.put f.key (overlay b f.position data)).move h f (f.position + data.length))
      else (.refused .denied, s)
    | .seek h offset =>
      if offset ≤ b.length then (.done, s.move h f offset)
      else if f.mode.contains .write then
        (.done, (s.put f.key (b ++ List.replicate (offset - b.length) 0)).move h f offset)
      else (.done, s.move h f b.length)

/-- What an access leaves alone, and what a handle may not do. -/
structure Apart (s : Sharing) (a : Access) (answer : Answer) (t : Sharing) : Prop where
  others : ∀ h, h ≠ a.handle → t.handles h = s.handles h
  same : (t.handles a.handle).map (fun f => (f.key, f.mode)) =
    (s.handles a.handle).map fun f => (f.key, f.mode)
  elsewhere : ∀ key, (∀ f, s.handles a.handle = some f → f.key ≠ key) → t.bytes key = s.bytes key
  unread : ∀ f, s.handles a.handle = some f → f.mode.contains .read = false →
    ∀ data, answer ≠ .bytes data
  unwritten : ∀ f, s.handles a.handle = some f → f.mode.contains .write = false →
    t.bytes = s.bytes ∧ ∀ n, answer ≠ .count n

namespace Apart

variable {s : Sharing} {a : Access} {answer : Answer} {f : OpenFile}

theorem refused (s : Sharing) (a : Access) (e : Error) : Apart s a (.refused e) s :=
  ⟨fun _ _ => rfl, rfl, fun _ _ => rfl, by simp, by simp⟩

theorem moved (hf : s.handles a.handle = some f) (position : Nat)
    (hr : f.mode.contains .read = false → ∀ data, answer ≠ .bytes data)
    (hw : ∀ n, answer ≠ .count n) : Apart s a answer (s.move a.handle f position) := by
  refine ⟨fun h hh => if_neg hh, ?_, fun _ _ => rfl, fun g hg hm => ?_, fun _ _ _ => ⟨rfl, hw⟩⟩
  · simp [move, hf]
  · rw [hf] at hg
    cases hg
    exact hr hm

theorem put (hf : s.handles a.handle = some f) (hw : f.mode.contains .write = true)
    (b : List UInt8) (position : Nat) (hr : ∀ data, answer ≠ .bytes data) :
    Apart s a answer ((s.put f.key b).move a.handle f position) := by
  refine ⟨fun h hh => if_neg hh, ?_, fun key hkey => if_neg (Ne.symm (hkey f hf)), fun _ _ _ => hr,
    fun g hg hm => ?_⟩
  · simp [move, hf]
  · rw [hf] at hg
    cases hg
    rw [hm] at hw
    cases hw

end Apart

theorem apart_access (s : Sharing) (a : Access) : Apart s a (s.access a).1 (s.access a).2 := by
  unfold access
  cases hf : s.handles a.handle with
  | none => exact Apart.refused s a _
  | some f =>
    cases a with
    | read h count =>
      dsimp only
      split
      · rename_i hm
        exact Apart.moved hf _ (by simp [hm]) (by simp)
      · exact Apart.refused s _ _
    | write h data =>
      dsimp only
      split
      · rename_i hm
        exact Apart.put hf hm _ _ (by simp)
      · exact Apart.refused s _ _
    | seek h offset =>
      dsimp only
      split
      · exact Apart.moved hf _ (by simp) (by simp)
      · split
        · rename_i hm
          exact Apart.put hf hm _ _ (by simp)
        · exact Apart.moved hf _ (by simp) (by simp)

end Sharing

/-- A row of accesses, with all answers. -/
def accessAll {σ : Type} (access : σ → Access → Answer × σ) : σ → List Access → List Answer × σ
  | s, [] => ([], s)
  | s, a :: as =>
    let (answer, s) := access s a
    let (answers, s) := accessAll access s as
    (answer :: answers, s)

namespace Volume

open CardShell.Action

variable {v w : Volume} {key : Path} {n : Node} {h : Nat} {f : OpenFile}

/-- What programs see of a volume's open files. -/
def sharing (v : Volume) : Sharing where
  bytes key := (((v.node? key).bind Node.data?).map Bytes.toList).getD []
  handles h := v.files.get? h

def answered {α : Type} (answer : α → Answer) : EStateM.Result Error Volume α → Answer × Volume
  | .ok a w => (answer a, w)
  | .error e w => (.refused e, w)

def access (v : Volume) : Access → Answer × Volume
  | .read h count => answered .bytes (read h count v)
  | .write h data => answered .count (write h data v)
  | .seek h offset => answered (fun _ => .done) (seek h offset v)

theorem sharing_bytes {data : Bytes} (hd : v.dataAt key = .ok data) :
    v.sharing.bytes key = data.toList := by
  obtain ⟨n, hn, hc⟩ := dataAt_ok hd
  simp [sharing, hn, Node.data?, hc]

theorem sharing_updateFile (hf : v.files.get? h = some f) (position : OpenFile → Nat) :
    (v.updateFile h fun f => { f with position := position f }).sharing =
      v.sharing.move h f (position f) := by
  unfold updateFile
  rw [hf]
  unfold sharing Sharing.move
  congr 1
  funext j
  by_cases hj : j = h
  · subst hj
    simp
  · simp [hj, Table.get?_set_of_ne]

theorem sharing_updateNode {old new : Bytes} (hd : v.dataAt key = .ok old) {g : Node → Node}
    (hg : ∀ n, (g n).content = .file new) :
    (v.updateNode key g).sharing = v.sharing.put key new.toList := by
  obtain ⟨n, hn, _⟩ := dataAt_ok hd
  unfold sharing Sharing.put
  rw [files_updateNode]
  congr 1
  funext k
  rw [node?_updateNode]
  by_cases hk : k = key
  · subst hk
    simp [hn, Node.data?, hg]
  · simp [hk]

theorem toList_overlay (data : Bytes) (position : Nat) (l : List UInt8) :
    (data.splice position l).toList = overlay data.toList position l := by
  rw [Bytes.toList_splice, Bytes.toList_extend]
  simp [overlay, List.take_append]

section OneAccess

/-- An open file is there, as a file. -/
theorem WellFormed.dataAt (hv : v.WellFormed) (hf : v.files.get? h = some f) :
    ∃ data, v.dataAt f.key = .ok data := by
  obtain ⟨n, hn, hfile⟩ := hv.files _ (mem_of_get? hf)
  unfold Node.isDirectory at hfile
  cases hc : n.content with
  | file data => exact ⟨data, dataAt_of_content hn hc⟩
  | directory =>
    rw [hc] at hfile
    cases hfile

theorem access_unopened {a : Access} (hf : v.files.get? a.handle = none) :
    v.access a = (.refused .invalidObject, v) := by
  have hopen : v.openFile? a.handle = .error .invalidObject := by
    rw [openFile?, hf]
  cases a with
  | read h count =>
    dsimp only [Access.handle] at hopen
    rw [access, read_refused count hopen, answered]
  | write h data =>
    dsimp only [Access.handle] at hopen
    rw [access, write_refused data hopen, answered]
  | seek h offset =>
    dsimp only [Access.handle] at hopen
    rw [access, seek_refused offset hopen, answered]

theorem read_sharing (hv : v.WellFormed) (hf : v.files.get? h = some f) (count : Nat) :
    (v.access (.read h count)).1 = (v.sharing.access (.read h count)).1 ∧
    (v.access (.read h count)).2.sharing = (v.sharing.access (.read h count)).2 := by
  have hview : v.sharing.handles h = some f := hf
  have hopen := openFile?_of_get? hf
  simp only [Sharing.access, Access.handle, hview]
  cases hm : f.mode.contains .read with
  | false =>
    rw [access, read_denied count hopen hm]
    exact ⟨rfl, rfl⟩
  | true =>
    obtain ⟨data, hd⟩ := hv.dataAt hf
    rw [access, read_ok count hopen hm hd, answered, sharing_bytes hd, ← Bytes.slice_eq]
    exact ⟨rfl, sharing_updateFile hf fun f => f.position + (data.slice _ count).length⟩

theorem write_sharing (hv : v.WellFormed) (hf : v.files.get? h = some f) (l : List UInt8) :
    (v.access (.write h l)).1 = (v.sharing.access (.write h l)).1 ∧
    (v.access (.write h l)).2.sharing = (v.sharing.access (.write h l)).2 := by
  have hview : v.sharing.handles h = some f := hf
  have hopen := openFile?_of_get? hf
  simp only [Sharing.access, Access.handle, hview]
  cases hm : f.mode.contains .write with
  | false =>
    rw [access, write_denied l hopen hm]
    exact ⟨rfl, rfl⟩
  | true =>
    obtain ⟨data, hd⟩ := hv.dataAt hf
    rw [access, write_ok l hopen hm hd, answered, sharing_bytes hd, ← toList_overlay]
    refine ⟨rfl, ?_⟩
    rw [sharing_updateFile (by rw [files_updateNode]; exact hf) fun f => f.position + l.length,
      sharing_updateNode hd fun _ => rfl]
    rfl

theorem seek_sharing (hv : v.WellFormed) (hf : v.files.get? h = some f) (offset : Nat) :
    (v.access (.seek h offset)).1 = (v.sharing.access (.seek h offset)).1 ∧
    (v.access (.seek h offset)).2.sharing = (v.sharing.access (.seek h offset)).2 := by
  have hview : v.sharing.handles h = some f := hf
  have hopen := openFile?_of_get? hf
  obtain ⟨data, hd⟩ := hv.dataAt hf
  simp only [Sharing.access, Access.handle, hview, sharing_bytes hd, Bytes.length_toList]
  rcases seek_ok offset hopen hd with ⟨hlt, hm, hx⟩ | ⟨hstop, hx⟩
  · rw [access, hx, answered, if_neg (by omega), if_pos hm]
    refine ⟨rfl, ?_⟩
    rw [sharing_updateFile (by rw [files_updateNode]; exact hf) fun _ => offset,
      sharing_updateNode hd fun _ => rfl, Bytes.toList_extend]
  · rw [access, hx, answered]
    have hmove := sharing_updateFile hf fun _ => min offset data.size
    by_cases hle : offset ≤ data.size
    · rw [if_pos hle]
      rw [Nat.min_eq_left hle] at hmove ⊢
      exact ⟨rfl, hmove⟩
    · have hm : ¬ f.mode.contains .write = true := fun hm => hstop ⟨by omega, hm⟩
      rw [if_neg hle, if_neg hm]
      rw [Nat.min_eq_right (by omega)] at hmove ⊢
      exact ⟨rfl, hmove⟩

/-- The volume answers as its view does, and its view moves as the view says. -/
theorem access_sharing (hv : v.WellFormed) (a : Access) :
    (v.access a).1 = (v.sharing.access a).1 ∧ (v.access a).2.sharing = (v.sharing.access a).2 := by
  cases hf : v.files.get? a.handle with
  | none =>
    have hview : v.sharing.handles a.handle = none := hf
    rw [access_unopened hf, Sharing.access, hview]
    exact ⟨rfl, rfl⟩
  | some f =>
    cases a with
    | read h count => exact read_sharing hv hf count
    | write h data => exact write_sharing hv hf data
    | seek h offset => exact seek_sharing hv hf offset

end OneAccess

section Accesses

theorem answered_after {α : Type} (answer : α → Answer) (x : VolumeAction α) (v : Volume) :
    (answered answer (x v)).2 = x.after v := by
  unfold answered Action.after
  cases x v <;> rfl

theorem access_run (v : Volume) (a : Access) : (v.access a).2 = a.operation.run v := by
  cases a <;> exact answered_after _ _ v

theorem accessAll_sharing (hv : v.WellFormed) (accesses : List Access) :
    let done := accessAll access v accesses
    let seen := accessAll Sharing.access v.sharing accesses
    done.1 = seen.1 ∧ done.2.sharing = seen.2 ∧
      done.2 = v.runAll (accesses.map Access.operation) := by
  induction accesses generalizing v with
  | nil => exact ⟨rfl, rfl, rfl⟩
  | cons a accesses ih =>
    obtain ⟨hanswer, hview⟩ := access_sharing hv a
    have hrun := access_run v a
    have hnext := hv.run a.operation
    rw [← hrun] at hnext
    obtain ⟨hanswers, hviews, hvolume⟩ := ih hnext
    rw [hview] at hanswers hviews
    refine ⟨?_, hviews, ?_⟩
    · simp only [accessAll, hanswer, hanswers]
    · rw [List.map_cons, runAll, List.foldl_cons, ← hrun]
      exact hvolume

end Accesses

section Others

/-- What becomes of handle `h`: it stays as it is, unless it is closed or new. -/
inductive HandleAfter (v : Volume) (op : Operation) (h : Nat) (w : Volume) : Prop
  | kept (stays : w.files.get? h = v.files.get? h)
  | gone (closing : op = .mount ∨ op = .closeFile h) (none : w.files.get? h = none)
  | opened (typed : Text) (mode : OpenMode) (p : Path) (opening : op = .openFile typed mode)
      (leads : v.resolve typed = .ok p) (free : v.files.get? h = none)
      (there : w.files.get? h = some
        ⟨p.key, if mode.contains .append then (w.sharing.bytes p.key).length else 0, mode⟩)

/-- What becomes of the bytes of an open file: they stay as they are, unless that very file is emptied
by an open or written as a whole. -/
inductive BytesAfter (v : Volume) (op : Operation) (key : Path) (w : Volume) : Prop
  | kept (stay : w.sharing.bytes key = v.sharing.bytes key)
  | emptied (typed : Text) (mode : OpenMode) (p : Path) (opening : op = .openFile typed mode)
      (always : mode.contains .createAlways = true) (leads : v.resolve typed = .ok p)
      (same : p.key = key) (empty : w.sharing.bytes key = [])
  | replaced (typed : Text) (data : List UInt8) (p : Path) (writing : op = .writeFile typed data)
      (leads : v.resolve typed = .ok p) (same : p.key = key) (there : w.sharing.bytes key = data)

theorem bytes_of_node? (hk : w.node? key = v.node? key) : w.sharing.bytes key = v.sharing.bytes key := by
  simp only [sharing, hk]

theorem Entered.bytes_kept {ns : List Node} (h : Entered v ns w) (hn : v.node? key = some n) :
    w.sharing.bytes key = v.sharing.bytes key :=
  bytes_of_node? ((h.kept hn).trans hn.symm)

theorem bytes_of_content (hn : w.node? key = some n) {data : List UInt8}
    (hc : n.content = .file (.ofList data)) : w.sharing.bytes key = data := by
  simp [sharing, hn, Node.data?, hc]

theorem bytesAfter_openFile (hv : v.WellFormed) (hn : v.node? key = some n) (typed : Text)
    (mode : OpenMode) : BytesAfter v (.openFile typed mode) key ((openFile typed mode).after v) := by
  rcases openFile_atomic_cases hv typed mode with ⟨e, hx⟩ | ⟨p, t, _, position, hp, ht, _, hx⟩
  · rw [after_error hx]
    exact .kept rfl
  · rw [after_ok hx]
    rcases prepare_cases ht with ⟨m, hm, _, _, _, rfl⟩ | ⟨stored, hnone, _, hs, rfl⟩
    · by_cases hc : mode.contains .createAlways = true
      · rw [if_pos hc]
        have hnode := node?_updateNode v p.key fun n =>
          { n with content := .file (.ofList []), stamp := v.stamp }
        by_cases hk : p.key = key
        · have hempty : (v.updateNode p.key fun n =>
              { n with content := .file (.ofList []), stamp := v.stamp }).node? key =
                some { n with content := .file (.ofList []), stamp := v.stamp } := by
            rw [hnode, if_pos hk.symm, hn, Option.map_some]
          exact .emptied typed mode p rfl hc hp hk (bytes_of_content hempty rfl)
        · exact .kept (bytes_of_node? ((hnode key).trans (if_neg (Ne.symm hk))))
      · rw [if_neg hc]
        exact .kept rfl
    · exact .kept ((entered_insert hv hnone hs (.file (.ofList []))).2.bytes_kept hn)

theorem bytesAfter_writeFile (hv : v.WellFormed) (hn : v.node? key = some n) (typed : Text)
    (data : List UInt8) : BytesAfter v (.writeFile typed data) key ((writeFile typed data).after v) := by
  rcases atomic_writeFile hv typed data with ⟨_, w, hx⟩ | ⟨e, hx⟩
  · rw [after_ok hx]
    obtain ⟨p, hp, _, _, hshows⟩ := shows_of_writeFile hv hx
    by_cases hk : p.key = key
    · obtain ⟨m, hm, hc, _⟩ := hshows.file
      exact .replaced typed data p rfl hp hk (bytes_of_content (hk ▸ hm) hc)
    · exact .kept (bytes_of_node? ((hshows.kept key n (Ne.symm hk) hn).trans hn.symm))
  · rw [after_error hx]
    exact .kept rfl

theorem bytesAfter_run (hv : v.WellFormed) (op : Operation) (hop : ∀ a, op ≠ Access.operation a)
    (hf : v.files.get? h = some f) : BytesAfter v op f.key (op.run v) := by
  have hmem := mem_of_get? hf
  obtain ⟨n, hn, _⟩ := hv.files _ hmem
  cases hnodes : op.leavesNodes with
  | true => exact .kept (bytes_of_node? (node?_run hnodes v f.key))
  | false =>
    cases op with
    | makeDirectory typed =>
      refine .kept ?_
      dsimp only [Operation.run]
      rcases makeDirectory_cases typed v with ⟨e, hx⟩ | ⟨p, stored, _, hnone, hs, hx⟩
      · rw [after_error hx]
      · rw [after_ok hx]
        exact (entered_insert hv hnone hs .directory).2.bytes_kept hn
    | makeDirectories typed =>
      refine .kept ?_
      dsimp only [Operation.run]
      rcases atomic_makeDirectories hv typed with ⟨_, w, hx⟩ | ⟨e, hx⟩
      · rw [after_ok hx]
        obtain ⟨_, _, _, _, ns, hns, _⟩ := makeDirectories_entered hv hx
        exact hns.bytes_kept hn
      · rw [after_error hx]
    | unlink typed =>
      refine .kept ?_
      dsimp only [Operation.run]
      rcases unlink_cases typed v with ⟨e, hx⟩ | ⟨key, m, _, hk, _, _, ho, hx⟩
      · rw [after_error hx]
      · rw [after_ok hx]
        exact bytes_of_node?
          ((node?_erase v hk f.key).trans (if_neg (not_isUnder_of_isOpen ho hmem)))
    | rename source target =>
      refine .kept ?_
      dsimp only [Operation.run]
      rcases rename_cases source target v with
        ⟨e, hx⟩ | ⟨key, m, p, new, hm, hk, hp, hfree, hb, ho, hnew, hx⟩
      · rw [after_error hx]
      · rw [after_ok hx]
        obtain ⟨q, _, rfl, hsource⟩ := find_ok hm
        have hmovable : Movable v q.key m p new := ⟨hsource, hk, hfree, hb, ho, hnew⟩
        exact bytes_of_node? ((hmovable.stays hv hn (not_isUnder_of_isOpen ho hmem)).trans hn.symm)
    | setAttributes typed bits =>
      refine .kept ?_
      dsimp only [Operation.run]
      rcases setAttributes_cases typed bits v with ⟨e, hx⟩ | ⟨key, m, _, hx⟩
      · rw [after_error hx]
      · rw [after_ok hx]
        simp only [sharing, node?_updateNode]
        split
        · simp [hn, Node.data?]
        · rfl
    | writeFile typed data => exact bytesAfter_writeFile hv hn typed data
    | openFile typed mode => exact bytesAfter_openFile hv hn typed mode
    | write h data => exact absurd rfl (hop (.write h data))
    | seek h offset => exact absurd rfl (hop (.seek h offset))
    | _ => cases hnodes

/-- As long as no number has come again, the next handle is free. -/
theorem nextHandle_free (hnum : v.Numbered) (hi : v.issued < handleLimit) :
    v.files.has v.nextHandle = false := by
  rw [nextHandle_of_lt hi]
  exact hnum.files.has_succ

theorem handleAfter_openFile (hv : v.WellFormed) (hnum : v.Numbered) (hi : v.issued < handleLimit)
    (typed : Text) (mode : OpenMode) (h : Nat) :
    HandleAfter v (.openFile typed mode) h ((openFile typed mode).after v) := by
  rcases openFile_atomic_cases hv typed mode with ⟨e, hx⟩ | ⟨p, t, data, _, hp, ht, hd, _⟩
  · rw [after_error hx]
    exact .kept rfl
  · rw [after_ok (openFile_positioned hp ht hd)]
    obtain ⟨hfiles, _, hissued⟩ := handles_prepare ht
    have hnext : t.nextHandle = v.nextHandle := by
      rw [nextHandle, hissued, nextHandle]
    by_cases hh : h = v.nextHandle
    · refine .opened typed mode p rfl hp ?_ ?_
      · simpa [Table.has, hh] using nextHandle_free hnum hi
      · have hbytes := sharing_bytes hd
        have hlength : (t.sharing.bytes p.key).length = data.size := by
          rw [hbytes, Bytes.length_toList]
        rw [hh, ← hnext, ← hlength]
        exact Table.get?_set_self _ _ _
    · refine .kept ?_
      rw [← hfiles]
      exact Table.get?_set_of_ne (hnext ▸ hh) _ _

theorem files_writeFile (hv : v.WellFormed) (hnum : v.Numbered) (hi : v.issued < handleLimit)
    (typed : Text) (data : List UInt8) : ((writeFile typed data).after v).files = v.files := by
  rcases atomic_writeFile hv typed data with ⟨_, w, hx⟩ | ⟨e, hx⟩
  · rw [after_ok hx]
    obtain ⟨_, _, _, _, _, rfl⟩ := writeFile_ok hv hx
    exact Table.erase_of_has (nextHandle_free hnum hi)
  · rw [after_error hx]

theorem handleAfter_run (hv : v.WellFormed) (hnum : v.Numbered) (hi : v.issued < handleLimit)
    (op : Operation) (hop : ∀ a, op ≠ Access.operation a) (h : Nat) :
    HandleAfter v op h (op.run v) := by
  cases op with
  | relabel label => exact .kept rfl
  | restamp stamp => exact .kept rfl
  | mount => exact .gone (Or.inl rfl) rfl
  | changeDirectory typed =>
    refine .kept ?_
    dsimp only [Operation.run]
    rcases changeDirectory_cases typed v with hx | ⟨_, _, _, _, hx⟩
    · rw [after_error hx]
    · rw [after_ok hx]
  | makeDirectory typed =>
    refine .kept ?_
    dsimp only [Operation.run]
    rcases makeDirectory_cases typed v with ⟨e, hx⟩ | ⟨p, stored, _, hnone, hs, hx⟩
    · rw [after_error hx]
    · rw [after_ok hx]
      rfl
  | makeDirectories typed =>
    refine .kept ?_
    dsimp only [Operation.run]
    rcases atomic_makeDirectories hv typed with ⟨_, w, hx⟩ | ⟨e, hx⟩
    · rw [after_ok hx]
      obtain ⟨_, _, _, _, ns, hns, _⟩ := makeDirectories_entered hv hx
      obtain ⟨_, rfl⟩ := hns.rest
      rfl
    · rw [after_error hx]
  | unlink typed =>
    refine .kept ?_
    dsimp only [Operation.run]
    rcases unlink_cases typed v with ⟨e, hx⟩ | ⟨key, m, _, hk, _, _, ho, hx⟩
    · rw [after_error hx]
    · rw [after_ok hx]
  | rename source target =>
    refine .kept ?_
    dsimp only [Operation.run]
    rcases rename_cases source target v with
      ⟨e, hx⟩ | ⟨key, m, p, new, hm, hk, hp, hfree, hb, ho, hnew, hx⟩
    · rw [after_error hx]
    · rw [after_ok hx]
      rfl
  | setAttributes typed bits =>
    refine .kept ?_
    dsimp only [Operation.run]
    rcases setAttributes_cases typed bits v with ⟨e, hx⟩ | ⟨key, m, _, hx⟩
    · rw [after_error hx]
    · rw [after_ok hx, files_updateNode]
  | writeFile typed data =>
    exact .kept (congrArg (Table.get? h) (files_writeFile hv hnum hi typed data))
  | openFile typed mode => exact handleAfter_openFile hv hnum hi typed mode h
  | closeFile k =>
    dsimp only [Operation.run]
    rw [after_closeFile]
    by_cases hk : h = k
    · subst hk
      exact .gone (Or.inr rfl) (Table.get?_erase_self h v.files)
    · exact .kept (Table.get?_erase_of_ne hk v.files)
  | read h count => exact absurd rfl (hop (.read h count))
  | write h data => exact absurd rfl (hop (.write h data))
  | seek h offset => exact absurd rfl (hop (.seek h offset))
  | openListing typed =>
    refine .kept ?_
    dsimp only [Operation.run]
    rcases openListing_cases typed v with ⟨e, hx⟩ | ⟨_, _, _, _, hx⟩
    · rw [after_error hx]
    · rw [after_ok hx]
  | readListing h =>
    refine .kept ?_
    dsimp only [Operation.run]
    rcases readListing_cases h v with hx | ⟨_, hx⟩ | ⟨_, _, _, hx⟩
    · rw [after_error hx]
    · rw [after_ok hx]
    · rw [after_ok hx]
  | closeListing h =>
    refine .kept ?_
    dsimp only [Operation.run]
    rw [after_closeListing]

end Others

section Reachable

/-- What a handle is asked without being moved. -/
theorem asked_of_open (hv : v.WellFormed) (hf : v.files.get? h = some f) :
    v.tell h = .ok f.position ∧ v.fileSize h = .ok (v.sharing.bytes f.key).length ∧
      v.atEnd h = .ok (decide ((v.sharing.bytes f.key).length ≤ f.position)) := by
  obtain ⟨data, hd⟩ := hv.dataAt hf
  have hopen := openFile?_of_get? hf
  rw [sharing_bytes hd, Bytes.length_toList]
  unfold tell fileSize atEnd
  simp only [bind, Except.bind, hopen, hd]
  exact ⟨rfl, rfl, rfl⟩

/-- Whatever a fresh volume has been through, its open files are shared arrays of bytes, and its
handles positions in them: any row of accesses is answered as the view of them answers it, an access
concerns its own handle and that handle's file alone, and no other operation moves a handle or
changes the bytes of an open file, save one that empties or writes that file as a whole. -/
theorem open_files_shared (label : Text) (ops : List Operation) :
    let v := (labelled label).runAll ops
    (∀ accesses, (accessAll access v accesses).1 = (accessAll Sharing.access v.sharing accesses).1 ∧
      (accessAll access v accesses).2.sharing = (accessAll Sharing.access v.sharing accesses).2 ∧
      (accessAll access v accesses).2 = v.runAll (accesses.map Access.operation)) ∧
    (∀ a, Sharing.Apart v.sharing a (v.access a).1 (v.access a).2.sharing) ∧
    (∀ h f, v.files.get? h = some f →
      (∃ n, v.node? f.key = some n ∧ n.isDirectory = false) ∧
      v.tell h = .ok f.position ∧ v.fileSize h = .ok (v.sharing.bytes f.key).length ∧
      v.atEnd h = .ok (decide ((v.sharing.bytes f.key).length ≤ f.position))) ∧
    (v.issued < handleLimit → ∀ op, (∀ a, op ≠ Access.operation a) →
      (∀ h, HandleAfter v op h (op.run v)) ∧
      ∀ h f, v.files.get? h = some f → BytesAfter v op f.key (op.run v)) := by
  intro v
  have hv : v.WellFormed := (wellFormed_labelled label).runAll ops
  have hnum : v.Numbered := numbered_runAll ops (numbered_labelled label)
  refine ⟨accessAll_sharing hv, fun a => ?_, fun h f hf => ⟨hv.files _ (mem_of_get? hf), asked_of_open hv hf⟩,
    fun hi op hop => ⟨handleAfter_run hv hnum hi op hop, fun h f hf => bytesAfter_run hv op hop hf⟩⟩
  obtain ⟨hanswer, hview⟩ := access_sharing hv a
  rw [hanswer, hview]
  exact Sharing.apart_access v.sharing a

/-- Two handles on one file: one writes behind its end, and the other reads what is there then. A third
open of the file is one of the operations that leave both handles alone. -/
theorem open_files_shared_gap :
    let v := (labelled []).runAll
      [.writeFile "/a" [1, 2], .openFile "/a" .read, .openFile "/a" .write]
    v.issued < handleLimit ∧
    (accessAll access v [.seek 3 2, .write 3 [5], .seek 3 5, .write 3 [9], .read 2 9]).1 =
      [.done, .count 1, .done, .count 1, .bytes [1, 2, 5, 0, 0, 9]] ∧
    (∀ a, Operation.openFile "/A" .createAlways ≠ Access.operation a) ∧
    HandleAfter v (.openFile "/A" .createAlways) 2 ((Operation.openFile "/A" .createAlways).run v) := by
  intro v
  have h := open_files_shared []
    [.writeFile "/a" [1, 2], .openFile "/a" .read, .openFile "/a" .write]
  have hi : v.issued < handleLimit := by decide +kernel
  have hop : ∀ a, Operation.openFile "/A" .createAlways ≠ Access.operation a := by
    intro a
    cases a <;> simp [Access.operation]
  refine ⟨hi, ?_, hop, (h.2.2.2 hi _ hop).1 2⟩
  rw [(h.1 _).1]
  decide +kernel

end Reachable

end Volume

end CardShell
