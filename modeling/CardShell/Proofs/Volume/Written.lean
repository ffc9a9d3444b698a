import CardShell.Proofs.Loader.Reliable
import CardShell.Proofs.Volume.Entered

/-!
Writing a whole file. The directories that are missing are made on the way down, and then either the
file is made in the last of them or it was there and gets new contents. What comes back when the file
is read, in pieces or at once, is what was written, and nothing else of the tree has changed.
-/

set_option autoImplicit false

namespace CardShell

theorem Bytes.splice_empty (l : List UInt8) : (ofList []).splice 0 l = ofList l := by
  rw [← toList_inj, toList_splice]
  simp [toList_extend]

theorem Bytes.slice_append_drop (b : Bytes) (start count : Nat) :
    b.slice start count ++ b.toList.drop (start + (b.slice start count).length) = b.toList.drop start := by
  rw [slice_eq, ← List.drop_drop, List.length_take]
  generalize b.toList.drop start = l
  by_cases hcount : count ≤ l.length
  · rw [Nat.min_eq_left hcount, List.take_append_drop]
  · simp [List.take_of_length_le, Nat.le_of_not_le hcount]

theorem Table.erase_set {κ α : Type} [DecidableEq κ] (k : κ) (a : α) (t : Table κ α) :
    erase k (set k a t) = erase k t := by
  simp [set, erase]

namespace Volume

open CardShell.Action

variable {u v w : Volume} {key p : Path} {n : Node} {ns : List Node}

section OneWrite

/-- How a whole file is opened for writing. -/
def forReplacing : OpenMode := .write ∪ .createAlways

/-- `w` is `v` with other contents in the file at `key`, stamped anew. -/
structure Replaced (v : Volume) (key : Path) (data : List UInt8) (w : Volume) : Prop where
  file : ∃ n, v.node? key = some n ∧ n.isDirectory = false ∧ n.attributes.isReadOnly = false ∧
    w.node? key = some { n with content := .file (.ofList data), stamp := v.stamp }
  others : ∀ k, k ≠ key → w.node? k = v.node? k
  rest : ∃ nodes, w = { v with nodes := nodes }

/-- Contents on contents: the last ones count. -/
theorem Replaced.again {old data : List UInt8} (h : Replaced v key old u)
    (h' : Replaced u key data w) : Replaced v key data w := by
  obtain ⟨n, hn, hfile, hro, hu⟩ := h.file
  obtain ⟨m, hm, _, _, hw⟩ := h'.file
  rw [hu] at hm
  cases hm
  obtain ⟨_, rfl⟩ := h.rest
  obtain ⟨nodes, rfl⟩ := h'.rest
  exact ⟨⟨n, hn, hfile, hro, hw⟩, fun k hk => (h'.others k hk).trans (h.others k hk), nodes, rfl⟩

theorem replaced_updateNode (hv : v.WellFormed) (hn : v.node? key = some n)
    (hfile : n.isDirectory = false) (hro : n.attributes.isReadOnly = false) (data : List UInt8) :
    Replaced v key data (v.updateNode key fun n =>
      { n with content := .file (.ofList data), stamp := v.stamp }) := by
  have hnode := node?_updateNode v key fun n =>
    { n with content := .file (.ofList data), stamp := v.stamp }
  have hkey : key ≠ [] := by
    rintro rfl
    cases hn
    rw [hv.root_isDirectory] at hfile
    cases hfile
  refine ⟨⟨n, hn, hfile, hro, by simp [hnode, hn]⟩, fun k hk => by simp [hnode, hk], ?_⟩
  unfold updateNode
  rw [if_neg hkey]
  exact ⟨_, rfl⟩

/-- New contents for the file that was made last. -/
theorem Entered.replaced {data : List UInt8} (h : Entered v (ns ++ [n]) u)
    (h' : Replaced u n.path.key data w) :
    Entered v (ns ++ [{ n with content := .file (.ofList data), stamp := v.stamp }]) w := by
  obtain ⟨m, hm, _, _, hw⟩ := h'.file
  rw [h.made n (by simp)] at hm
  cases hm
  have hapart : ∀ m ∈ ns, m.path.key ≠ n.path.key := by
    intro m hm he
    have hmade := h.made m (List.mem_append_left _ hm)
    rw [he, h.made n (by simp)] at hmade
    cases hmade
    have horders := h.orders
    have hnodup : ((ns ++ [n]).map Node.order).Nodup := horders ▸ List.nodup_range'
    rw [List.map_append, List.nodup_append] at hnodup
    exact hnodup.2.2 n.order (List.mem_map_of_mem hm) n.order (by simp) rfl
  have horders := h.orders
  obtain ⟨_, rfl⟩ := h.rest
  obtain ⟨nodes, rfl⟩ := h'.rest
  refine ⟨?_, ?_, ?_, ?_, nodes, ?_⟩
  · intro m hm
    rcases List.mem_append.mp hm with hm | hm
    · exact h.free m (List.mem_append_left _ hm)
    · cases List.mem_singleton.mp hm
      exact h.free n (by simp)
  · intro m hm
    rcases List.mem_append.mp hm with hm | hm
    · rw [h'.others _ (hapart m hm)]
      exact h.made m (List.mem_append_left _ hm)
    · cases List.mem_singleton.mp hm
      exact hw
  · intro key hkey
    rw [h'.others, h.others]
    · intro m hm
      rcases List.mem_append.mp hm with hm | hm
      · exact hkey m (List.mem_append_left _ hm)
      · cases List.mem_singleton.mp hm
        exact hkey { n with content := .file (.ofList data), stamp := v.stamp } (by simp)
    · intro he
      exact hkey { n with content := .file (.ofList data), stamp := v.stamp } (by simp) he.symm
  · simpa using horders
  · simp

theorem dataAt_of_content {data : Bytes} (hn : v.node? key = some n) (hc : n.content = .file data) :
    v.dataAt key = .ok data := by
  unfold dataAt Node.data?
  simp only [hn, Option.bind_some, hc]

/-- What is written to the handle of a file just made or emptied is all that the file holds, and the
handle is gone again. -/
theorem closing_write (hn : v.node? key = some n) (hc : n.content = .file (.ofList []))
    (data : List UInt8) :
    closing (closeFile v.nextHandle) (do
      if (← write v.nextHandle data) < data.length then throw .denied)
        (v.withHandle ⟨key, 0, forReplacing⟩) =
      .ok () { (v.updateNode key fun n =>
          { n with content := .file (.ofList data), stamp := v.stamp }) with
        issued := v.issued + 1
        files := v.files.erase v.nextHandle } := by
  have hget : (v.withHandle ⟨key, 0, forReplacing⟩).files.get? v.nextHandle =
      some ⟨key, 0, forReplacing⟩ := Table.get?_set_self _ _ _
  have hd : (v.withHandle ⟨key, 0, forReplacing⟩).dataAt key = .ok (.ofList []) :=
    dataAt_of_content (v := v) hn hc
  have hmode : forReplacing.contains .write = true := by decide
  have hx := write_ok data (openFile?_of_get? hget) hmode hd
  rw [Bytes.splice_empty] at hx
  unfold closing
  rw [bind_apply, hx]
  dsimp only
  rw [if_neg (Nat.lt_irrefl _), pure_apply]
  dsimp only
  rw [closeFile_ok]
  · unfold updateFile
    rw [files_updateNode, hget]
    dsimp only
    rw [Table.erase_set]
    unfold withHandle updateNode
    dsimp only
    rw [Table.erase_set]
    split <;> rfl
  · rw [has_updateFile, files_updateNode, Table.has, hget]
    rfl

end OneWrite

section Written

/-- Opening so leaves an empty file: the one that was there, or a new one. -/
theorem prepare_forReplacing (hv : v.WellFormed) (hname : ∀ c ∈ p, Path.IsName c)
    (hw : v.prepare p forReplacing = .ok w) :
    w.WellFormed ∧
      (∃ n, w.node? p.key = some n ∧ n.content = .file (.ofList []) ∧
        n.attributes.isReadOnly = false) ∧
      (Replaced v p.key [] w ∨ ∃ stored, v.node? p.key = none ∧ stored.key = p.key ∧
        Entered v [⟨stored, .file (.ofList []), v.stamp, ⟨Attributes.archiveBit⟩, v.nextOrder⟩] w) := by
  refine ⟨(hv.prepare hname hw).1, ?_⟩
  rcases prepare_cases hw with ⟨n, hn, hfile, _, hro, rfl⟩ | ⟨stored, hn, _, hs, rfl⟩
  · rw [if_pos (by decide)]
    have hreplaced := replaced_updateNode hv hn hfile (hro (by decide)) []
    obtain ⟨m, _, _, hro, hm⟩ := hreplaced.file
    exact ⟨⟨_, hm, rfl, hro⟩, Or.inl hreplaced⟩
  · obtain ⟨hkey, hentered⟩ := entered_insert hv hn hs (.file (.ofList []))
    have hmade := hentered.made _ List.mem_cons_self
    rw [hkey] at hmade
    have harchive : Attributes.isReadOnly ⟨Attributes.archiveBit⟩ = false := by decide
    exact ⟨⟨_, hmade, rfl, harchive⟩, Or.inr ⟨stored, hn, hkey, hentered⟩⟩

/-- The last step of writing a file: all in one write. -/
def replaceFile (typed : Text) (data : List UInt8) : VolumeAction Unit := do
  let h ← openFile typed forReplacing
  closing (closeFile h) do
    if (← write h data) < data.length then throw .denied

theorem writeFile_eq (typed : Text) (data : List UInt8) :
    writeFile typed data = (do
      let p ← query fun v => v.resolve typed
      makeDirectories p.parent.text
      replaceFile p.text data) := rfl

theorem replaceFile_cases (hv : v.WellFormed) {typed : Text} (hp : v.resolve typed = .ok p)
    (data : List UInt8) :
    (∃ e, v.prepare p forReplacing = .error e ∧ replaceFile typed data v = .error e v) ∨
    ∃ t, t.WellFormed ∧
      (Replaced v p.key data t ∨ ∃ stored, v.node? p.key = none ∧ stored.key = p.key ∧ Entered v
        [⟨stored, .file (.ofList data), v.stamp, ⟨Attributes.archiveBit⟩, v.nextOrder⟩] t) ∧
      replaceFile typed data v =
        .ok () { t with issued := v.issued + 1, files := v.files.erase v.nextHandle } := by
  have hname := hv.isName_of_resolve hp
  unfold replaceFile
  cases hprep : v.prepare p forReplacing with
  | error e =>
    refine Or.inl ⟨e, rfl, ?_⟩
    rw [bind_apply, openFile_unprepared hp hprep]
  | ok t =>
    obtain ⟨ht, ⟨n, hn, hc, hro⟩, hthere⟩ := prepare_forReplacing hv hname hprep
    have hfile : n.isDirectory = false := by
      rw [Node.isDirectory, hc]
      rfl
    have hreplaced := replaced_updateNode ht hn hfile hro data
    have hwf : (t.updateNode p.key fun n =>
        { n with content := .file (.ofList data), stamp := t.stamp }).WellFormed := by
      refine ht.updateNode p.key fun m hm => ⟨rfl, ?_, rfl⟩
      rw [hn] at hm
      cases hm
      rw [hfile]
      rfl
    refine Or.inr ⟨_, hwf, ?_, ?_⟩
    · rcases hthere with hthere | ⟨stored, hnone, hkey, hthere⟩
      · exact Or.inl (hthere.again hreplaced)
      · refine Or.inr ⟨stored, hnone, hkey, ?_⟩
        rw [← hkey] at hreplaced ⊢
        rw [← List.nil_append [_]] at hthere ⊢
        exact hthere.replaced hreplaced
    · obtain ⟨hfiles, _, hissued⟩ := handles_prepare hprep
      have hhandle : t.nextHandle = v.nextHandle := by
        unfold nextHandle
        rw [hissued]
      rcases openFile_prepared hp hprep with ⟨_, happend, _⟩ | ⟨position, hzero, ho⟩
      · exact absurd happend (by decide)
      · rw [bind_apply, ho, hzero (by decide)]
        dsimp only
        rw [closing_write hn hc data, hfiles, hissued, hhandle]

/-- On the way down to what is there, nothing is missing. -/
theorem gaps_of_some (hv : v.WellFormed) (hn : v.node? key = some n) (hp : p.key <+: key) :
    v.gaps p = [] := by
  refine List.eq_nil_iff_forall_not_mem.mpr fun k hk => ?_
  obtain ⟨habove, hnone⟩ := mem_gaps.mp hk
  rw [hv.node?_none_of_prefix hnone (habove.trans hp)] at hn
  cases hn

/-- The way down to a path that is missing is the way down to its directory, and one step more. -/
theorem gaps_parent (hn : v.node? p.key = none) : v.gaps p = v.gaps p.parent ++ [p.key] := by
  have hne : p ≠ [] := by
    rintro rfl
    cases hn
  have hsplit := Path.parent_append_leaf hne
  have hg := gaps_concat v p.parent p.leaf
  rw [hsplit, hn] at hg
  exact hg

/-- Where all directories were there, none is new. -/
theorem Entered.of_nil (h : Entered v [] u) :
    (∀ k, u.node? k = v.node? k) ∧ ∃ nodes, u = { v with nodes := nodes } :=
  ⟨fun k => h.others k (by simp), h.rest⟩

/-- A file is written as a whole in three steps: the path is read, what is missing above it is made,
and the file is replaced. -/
theorem writeFile_steps {typed : Text} {data : List UInt8} (hx : writeFile typed data v = .ok () w) :
    ∃ p u, v.resolve typed = .ok p ∧ makeDirectories p.parent.text v = .ok () u ∧
      replaceFile p.text data u = .ok () w := by
  rw [writeFile_eq] at hx
  obtain ⟨p, _, hquery, hx⟩ := bind_ok_inv hx
  obtain ⟨hp, rfl⟩ := query_ok_inv hquery
  obtain ⟨_, u, hmake, hreplace⟩ := bind_ok_inv hx
  exact ⟨p, u, hp, hmake, hreplace⟩

/-- A file written as a whole was there and has new contents, or it is new, with what was missing
above it. One handle has been given out, and it is closed. -/
theorem writeFile_ok (hv : v.WellFormed) {typed : Text} {data : List UInt8}
    (hx : writeFile typed data v = .ok () w) :
    ∃ p t, v.resolve typed = .ok p ∧ t.WellFormed ∧
      (Replaced v p.key data t ∨
        ∃ ns stored order, v.node? p.key = none ∧ stored.key = p.key ∧
          (∀ m ∈ ns, m.isDirectory = true) ∧
          (ns.map fun n => n.path.key) ++ [p.key] = v.gaps p ∧
          Entered v
            (ns ++ [⟨stored, .file (.ofList data), v.stamp, ⟨Attributes.archiveBit⟩, order⟩]) t) ∧
      w = { t with issued := v.issued + 1, files := v.files.erase v.nextHandle } := by
  obtain ⟨p, u, hp, hmake, hreplace⟩ := writeFile_steps hx
  have hname := hv.isName_of_resolve hp
  have hparent : v.resolve p.parent.text = .ok p.parent :=
    Path.resolve_text (fun c hc => hname c (List.dropLast_subset p hc)) v.directory
  obtain ⟨q, hq, hu, _, ns, hns, hkeys, hdirs⟩ := makeDirectories_entered hv hmake
  rw [hparent] at hq
  cases hq
  obtain ⟨_, hrest⟩ := hns.rest
  have hup : u.resolve p.text = .ok p := Path.resolve_text hname u.directory
  rcases replaceFile_cases hu hup data with ⟨e, _, hr⟩ | ⟨t, ht, hthere, hr⟩
  · rw [hr] at hreplace
    cases hreplace
  · rw [hr] at hreplace
    cases hreplace
    have hsame : u.node? p.key = v.node? p.key := by
      apply hns.others
      intro n hn
      exact ne_of_mem_gaps_parent (hkeys ▸ List.mem_map_of_mem hn)
    refine ⟨p, t, hp, ht, ?_, by rw [hrest]; rfl⟩
    rcases hthere with hthere | ⟨stored, hnone, hkey, hthere⟩
    · -- A file that is there has all its directories, so none of them is new.
      obtain ⟨n, hn, hfile, hro, hnew⟩ := hthere.file
      rw [hsame] at hn
      rw [gaps_of_some hv hn (by rw [Path.key_parent]; exact List.dropLast_prefix _)] at hkeys
      cases List.map_eq_nil_iff.mp hkeys
      obtain ⟨hnodes, _, rfl⟩ := hns.of_nil
      obtain ⟨nodes, rfl⟩ := hthere.rest
      exact Or.inl ⟨⟨n, hn, hfile, hro, hnew⟩,
        fun k hk => (hthere.others k hk).trans (hnodes k), nodes, rfl⟩
    · rw [hsame] at hnone
      have hall := hns.append hthere
      have hstamp : u.stamp = v.stamp := by rw [hrest]
      rw [hstamp] at hall
      refine Or.inr ⟨ns, stored, _, hnone, hkey, hdirs, ?_, hall⟩
      rw [hkeys, gaps_parent hnone]

end Written

section Again

theorem ancestry_of_directory (hv : v.WellFormed) (hd : v.isDirectoryAt p.key = true) :
    (ancestry p).forM ensureDirectory v = .ok () v := by
  induction p using List.reverseRecOn with
  | nil => rfl
  | append_singleton p c ih =>
    obtain ⟨d, hd, hdir⟩ := isDirectoryAt_iff.mp hd
    have hup : v.isDirectoryAt (Path.key p) = true := by
      rw [key_concat] at hd
      obtain ⟨e, _, he, hedir, _⟩ := hv.above hd
      exact isDirectoryAt_iff.mpr ⟨e, he, hedir (by simp)⟩
    rw [forM_ancestry_concat, bind_apply, ih hup]
    dsimp only
    rw [ensureDirectory_of_some hd, if_pos hdir]

/-- A file that is there and not read-only can be written. -/
theorem writeFile_of_file (hv : v.WellFormed) {typed : Text} (hp : v.resolve typed = .ok p)
    (hn : v.node? p.key = some n) (hfile : n.isDirectory = false)
    (hro : n.attributes.isReadOnly = false) (data : List UInt8) :
    ∃ w, writeFile typed data v = .ok () w := by
  have hname := hv.isName_of_resolve hp
  have hne : p ≠ [] := by
    rintro rfl
    cases hn
    rw [hv.root_isDirectory] at hfile
    cases hfile
  have hparent : v.resolve p.parent.text = .ok p.parent :=
    Path.resolve_text (fun c hc => hname c (List.dropLast_subset p hc)) v.directory
  have hdir : v.isDirectoryAt p.parent.key = true := by
    obtain ⟨d, _, hd, hdir, _⟩ := hv.parent hn (by simpa using hne)
    rw [Path.key_parent]
    exact isDirectoryAt_iff.mpr ⟨d, hd, hdir⟩
  have hmake : makeDirectories p.parent.text v = .ok () v := by
    unfold makeDirectories
    rw [bind_apply, query, hparent]
    exact ancestry_of_directory hv hdir
  have hup : v.resolve p.text = .ok p := Path.resolve_text hname v.directory
  rw [writeFile_eq, bind_apply, query, hp]
  dsimp only
  rw [bind_apply, hmake]
  dsimp only
  rcases replaceFile_cases hv hup data with ⟨e, he, _⟩ | ⟨t, _, _, ht⟩
  · unfold prepare at he
    rw [hn] at he
    dsimp only at he
    rw [if_neg (by simp [hfile]), if_neg (by decide), if_neg (by simp [hro]), if_pos (by decide)] at he
    cases he
  · exact ⟨_, ht⟩

end Again

theorem contents_of_content {typed : Text} {data : Bytes} (hp : v.resolve typed = .ok p)
    (hn : v.node? p.key = some n) (hc : n.content = .file data) :
    v.contents typed = .ok data.toList ∧ v.readable typed = .ok data := by
  have hfind : v.find typed = .ok (p.key, n) := by
    unfold find
    rw [hp]
    simp only [bind, Except.bind, hn]
    rfl
  have hdata : n.data? = some data := by
    rw [Node.data?, hc]
  constructor
  · unfold contents
    rw [hfind]
    simp only [bind, Except.bind, hdata]
    rfl
  · unfold readable
    rw [hfind]
    simp only [hdata]

end Volume

namespace Drive

open CardShell.Action

variable {d : Drive} {h done : Nat} {key : Path} {data : Bytes}

/-- The pieces that are read make up what was left to read, however they are cut. -/
theorem Reliable.readRest (hd : d.Reliable) (hr : d.volume.Reading h key data done) {fuel : Nat}
    (hfuel : data.size - done < fuel) :
    ∃ d', readRest h fuel d = .ok (data.toList.drop done) d' ∧ d.Alike d' ∧
      d'.volume.files.has h = true := by
  induction fuel generalizing done d with
  | zero => omega
  | succ fuel ih =>
    obtain ⟨part, u, hpart, _, hx, halike, hr'⟩ := hd.read hr (show 512 ≠ 0 by decide)
    have hlength := data.length_slice done part
    rw [Drive.readRest, bind_apply, hx]
    dsimp only
    by_cases hend : data.slice done part = []
    · rw [hend, List.length_nil] at hlength
      have hnothing : data.toList.drop done = [] := by
        apply List.drop_eq_nil_of_le
        rw [Bytes.length_toList]
        omega
      have hopen : u.volume.files.has h = true := by
        rw [Table.has, Volume.openFile?_ok hr'.file]
        rfl
      rw [if_pos hend, hnothing]
      exact ⟨u, rfl, halike, hopen⟩
    · have hpos := List.length_pos_iff.mpr hend
      obtain ⟨u', hrest, halike', hopen⟩ := ih halike.reliable hr' (by omega)
      refine ⟨u', ?_, halike.trans halike', hopen⟩
      rw [if_neg hend, bind_apply, hrest, ← Bytes.slice_append_drop data done part]
      rfl

/-- Reading a file to its end gives its contents and leaves the card alike. -/
theorem Reliable.readToEnd (hd : d.Reliable) {path : Text} (hpath : d.volume.readable path = .ok data) :
    ∃ d', readToEnd path d = .ok data.toList d' ∧ d.Alike d' := by
  have hopen := hd.openFile path
  rw [hpath] at hopen
  obtain ⟨h, u, key, ho, halike, hr⟩ := hopen
  have hremaining : u.volume.remaining h = data.size := by
    unfold Volume.remaining
    simp only [hr.file, hr.data, Nat.sub_zero]
  obtain ⟨u', hrest, halike', hh⟩ :=
    halike.reliable.readRest hr (show _ < u.volume.remaining h + 1 by omega)
  obtain ⟨d', hclose, hclosed⟩ := halike'.reliable.closeFile hh
  refine ⟨d', ?_, halike.trans (halike'.trans hclosed)⟩
  unfold Drive.readToEnd withFile
  rw [bind_apply, ho]
  dsimp only
  rw [closing, bind_apply, get_apply]
  dsimp only
  rw [hrest]
  dsimp only
  rw [hclose]
  rfl

end Drive

namespace Volume

open CardShell.Action

variable {v w : Volume} {key : Path} {typed : Text} {data : List UInt8}

/-- What the tree shows of a file that was written: the file itself, the directories above it, and
all else as it was. -/
structure Shows (v : Volume) (key : Path) (data : List UInt8) (w : Volume) : Prop where
  file : ∃ n, w.node? key = some n ∧ n.content = .file (.ofList data) ∧ n.stamp = v.stamp ∧
    n.attributes.isReadOnly = false ∧
    ∀ old, v.node? key = some old → n = { old with content := n.content, stamp := n.stamp }
  above : ∀ k, k <+: key → k ≠ key → w.isDirectoryAt k = true
  kept : ∀ k n, k ≠ key → v.node? k = some n → w.node? k = some n
  gained : ∀ k, v.node? k = none → w.node? k ≠ none → k <+: key

theorem shows_of_writeFile (hv : v.WellFormed) (hx : writeFile typed data v = .ok () w) :
    ∃ p, v.resolve typed = .ok p ∧ w.directory = v.directory ∧ w.stamp = v.stamp ∧
      Shows v p.key data w := by
  obtain ⟨p, t, hp, ht, hthere, rfl⟩ := writeFile_ok hv hx
  have hrest : t.directory = v.directory ∧ t.stamp = v.stamp := by
    rcases hthere with hthere | ⟨_, _, _, _, _, _, _, hthere⟩
    · obtain ⟨_, rfl⟩ := hthere.rest
      exact ⟨rfl, rfl⟩
    · obtain ⟨_, rfl⟩ := hthere.rest
      exact ⟨rfl, rfl⟩
  refine ⟨p, hp, hrest.1, hrest.2, ?_⟩
  · have habove : ∀ n, t.node? p.key = some n → ∀ k, k <+: p.key → k ≠ p.key →
        t.isDirectoryAt k = true := by
      rintro n hn k ⟨r, hr⟩ hne
      rw [← hr] at hn
      obtain ⟨d, _, hd, hdir, _⟩ := ht.above hn
      refine isDirectoryAt_iff.mpr ⟨d, hd, hdir ?_⟩
      rintro rfl
      exact hne (by simpa using hr)
    rcases hthere with hthere | ⟨ns, stored, order, hnone, hkey, _, hgaps, hthere⟩
    · obtain ⟨n, hn, _, hro, hnew⟩ := hthere.file
      refine ⟨⟨_, hnew, rfl, rfl, hro, ?_⟩, habove _ hnew, ?_, ?_⟩
      · intro old hold
        rw [hn] at hold
        cases hold
        rfl
      · intro k m hk hm
        exact (hthere.others k hk).trans hm
      · intro k hk hthere'
        by_cases he : k = p.key
        · exact he ▸ List.prefix_rfl
        · exact absurd ((hthere.others k he).trans hk) hthere'
    · have hmade := hthere.made ⟨stored, .file (.ofList data), v.stamp, ⟨Attributes.archiveBit⟩, order⟩
        (by simp)
      have hmade' : t.node? p.key = _ := hkey ▸ hmade
      refine ⟨⟨_, hmade', rfl, rfl, (by decide : Attributes.isReadOnly ⟨Attributes.archiveBit⟩ = false), ?_⟩,
        habove _ hmade', ?_, ?_⟩
      · intro old hold
        rw [hnone] at hold
        cases hold
      · intro k m _ hm
        exact hthere.kept hm
      · intro k hk hthere'
        obtain ⟨m, hm⟩ := Option.ne_none_iff_exists'.mp hthere'
        rcases hthere.old_or_new hm with hold | ⟨_, hin, rfl⟩
        · rw [hk] at hold
          cases hold
        · have hmem : m.path.key ∈ v.gaps p := by
            rw [← hgaps, ← hkey]
            simp only [List.mem_append, List.mem_map, List.mem_singleton] at hin ⊢
            exact hin.imp (fun hm => ⟨m, hm, rfl⟩) fun hm => by rw [hm]
          exact (mem_gaps.mp hmem).1

/-- The same contents again leave every node as it is. -/
theorem Shows.again (h : Shows v key data w) (hw : w.WellFormed) (hstamp : w.stamp = v.stamp)
    {p : Path} (hp : w.resolve typed = .ok p) (hkey : p.key = key) :
    ∃ u, writeFile typed data w = .ok () u ∧ ∀ k, u.node? k = w.node? k := by
  obtain ⟨n, hn, hc, hs, hro, _⟩ := h.file
  rw [← hkey] at hn
  have hfile : n.isDirectory = false := by
    rw [Node.isDirectory, hc]
    rfl
  obtain ⟨u, hu⟩ := writeFile_of_file hw hp hn hfile hro data
  refine ⟨u, hu, fun k => ?_⟩
  obtain ⟨q, hq, _, _, hshows⟩ := shows_of_writeFile hw hu
  rw [hp] at hq
  cases hq
  by_cases hk : k = p.key
  · obtain ⟨m, hm, hmc, hms, _, hsame⟩ := hshows.file
    have hmn : m = n := by
      rw [hsame n hn, hmc, hms, hstamp, ← hs, ← hc]
    rw [hk, hm, hn, hmn]
  · cases hold : w.node? k with
    | some m => exact hshows.kept k m hk hold
    | none =>
      by_contra hne
      have hprefix := hshows.gained k hold hne
      rw [hw.node?_none_of_prefix hold hprefix] at hn
      cases hn

/-- A file that could be written is read back, at once or to its end, by every path that leads to it;
what was missing above it is there, everything else is as it was, and the same write again changes
no entry. -/
theorem writeFile_read_back (label : Text) (ops : List Operation)
    (hx : writeFile typed data ((labelled label).runAll ops) = .ok () w) :
    let v := (labelled label).runAll ops
    ∃ p, v.resolve typed = .ok p ∧ (∀ t, w.resolve t = v.resolve t) ∧
      (∀ t q, w.resolve t = .ok q → q.key = p.key →
        w.contents t = .ok data ∧
        (∀ d : Drive, d.Reliable → d.volume = w → ∃ d', Drive.readToEnd t d = .ok data d' ∧ d.Alike d') ∧
        ∃ u, writeFile t data w = .ok () u ∧ ∀ k, u.node? k = w.node? k) ∧
      (∀ k, k <+: p.key → k ≠ p.key → w.isDirectoryAt k = true) ∧
      (∀ k n, k ≠ p.key → v.node? k = some n → w.node? k = some n) ∧
      (∀ k, v.node? k = none → w.node? k ≠ none → k <+: p.key) ∧
      ∃ n, w.node? p.key = some n ∧ n.content = .file (.ofList data) ∧ n.stamp = v.stamp ∧
        ∀ old, v.node? p.key = some old → n = { old with content := n.content, stamp := n.stamp } := by
  intro v
  have hv : v.WellFormed := (wellFormed_labelled label).runAll ops
  have hw : w.WellFormed := by
    have hrun := hv.run (.writeFile typed data)
    rwa [show (Operation.writeFile typed data).run v = w from after_ok hx] at hrun
  obtain ⟨p, hp, hdirectory, hstamp, hshows⟩ := shows_of_writeFile hv hx
  obtain ⟨n, hn, hc, hs, _, hold⟩ := hshows.file
  refine ⟨p, hp, fun t => by rw [resolve, hdirectory, resolve], ?_, hshows.above, hshows.kept,
    hshows.gained, n, hn, hc, hs, hold⟩
  intro t q hq hkey
  obtain ⟨hcontents, hreadable⟩ := contents_of_content hq (hkey ▸ hn) hc
  refine ⟨hcontents, ?_, hshows.again hw hstamp hq hkey⟩
  rintro d hd rfl
  exact hd.readToEnd hreadable

/-- Two levels down on an empty card, and read in another case. -/
theorem writeFile_read_back_new : ∃ w, writeFile "/d/e/a" [1, 2] (labelled []) = .ok () w ∧
    w.contents "/D/E/A" = .ok [1, 2] := by
  obtain ⟨w, hx⟩ : ∃ w, writeFile "/d/e/a" [1, 2] (labelled []) = .ok () w := ⟨_, rfl⟩
  obtain ⟨p, hp, hresolve, hback, _⟩ := writeFile_read_back [] [] hx
  have hpath : (labelled []).resolve "/d/e/a" = .ok ["d".toList, "e".toList, "a".toList] := by decide
  have hother : (labelled []).resolve "/D/E/A" = .ok ["D".toList, "E".toList, "A".toList] := by decide
  have he := hpath.symm.trans hp
  cases he
  exact ⟨w, hx, (hback "/D/E/A" _ ((hresolve _).trans hother) (by decide)).1⟩

end Volume

end CardShell
