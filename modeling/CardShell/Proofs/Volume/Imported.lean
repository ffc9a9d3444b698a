import Mathlib.Data.List.Dedup
import Mathlib.Data.Set.Card
import CardShell.Proofs.Host.Entries
import CardShell.Proofs.Volume.Written

/-!
A volume filled from the host. The host tells names apart by their case and the volume does not: of two
files whose paths are the same to the volume it keeps the one that was listed last, and both are counted.
Where no two are, the volume holds what the host holds, in whatever order that was listed.
-/

set_option autoImplicit false

namespace CardShell.Volume

open CardShell.Action

open HostTree (Item lastAt Rooted)

variable {u v w : Volume} {p top key : Path} {n : Node} {item : Item} {typed : Text}

section OneEntry

def item? (v : Volume) (key : Path) : Option Item :=
  (v.node? key).map fun n => match n.content with
    | .directory => .directory
    | .file data => .file data.toList

theorem item?_eq_directory : v.item? key = some .directory ↔ v.isDirectoryAt key = true := by
  rw [isDirectoryAt_iff]
  unfold item?
  cases v.node? key with
  | none => simp
  | some n => cases hc : n.content <;> simp [Node.isDirectory, hc]

theorem item?_eq_file {data : List UInt8} :
    v.item? key = some (.file data) ↔
      ∃ n, v.node? key = some n ∧ n.content = .file (.ofList data) := by
  unfold item?
  cases v.node? key with
  | none => simp
  | some n =>
    cases hc : n.content with
    | directory => simp [hc]
    | file old => simp [hc, ← Bytes.toList_inj]

theorem item?_eq_none : v.item? key = none ↔ v.node? key = none := Option.map_eq_none_iff

theorem exists_item? (hn : v.node? key = some n) :
    ∃ item, v.item? key = some item ∧ item.isDirectory = n.isDirectory := by
  unfold item?
  rw [hn]
  refine ⟨_, rfl, ?_⟩
  cases hc : n.content <;> simp [Item.isDirectory, Node.isDirectory, hc]

theorem item?_congr (h : w.node? key = v.node? key) : w.item? key = v.item? key := by
  unfold item?
  rw [h]

/-- No file is protected, so that each can be replaced. -/
def Unprotected (v : Volume) : Prop :=
  ∀ key n, v.node? key = some n → n.isDirectory = false → n.attributes.isReadOnly = false

/-- Puts an entry of the host at a path of the volume. -/
def deposit (typed : Text) : Item → VolumeAction Unit
  | .directory => makeDirectories typed
  | .file data => writeFile typed data

/-- `w` is `v` with the item at the key besides, or in place of one of its kind. -/
structure Deposited (v : Volume) (key : Path) (item : Item) (w : Volume) : Prop where
  wellFormed : w.WellFormed
  directory : w.directory = v.directory
  unprotected : v.Unprotected → w.Unprotected
  kind : ∀ old, v.item? key = some old → old.isDirectory = item.isDirectory
  items : ∀ k, w.item? k = if k = key then some item else v.item? k

/-- In a directory that is there, nothing is missing on the way to an entry but the entry. -/
theorem mem_gaps_of_parent (hv : v.WellFormed) (hparent : v.item? p.parent.key = some .directory)
    (hkey : key ∈ v.gaps p) : key = p.key := by
  obtain ⟨d, hd, _⟩ := isDirectoryAt_iff.mp (item?_eq_directory.mp hparent)
  cases hn : v.node? p.key with
  | some n =>
    rw [gaps_of_some hv hn List.prefix_rfl] at hkey
    cases hkey
  | none =>
    rw [gaps_parent hn, gaps_of_some hv hd List.prefix_rfl] at hkey
    exact List.mem_singleton.mp hkey

theorem deposited_directory (hv : v.WellFormed) (hp : v.resolve typed = .ok p)
    (hparent : v.item? p.parent.key = some .directory) (hx : makeDirectories typed v = .ok () w) :
    Deposited v p.key .directory w := by
  obtain ⟨q, hq, hw, hdir, ns, hns, hkeys, hdirs⟩ := makeDirectories_entered hv hx
  rw [hp] at hq
  cases hq
  have hitem : w.item? p.key = some .directory := item?_eq_directory.mpr hdir
  refine ⟨hw, ?_, ?_, ?_, ?_⟩
  · obtain ⟨_, rfl⟩ := hns.rest
    rfl
  · intro hfree k n hn hfile
    rcases hns.old_or_new hn with hold | ⟨_, hnew, _⟩
    · exact hfree k n hold hfile
    · rw [hdirs n hnew] at hfile
      cases hfile
  · intro old hold
    obtain ⟨n, hn, _⟩ := Option.map_eq_some_iff.mp hold
    rw [← item?_congr ((hns.kept hn).trans hn.symm), hitem] at hold
    cases hold
    rfl
  · intro k
    split
    · rename_i hk
      rw [hk, hitem]
    · rename_i hk
      refine item?_congr (hns.others k fun n hn he => hk ?_)
      exact he ▸ mem_gaps_of_parent hv hparent (hkeys ▸ List.mem_map_of_mem hn)

theorem deposited_file {data : List UInt8} (hv : v.WellFormed) (hp : v.resolve typed = .ok p)
    (hparent : v.item? p.parent.key = some .directory) (hx : writeFile typed data v = .ok () w) :
    Deposited v p.key (.file data) w := by
  have hw : w.WellFormed := (keeps_writeFile typed data).of_ok hv hx
  obtain ⟨q, t, hq, _, hthere, rfl⟩ := writeFile_ok hv hx
  rw [hp] at hq
  cases hq
  rcases hthere with hthere | ⟨ns, stored, order, hnone, hkey, hdirs, hkeys, hthere⟩
  · obtain ⟨n, hn, hfile, hro, hnew⟩ := hthere.file
    refine ⟨hw, ?_, ?_, ?_, ?_⟩
    · obtain ⟨_, rfl⟩ := hthere.rest
      rfl
    · intro hfree k m hm hmfile
      by_cases hk : k = p.key
      · subst hk
        cases hnew.symm.trans hm
        exact hro
      · exact hfree k m ((hthere.others k hk).symm.trans hm) hmfile
    · intro old hold
      cases old with
      | file _ => rfl
      | directory =>
        obtain ⟨m, hm, hmdir⟩ := isDirectoryAt_iff.mp (item?_eq_directory.mp hold)
        rw [hn] at hm
        cases hm
        rw [hfile] at hmdir
        cases hmdir
    · intro k
      split
      · rename_i hk
        subst hk
        exact item?_eq_file.mpr ⟨_, hnew, rfl⟩
      · rename_i hk
        exact item?_congr (hthere.others k hk)
  · have hmade := hthere.made _ (List.mem_append_right ns List.mem_cons_self)
    refine ⟨hw, ?_, ?_, ?_, ?_⟩
    · obtain ⟨_, rfl⟩ := hthere.rest
      rfl
    · intro hfree k m hm hmfile
      rcases hthere.old_or_new hm with hold | ⟨_, hnew, _⟩
      · exact hfree k m hold hmfile
      · rcases List.mem_append.mp hnew with hnew | hnew
        · rw [hdirs m hnew] at hmfile
          cases hmfile
        · cases List.mem_singleton.mp hnew
          exact (by decide : Attributes.isReadOnly ⟨Attributes.archiveBit⟩ = false)
    · intro old hold
      rw [item?_eq_none.mpr hnone] at hold
      cases hold
    · intro k
      split
      · rename_i hk
        subst hk
        exact item?_eq_file.mpr ⟨_, hkey ▸ hmade, rfl⟩
      · rename_i hk
        refine item?_congr (hthere.others k fun m hm he => hk ?_)
        have hmem : m.path.key ∈ v.gaps p := by
          rw [← hkeys, ← hkey]
          rcases List.mem_append.mp hm with hm | hm
          · exact List.mem_append_left _ (List.mem_map_of_mem hm)
          · cases List.mem_singleton.mp hm
            exact List.mem_append_right _ List.mem_cons_self
        exact he ▸ mem_gaps_of_parent hv hparent hmem

theorem deposit_deposited (hv : v.WellFormed) (hp : v.resolve typed = .ok p)
    (hparent : v.item? p.parent.key = some .directory) (hx : deposit typed item v = .ok () w) :
    Deposited v p.key item w := by
  cases item with
  | directory => exact deposited_directory hv hp hparent hx
  | file data => exact deposited_file hv hp hparent hx

theorem makeDirectories_resolved (hp : v.resolve typed = .ok p) :
    makeDirectories typed v = (ancestry p).forM ensureDirectory v := by
  unfold makeDirectories
  rw [bind_apply, query, hp]

theorem makeDirectories_of_parent (hv : v.WellFormed) (hp : v.resolve typed = .ok p)
    (hparent : v.isDirectoryAt p.parent.key = true)
    (hkind : ∀ n, v.node? p.key = some n → n.isDirectory = true) :
    ∃ w, makeDirectories typed v = .ok () w := by
  rw [makeDirectories_resolved hp]
  cases hn : v.node? p.key with
  | some n => exact ⟨v, ancestry_of_directory hv (isDirectoryAt_iff.mpr ⟨n, hn, hkind n hn⟩)⟩
  | none =>
    have hne : p ≠ [] := by
      rintro rfl
      cases hn
    obtain ⟨w, hw, _⟩ := ensureDirectory_new hv (hv.isName_of_resolve hp) hn hparent
    have hlast := forM_ancestry_concat p.parent p.leaf
    rw [Path.parent_append_leaf hne] at hlast
    rw [hlast, bind_apply, ancestry_of_directory hv hparent]
    exact ⟨w, hw⟩

theorem writeFile_of_parent (hv : v.WellFormed) (hfree : v.Unprotected)
    (hp : v.resolve typed = .ok p) (hparent : v.isDirectoryAt p.parent.key = true)
    (hkind : ∀ n, v.node? p.key = some n → n.isDirectory = false) (data : List UInt8) :
    ∃ w, writeFile typed data v = .ok () w := by
  have hname := hv.isName_of_resolve hp
  cases hn : v.node? p.key with
  | some n => exact writeFile_of_file hv hp hn (hkind n hn) (hfree _ n hn (hkind n hn)) data
  | none =>
    have hup : v.resolve p.parent.text = .ok p.parent :=
      Path.resolve_text (fun c hc => hname c (List.dropLast_subset p hc)) v.directory
    have hmake : makeDirectories p.parent.text v = .ok () v :=
      (makeDirectories_resolved hup).trans (ancestry_of_directory hv hparent)
    rw [writeFile_eq, bind_apply, query, hp]
    dsimp only
    rw [bind_apply, hmake]
    dsimp only
    rcases replaceFile_cases hv (Path.resolve_text hname v.directory) data with
      ⟨e, he, _⟩ | ⟨t, _, _, ht⟩
    · obtain ⟨d, hd, hdir⟩ := isDirectoryAt_iff.mp hparent
      unfold prepare at he
      rw [hn, (makeDirectoryAt_new hn hd hdir).1] at he
      cases he
    · exact ⟨_, ht⟩

/-- In a directory that is there, an entry can be made if nothing of the other kind is in its way. -/
theorem deposit_ok (hv : v.WellFormed) (hfree : v.Unprotected) (hp : v.resolve typed = .ok p)
    (hparent : v.item? p.parent.key = some .directory)
    (hkind : ∀ old, v.item? p.key = some old → old.isDirectory = item.isDirectory) :
    ∃ w, deposit typed item v = .ok () w := by
  have hdir : v.isDirectoryAt p.parent.key = true := item?_eq_directory.mp hparent
  have hnode : ∀ n, v.node? p.key = some n → n.isDirectory = item.isDirectory := by
    intro n hn
    obtain ⟨old, hold, hsame⟩ := exists_item? hn
    rw [← hsame, hkind old hold]
  cases item with
  | directory => exact makeDirectories_of_parent hv hp hdir hnode
  | file data => exact writeFile_of_parent hv hfree hp hdir hnode data

end OneEntry

section Row

/-- Places entries, each at its path below the target. -/
def depositAll (target : Text) (es : List (Path × Item)) : VolumeAction Unit :=
  es.forM fun e => deposit (e.1.foldl importPath target) e.2

theorem depositAll_cons (target : Text) (e : Path × Item) (es : List (Path × Item)) :
    depositAll target (e :: es) =
      deposit (e.1.foldl importPath target) e.2 >>= fun _ => depositAll target es := rfl

theorem depositAll_append (target : Text) (es later : List (Path × Item)) :
    depositAll target (es ++ later) = depositAll target es >>= fun _ => depositAll target later :=
  List.forM_append

theorem depositAll_below (target name : Text) (es : List (Path × Item)) :
    depositAll target (es.map fun e => (name :: e.1, e.2)) = depositAll (importPath target name) es := by
  induction es with
  | nil => rfl
  | cons e es ih =>
    rw [List.map_cons, depositAll_cons, depositAll_cons, ih]
    rfl

/-- An import makes all entries of the tree in their order, and counts the files. -/
theorem importEntries_eq (target : Text) (t : HostTree) :
    importEntries target t = (do
      depositAll target t.entries
      return t.files.length) := by
  induction t generalizing target with
  | nil => rfl
  | file name data rest ih =>
    rw [importEntries, HostTree.entries, depositAll_cons, HostTree.files_file, ih]
    simp [deposit]
  | directory name inside rest ihinside ihrest =>
    rw [importEntries, HostTree.entries, List.cons_append, depositAll_cons, depositAll_append,
      depositAll_below, HostTree.files_directory, ihinside, ihrest]
    simp [deposit]

theorem resolve_importPath (target : Text) {name : Text} (hname : Path.IsName name) :
    Path.resolve [] (importPath target name) = (Path.resolve [] target).map (· ++ [name]) := by
  unfold importPath
  split
  · rename_i hlast
    obtain ⟨above, rfl⟩ := List.getLast?_eq_some_iff.mp hlast
    rw [List.append_assoc, List.singleton_append, Path.resolve_concat [] above hname]
  · rw [Path.resolve_concat [] target hname]
    by_cases htarget : target = []
    · rw [htarget]
      rfl
    · rw [Path.resolve_separator [] htarget]

theorem resolve_below {target : Text} {path : Path} (hpath : ∀ name ∈ path, Path.IsName name)
    (hp : Path.resolve [] target = .ok p) :
    Path.resolve [] (path.foldl importPath target) = .ok (p ++ path) := by
  induction path generalizing target p with
  | nil => rw [List.append_nil, List.foldl_nil, hp]
  | cons name path ih =>
    have hfirst : Path.resolve [] (importPath target name) = .ok (p ++ [name]) := by
      rw [resolve_importPath target (hpath name List.mem_cons_self), hp]
      rfl
    rw [List.foldl_cons, ih (fun c hc => hpath c (List.mem_cons_of_mem name hc)) hfirst,
      List.append_assoc, List.singleton_append]

/-- Nothing of one kind is to be put where there is something of the other kind. -/
structure Agrees (v : Volume) (top : Path) (es : List (Path × Item)) : Prop where
  there : ∀ e ∈ es, ∀ old, v.item? (top ++ e.1.key) = some old → old.isDirectory = e.2.isDirectory
  each : ∀ a ∈ es, ∀ b ∈ es, a.1.key = b.1.key → a.2.isDirectory = b.2.isDirectory

/-- `w` is `v` with the entries below the top besides, the last one of each key, or in place of what
was there. -/
structure Laid (v : Volume) (top : Path) (es : List (Path × Item)) (w : Volume) : Prop where
  agrees : Agrees v top es
  below : ∀ k, w.item? (top ++ k) = (lastAt es k).or (v.item? (top ++ k))
  beside : ∀ k, ¬ top <+: k → w.item? k = v.item? k

section

variable {e : Path × Item} {es : List (Path × Item)}

theorem Deposited.below (h : Deposited v (top ++ key) item w) (k : Path) :
    w.item? (top ++ k) = if k = key then some item else v.item? (top ++ k) := by
  simp only [h.items, List.append_cancel_left_eq]

/-- An entry that could be made stands for itself in what comes after it. -/
theorem Deposited.agrees_cons (h : Deposited v (top ++ e.1.key) e.2 w) :
    Agrees v top (e :: es) ↔ Agrees w top es := by
  constructor
  · intro ha
    refine ⟨fun e' he' old hold => ?_, fun a ha' b hb' =>
      ha.each a (List.mem_cons_of_mem e ha') b (List.mem_cons_of_mem e hb')⟩
    rw [h.below] at hold
    split at hold
    · rename_i hkey
      cases hold
      exact ha.each e List.mem_cons_self e' (List.mem_cons_of_mem e he') hkey.symm
    · exact ha.there e' (List.mem_cons_of_mem e he') old hold
  · intro ha
    have hself : w.item? (top ++ e.1.key) = some e.2 := by rw [h.below, if_pos rfl]
    have hthere : ∀ e' ∈ e :: es, ∀ old, w.item? (top ++ e'.1.key) = some old →
        old.isDirectory = e'.2.isDirectory := by
      intro e' he' old hold
      rcases List.mem_cons.mp he' with rfl | he'
      · rw [hself] at hold
        cases hold
        rfl
      · exact ha.there e' he' old hold
    refine ⟨fun e' he' old hold => ?_, fun a hamem b hbmem hkey => ?_⟩
    · by_cases hkey : e'.1.key = e.1.key
      · rw [hkey] at hold
        exact (h.kind old hold).trans (hthere e' he' e.2 (hkey ▸ hself))
      · exact hthere e' he' old (by rw [h.below, if_neg hkey, hold])
    · rcases List.mem_cons.mp hamem with rfl | ha'
      · exact hthere b hbmem a.2 (hkey ▸ hself)
      · rcases List.mem_cons.mp hbmem with rfl | hb'
        · exact (hthere a hamem b.2 (hkey ▸ hself)).symm
        · exact ha.each a ha' b hb' hkey

theorem Laid.cons (h : Deposited v (top ++ e.1.key) e.2 u) (hrest : Laid u top es w) :
    Laid v top (e :: es) w where
  agrees := h.agrees_cons.mpr hrest.agrees
  below k := by
    rw [hrest.below, h.below, HostTree.lastAt_cons]
    cases lastAt es k with
    | some item => rfl
    | none => split <;> rfl
  beside k hk := by
    rw [hrest.beside k hk, h.items, if_neg]
    rintro rfl
    exact hk (List.prefix_append _ _)

/-- Where entries of a host directory can be made: some of the paths below are directories. -/
structure Ready (v : Volume) (p : Path) (there : Path → Prop) : Prop where
  wellFormed : v.WellFormed
  directory : v.directory = []
  there : ∀ k, there k → v.item? (p.key ++ k) = some .directory

variable {there : Path → Prop} {target : Text}

theorem Ready.next (hr : Ready v p there) (h : Deposited v (p.key ++ e.1.key) e.2 u) :
    Ready u p fun k => there k ∨ k = e.1.key ∧ e.2 = .directory := by
  refine ⟨h.wellFormed, h.directory.trans hr.directory, fun k hk => ?_⟩
  rw [h.below]
  split
  · rename_i hkey
    subst hkey
    rcases hk with hk | ⟨_, hdir⟩
    · have hkind := h.kind _ (hr.there _ hk)
      cases he : e.2 with
      | directory => rfl
      | file data =>
        rw [he] at hkind
        cases hkind
    · rw [hdir]
  · rename_i hkey
    rcases hk with hk | ⟨hk, _⟩
    · exact hr.there k hk
    · exact absurd hk hkey

/-- The place of an entry: the path resolves, and its directory is there. -/
theorem Ready.deposit (hr : Ready v p there) (hp : Path.resolve [] target = .ok p)
    (hname : ∀ name ∈ e.1, Path.IsName name) (hne : e.1 ≠ []) (hparent : there e.1.parent.key) :
    v.resolve (e.1.foldl importPath target) = .ok (p ++ e.1) ∧
      v.item? (Path.key (Path.parent (p ++ e.1))) = some .directory := by
  constructor
  · rw [resolve, hr.directory]
    exact resolve_below hname hp
  · have hup : Path.parent (p ++ e.1) = p ++ e.1.parent := List.dropLast_append_of_ne_nil hne
    rw [hup, Path.key_append]
    exact hr.there _ hparent

theorem depositAll_laid (hr : Ready v p there) (hp : Path.resolve [] target = .ok p)
    (hes : Rooted there es) (hnames : ∀ e ∈ es, ∀ name ∈ e.1, Path.IsName name)
    (hx : depositAll target es v = .ok () w) : Laid v p.key es w := by
  induction es generalizing v there with
  | nil =>
    cases hx
    exact ⟨⟨by simp, by simp⟩, fun k => rfl, fun k _ => rfl⟩
  | cons e es ih =>
    obtain ⟨hne, hparent, hrest⟩ := hes
    obtain ⟨hresolve, hup⟩ := hr.deposit hp (hnames e List.mem_cons_self) hne hparent
    obtain ⟨_, u, hfirst, hx⟩ := bind_ok_inv hx
    have hdeposited := deposit_deposited hr.wellFormed hresolve hup hfirst
    rw [Path.key_append] at hdeposited
    exact .cons hdeposited
      (ih (hr.next hdeposited) hrest (fun e' he' => hnames e' (List.mem_cons_of_mem e he')) hx)

/-- Entries that agree with what is there and with each other can all be made. -/
theorem depositAll_ok (hr : Ready v p there) (hfree : v.Unprotected)
    (hp : Path.resolve [] target = .ok p) (hes : Rooted there es)
    (hnames : ∀ e ∈ es, ∀ name ∈ e.1, Path.IsName name) (ha : Agrees v p.key es) :
    ∃ w, depositAll target es v = .ok () w := by
  induction es generalizing v there with
  | nil => exact ⟨v, rfl⟩
  | cons e es ih =>
    obtain ⟨hne, hparent, hrest⟩ := hes
    obtain ⟨hresolve, hup⟩ := hr.deposit hp (hnames e List.mem_cons_self) hne hparent
    obtain ⟨u, hfirst⟩ := deposit_ok hr.wellFormed hfree hresolve hup fun old hold =>
      ha.there e List.mem_cons_self old (Path.key_append p e.1 ▸ hold)
    have hdeposited := deposit_deposited hr.wellFormed hresolve hup hfirst
    rw [Path.key_append] at hdeposited
    obtain ⟨w, hw⟩ := ih (hr.next hdeposited) (hdeposited.unprotected hfree) hrest
      (fun e' he' => hnames e' (List.mem_cons_of_mem e he')) (hdeposited.agrees_cons.mp ha)
    refine ⟨w, ?_⟩
    rw [depositAll_cons, bind_apply, hfirst]
    exact hw

end

end Row

section Import

theorem ancestry_of_directories (hv : v.WellFormed) (hname : ∀ c ∈ p, Path.IsName c)
    (hall : ∀ k n, v.node? k = some n → n.isDirectory = true) :
    ∃ w, (ancestry p).forM ensureDirectory v = .ok () w := by
  induction p using List.reverseRecOn with
  | nil => exact ⟨v, rfl⟩
  | append_singleton p c ih =>
    have hup : ∀ d ∈ p, Path.IsName d := fun d hd => hname d (List.mem_append_left _ hd)
    obtain ⟨u, hx⟩ := ih hup
    obtain ⟨hu, hdir, ns, hns, _, hdirs⟩ := ancestry_entered hv hup hx
    rw [forM_ancestry_concat, bind_apply, hx]
    dsimp only
    cases hn : u.node? (Path.key (p ++ [c])) with
    | some n =>
      have hthere : n.isDirectory = true := by
        rcases hns.old_or_new hn with hold | ⟨_, hnew, _⟩
        · exact hall _ n hold
        · exact hdirs n hnew
      rw [ensureDirectory_of_some hn, if_pos hthere]
      exact ⟨u, rfl⟩
    | none =>
      have hparent : Path.parent (p ++ [c]) = p := List.dropLast_concat
      obtain ⟨w, hw, _⟩ := ensureDirectory_new hu hname hn (by rwa [hparent])
      exact ⟨w, hw⟩

/-- A key lies above the top, the top included, or below it, or neither. -/
theorem prefix_cases (top key : Path) :
    key <+: top ∨ (∃ k, k ≠ [] ∧ key = top ++ k) ∨ ¬ key <+: top ∧ ¬ top <+: key := by
  by_cases habove : key <+: top
  · exact Or.inl habove
  · by_cases hbelow : top <+: key
    · obtain ⟨k, rfl⟩ := hbelow
      refine Or.inr (Or.inl ⟨k, ?_, rfl⟩)
      rintro rfl
      rw [List.append_nil] at habove
      exact habove List.prefix_rfl
    · exact Or.inr (Or.inr ⟨habove, hbelow⟩)

/-- What a volume holds that was empty before the host's tree was copied below the top. -/
structure Filled (w : Volume) (top : Path) (t : HostTree) : Prop where
  above : ∀ k, k <+: top → w.item? k = some .directory
  below : ∀ k, k ≠ [] → w.item? (top ++ k) = t.item? k
  beside : ∀ k, ¬ k <+: top → ¬ top <+: k → w.item? k = none

variable {t : HostTree} {target : Text}

theorem directory_of_empty (hv : v.WellFormed) (hempty : ∀ k, k ≠ [] → v.node? k = none) :
    v.directory = [] := by
  obtain ⟨d, hd, _⟩ := hv.directory
  by_cases hk : v.directory.key = []
  · exact Path.key_eq_nil.mp hk
  · rw [hempty _ hk] at hd
    cases hd

/-- The target is made on an empty volume. -/
theorem makeDirectories_of_empty (hv : v.WellFormed) (hempty : ∀ k, k ≠ [] → v.node? k = none)
    (hp : v.resolve typed = .ok p) : ∃ w, makeDirectories typed v = .ok () w ∧
      Ready w p (· = []) ∧ w.Unprotected ∧ Filled w p.key .nil := by
  have hall : ∀ k n, v.node? k = some n → n.isDirectory = true := by
    intro k n hn
    by_cases hk : k = []
    · subst hk
      cases hn
      exact hv.root_isDirectory
    · rw [hempty k hk] at hn
      cases hn
  obtain ⟨w, hx⟩ := ancestry_of_directories hv (hv.isName_of_resolve hp) hall
  rw [← makeDirectories_resolved hp] at hx
  obtain ⟨q, hq, hw, hdir, ns, hns, hkeys, hdirs⟩ := makeDirectories_entered hv hx
  rw [hp] at hq
  cases hq
  have habove : ∀ k, k <+: p.key → w.item? k = some .directory := by
    rintro k ⟨r, hr⟩
    obtain ⟨d, hd, hddir⟩ := isDirectoryAt_iff.mp hdir
    rw [← hr] at hd
    obtain ⟨e, _, he, hedir, _⟩ := hw.above hd
    refine item?_eq_directory.mpr (isDirectoryAt_iff.mpr ⟨e, he, ?_⟩)
    by_cases hnil : r = []
    · subst hnil
      rw [List.append_nil, he] at hd
      cases hd
      exact hddir
    · exact hedir hnil
  have hrest : ∀ k, ¬ k <+: p.key → w.item? k = none := by
    intro k hk
    have hne : k ≠ [] := by
      rintro rfl
      exact hk List.nil_prefix
    rw [item?_eq_none, hns.others k, hempty k hne]
    rintro n hn rfl
    exact hk (mem_gaps.mp (hkeys ▸ List.mem_map_of_mem hn)).1
  refine ⟨w, hx, ⟨hw, ?_, ?_⟩, ?_, habove, ?_, fun k hk _ => hrest k hk⟩
  · obtain ⟨_, hsame⟩ := hns.rest
    have hhere := directory_of_empty hv hempty
    rw [hsame]
    exact hhere
  · rintro k rfl
    rw [List.append_nil]
    exact habove _ List.prefix_rfl
  · intro k n hn hfile
    rcases hns.old_or_new hn with hold | ⟨_, hnew, _⟩
    · rw [hall k n hold] at hfile
      cases hfile
    · rw [hdirs n hnew] at hfile
      cases hfile
  · intro k hk
    refine hrest _ fun hprefix => hk ?_
    have hlength := hprefix.length_le
    rw [List.length_append] at hlength
    exact List.length_eq_zero_iff.mp (by omega)

theorem Filled.agrees_iff (h : Filled v top .nil) : Agrees v top t.entries ↔ t.Apart := by
  rw [HostTree.apart_iff]
  refine ⟨Agrees.each, fun hkinds => ⟨fun e he old hold => ?_, hkinds⟩⟩
  rw [h.below _ (Path.key_eq_nil.not.mpr (HostTree.ne_nil_of_mem he))] at hold
  cases hold

theorem Filled.laid (h : Filled v top .nil) (hl : Laid v top t.entries w) : Filled w top t where
  above k hk := by
    by_cases htop : top <+: k
    · have he : k = top ++ [] := by rw [List.append_nil, hk.eq_of_length_le htop.length_le]
      rw [he, hl.below, List.append_nil, h.above top List.prefix_rfl]
      cases hlast : lastAt t.entries [] with
      | none => rfl
      | some item =>
        obtain ⟨e, he, hkey, _⟩ := HostTree.lastAt_eq_some hlast
        exact absurd (Path.key_eq_nil.mp hkey) (HostTree.ne_nil_of_mem he)
    · rw [hl.beside k htop, h.above k hk]
  below k hk := by
    rw [hl.below, h.below k hk]
    exact Option.or_none
  beside k hk htop := by rw [hl.beside k htop, h.beside k hk htop]

/-- An import to an empty volume succeeds exactly if no file of the host meets a directory. -/
theorem importTree_of_empty (hv : v.WellFormed) (hempty : ∀ k, k ≠ [] → v.node? k = none)
    (hp : v.resolve target = .ok p) (ht : t.Accepted) :
    (t.Apart → ∃ w, importTree target t v = .ok t.files.length w) ∧
    ∀ n w, importTree target t v = .ok n w → n = t.files.length ∧ t.Apart ∧ Filled w p.key t := by
  obtain ⟨u, hmake, hready, hfree, hfilled⟩ := makeDirectories_of_empty hv hempty hp
  have himport : importTree target t v = importEntries target t u := by
    unfold importTree
    rw [bind_apply, hmake]
  have htarget : Path.resolve [] target = .ok p := by
    rw [← directory_of_empty hv hempty]
    exact hp
  have hrooted : Rooted (· = []) t.entries := t.rooted_entries rfl
  rw [himport, importEntries_eq]
  constructor
  · intro hs
    obtain ⟨w, hx⟩ := depositAll_ok hready hfree htarget hrooted ht (hfilled.agrees_iff.mpr hs)
    exact ⟨w, by rw [bind_apply, hx]; rfl⟩
  · intro n w hx
    obtain ⟨_, w', hdeposit, hx⟩ := bind_ok_inv hx
    cases hx
    have hlaid := depositAll_laid hready htarget hrooted ht hdeposit
    exact ⟨rfl, hfilled.agrees_iff.mp hlaid.agrees, hfilled.laid hlaid⟩

/-- The volume holds `n` files, one for every file of the host, each with its bytes at its path up to
the case, a directory for every directory of the host, and nothing else. -/
structure Mirrors (w : Volume) (top : Path) (t : HostTree) (n : Nat) : Prop where
  count : {key | ∃ data, w.item? key = some (.file data)}.ncard = n
  file : ∀ f ∈ t.files, w.item? (top ++ f.1.key) = some (.file f.2)
  directory : ∀ d ∈ t.directories, w.item? (top ++ d.key) = some .directory
  nothing_else : ∀ key, w.item? key ≠ none → key <+: top ∨
    (∃ f ∈ t.files, key = top ++ f.1.key) ∨ ∃ d ∈ t.directories, key = top ++ d.key

theorem ncard_mem {α : Type} [DecidableEq α] (l : List α) : {a | a ∈ l}.ncard = l.dedup.length := by
  have hset : {a | a ∈ l} = (l.toFinset : Set α) := by
    ext a
    simp
  rw [hset, Set.ncard_coe_finset, List.card_toFinset]

theorem length_dedup_iff {α : Type} [DecidableEq α] {l : List α} :
    l.dedup.length = l.length ↔ l.Nodup := by
  constructor
  · intro h
    rw [← l.dedup_sublist.eq_of_length h]
    exact l.nodup_dedup
  · intro h
    rw [h.dedup]

namespace Filled

theorem entry (h : Filled w top t) {e : Path × Item} (he : e ∈ t.entries) :
    w.item? (top ++ e.1.key) = t.item? e.1.key :=
  h.below _ (Path.key_eq_nil.not.mpr (HostTree.ne_nil_of_mem he))

/-- What is found below the target was listed there; all else is the way to the target. -/
theorem listed (h : Filled w top t) {key : Path} (hkey : w.item? key = some item) :
    key <+: top ∧ item = .directory ∨ ∃ e ∈ t.entries, key = top ++ e.1.key ∧ e.2 = item := by
  rcases prefix_cases top key with habove | ⟨k, hk, rfl⟩ | ⟨habove, hbelow⟩
  · rw [h.above key habove] at hkey
    cases hkey
    exact Or.inl ⟨habove, rfl⟩
  · rw [h.below k hk] at hkey
    obtain ⟨e, he, rfl, hitem⟩ := HostTree.listed_of_item? hkey
    exact Or.inr ⟨e, he, rfl, hitem⟩
  · rw [h.beside key habove hbelow] at hkey
    cases hkey

/-- The keys of its files are those of the host's files. -/
theorem file_keys (h : Filled w top t) (hs : t.Apart) :
    {key | ∃ data, w.item? key = some (.file data)} =
      {key | key ∈ t.files.map fun f => top ++ f.1.key} := by
  ext key
  rw [Set.mem_ofPred_eq, Set.mem_ofPred_eq, List.mem_map]
  constructor
  · rintro ⟨data, hdata⟩
    rcases h.listed hdata with ⟨_, hdir⟩ | ⟨e, he, rfl, hitem⟩
    · cases hdir
    · exact ⟨(e.1, data), HostTree.mem_files.mpr (hitem ▸ he), rfl⟩
  · rintro ⟨f, hf, rfl⟩
    obtain ⟨data, hdata⟩ := hs.item?_file hf
    exact ⟨data, (h.entry (HostTree.mem_files.mp hf)).trans hdata⟩

theorem count_iff (h : Filled w top t) (hs : t.Apart) :
    {key | ∃ data, w.item? key = some (.file data)}.ncard = t.files.length ↔ t.Distinct := by
  have hmap : (t.files.map fun f => top ++ f.1.key) =
      (t.files.map fun f => f.1.key).map (top ++ ·) := by
    rw [List.map_map]
    rfl
  have hlength : t.files.length = (t.files.map fun f => top ++ f.1.key).length :=
    (List.length_map _).symm
  rw [h.file_keys hs, ncard_mem, hlength, length_dedup_iff, hmap,
    List.nodup_map_iff (List.append_right_injective top)]
  rfl

/-- It mirrors the host exactly if no two files of the host have one path. -/
theorem mirrors_iff (h : Filled w top t) (hs : t.Apart) :
    Mirrors w top t t.files.length ↔ t.Distinct := by
  refine ⟨fun hm => (h.count_iff hs).mp hm.count, fun hd => ⟨(h.count_iff hs).mpr hd, ?_, ?_, ?_⟩⟩
  · intro f hf
    exact (h.entry (HostTree.mem_files.mp hf)).trans (hd.item? hs hf)
  · intro d hdir
    exact (h.entry (HostTree.mem_directories.mp hdir)).trans (hs.item?_directory hdir)
  · intro key hkey
    obtain ⟨item, hitem⟩ := Option.ne_none_iff_exists'.mp hkey
    rcases h.listed hitem with ⟨habove, _⟩ | ⟨⟨path, item⟩, he, rfl, rfl⟩
    · exact Or.inl habove
    · cases item with
      | directory => exact Or.inr (Or.inr ⟨path, HostTree.mem_directories.mpr he, rfl⟩)
      | file data => exact Or.inr (Or.inl ⟨(path, data), HostTree.mem_files.mpr he, rfl⟩)

/-- Volumes filled from two trees show alike what the trees show alike. -/
theorem congr {β : Type} {t' : HostTree} (h : Filled v top t) (h' : Filled w top t')
    {f : Option Item → β} (hf : ∀ k, f (t'.item? k) = f (t.item? k)) (key : Path) :
    f (w.item? key) = f (v.item? key) := by
  rcases prefix_cases top key with habove | ⟨k, hk, rfl⟩ | ⟨habove, hbelow⟩
  · rw [h.above key habove, h'.above key habove]
  · rw [h.below k hk, h'.below k hk, hf]
  · rw [h.beside key habove hbelow, h'.beside key habove hbelow]

end Filled

/-- An import to an empty volume succeeds exactly if no file of the host has the path of a directory up
to the case, and counts the files of the host. The volume then mirrors the host exactly if no two files
have one path up to the case; of those that have, it holds the one that was listed last. In another
order of the host's entries the count is the same, and so are the keys of all files and directories;
where no two files have one path, so is all that is there. -/
theorem import_of_host_tree (label : Text) (ops : List Operation)
    (hv : v = (labelled label).runAll ops) (hempty : ∀ k, k ≠ [] → v.node? k = none)
    (hp : v.resolve target = .ok p) (ht : t.Accepted) :
    ((∃ n w, importTree target t v = .ok n w) ↔ t.Apart) ∧
    ∀ n w, importTree target t v = .ok n w →
      n = t.files.length ∧ Filled w p.key t ∧ (Mirrors w p.key t n ↔ t.Distinct) ∧
      ∀ t', t.Relisted t' → ∃ w', importTree target t' v = .ok n w' ∧
        (∀ k, (w'.item? k).map Item.isDirectory = (w.item? k).map Item.isDirectory) ∧
        (t.Distinct → ∀ k, w'.item? k = w.item? k) := by
  have hwf : v.WellFormed := .of_runAll hv
  obtain ⟨hsucceeds, hok⟩ := importTree_of_empty hwf hempty hp ht
  refine ⟨⟨fun ⟨n, w, hx⟩ => (hok n w hx).2.1, fun hs => ⟨_, hsucceeds hs⟩⟩, fun n w hx => ?_⟩
  obtain ⟨rfl, hs, hfilled⟩ := hok n w hx
  refine ⟨rfl, hfilled, hfilled.mirrors_iff hs, fun t' hlisted => ?_⟩
  obtain ⟨hsucceeds', hok'⟩ := importTree_of_empty hwf hempty hp (hlisted.accepted ht)
  obtain ⟨w', hx'⟩ := hsucceeds' (hlisted.apart hs)
  obtain ⟨_, _, hfilled'⟩ := hok' _ _ hx'
  refine ⟨w', ?_, hfilled.congr hfilled' (hlisted.kind hs), fun hd =>
    hfilled.congr hfilled' (f := id) (hlisted.item? hs hd)⟩
  rw [hx', hlisted.files.length_eq]

theorem empty_labelled (label : Text) {k : Path} (hk : k ≠ []) : (labelled label).node? k = none :=
  node?_of_ne _ hk

/-- A file in a directory, and one beside it. -/
theorem import_of_two_files :
    let t : HostTree := .directory ['d'] (.file ['a'] [1] .nil) (.file ['B'] [2] .nil)
    t.Accepted ∧ t.Distinct ∧ ∃ w, importTree "/" t (labelled []) = .ok 2 w ∧ Mirrors w [] t 2 := by
  intro t
  have hnames : t.Accepted := by decide +kernel
  have hdistinct : t.Distinct := by decide +kernel
  have hroot : (labelled []).resolve "/" = .ok [] := rfl
  obtain ⟨hsucceeds, hok⟩ :=
    import_of_host_tree [] [] rfl (fun _ => empty_labelled []) hroot hnames
  obtain ⟨n, w, hx⟩ := hsucceeds.mpr (by decide +kernel)
  obtain ⟨rfl, _, hmirrors, _⟩ := hok n w hx
  exact ⟨hnames, hdistinct, w, hx, hmirrors.mpr hdistinct⟩

/-- Of two files whose names differ in their case only, both are counted, and the one that was listed
last is kept. -/
theorem import_of_two_cases :
    let t : HostTree := .file ['a'] [1] (.file ['A'] [2] .nil)
    let t' : HostTree := .file ['A'] [2] (.file ['a'] [1] .nil)
    t.Accepted ∧ t.Relisted t' ∧
    ∃ w w', importTree "/" t (labelled []) = .ok 2 w ∧ importTree "/" t' (labelled []) = .ok 2 w' ∧
      w.item? [['a']] = some (.file [2]) ∧ w'.item? [['a']] = some (.file [1]) ∧
      ¬ Mirrors w [] t 2 := by
  intro t t'
  have hnames : t.Accepted := by decide +kernel
  have hlisted : t.Relisted t' := .swap (.file ['a'] [1] .nil) (.file ['A'] [2] .nil)
  have himport : ∀ s : HostTree, s.Accepted → s.Apart → ∃ w,
      importTree "/" s (labelled []) = .ok s.files.length w ∧ Filled w [] s := by
    intro s haccepted hs
    have hroot : (labelled []).resolve "/" = .ok [] := rfl
    obtain ⟨hsucceeds, hok⟩ :=
      importTree_of_empty (wellFormed_labelled []) (fun _ => empty_labelled []) hroot haccepted
    obtain ⟨w, hx⟩ := hsucceeds hs
    exact ⟨w, hx, (hok _ _ hx).2.2⟩
  obtain ⟨w, hx, hw⟩ := himport t hnames (by decide +kernel)
  obtain ⟨w', hx', hw'⟩ := himport t' (hlisted.accepted hnames) (by decide +kernel)
  have hlast : w.item? [['a']] = some (.file [2]) :=
    (hw.below [['a']] (by decide)).trans (by decide +kernel)
  have hlast' : w'.item? [['a']] = some (.file [1]) :=
    (hw'.below [['a']] (by decide)).trans (by decide +kernel)
  refine ⟨hnames, hlisted, w, w', hx, hx', hlast, hlast', fun hm => ?_⟩
  have hfirst := hm.file ([['a']], [1]) List.mem_cons_self
  have hkey : Path.key [['a']] = [['a']] := by decide +kernel
  rw [List.nil_append, hkey, hlast] at hfirst
  cases hfirst

end Import

end CardShell.Volume
