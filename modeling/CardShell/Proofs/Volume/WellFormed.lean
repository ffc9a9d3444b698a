import CardShell.Proofs.Forest
import CardShell.Proofs.Path
import CardShell.Proofs.Volume.Cases
import Mathlib.Data.List.Induction

/-!
The invariant of a volume: the tree of stored paths, the current directory and the open files fit
together. It is stated on what `node?` finds, and each operation is shown to keep it.
-/

set_option autoImplicit false

namespace CardShell.Volume

open CardShell.Action

/-- What ties the nodes, the current directory and the open files of a volume together. -/
structure WellFormed (v : Volume) : Prop where
  root_path : v.root.path = []
  root_isDirectory : v.root.isDirectory = true
  /-- No entry hides another one from `node?`. -/
  distinct : v.nodes.Distinct
  key_path : ∀ {key n}, v.node? key = some n → n.path.key = key
  parent : ∀ {key n}, v.node? key = some n → key ≠ [] →
    ∃ d name, v.node? key.dropLast = some d ∧ d.isDirectory = true ∧ Path.IsName name ∧
      n.path = d.path ++ [name]
  order_lt : ∀ {key n}, v.node? key = some n → n.order < v.nextOrder
  order_inj : ∀ {key key' n n'}, v.node? key = some n → v.node? key' = some n' →
    n.order = n'.order → key = key'
  directory : ∃ d, v.node? v.directory.key = some d ∧ d.isDirectory = true ∧ d.path = v.directory
  files : ∀ p ∈ v.files, ∃ n, v.node? p.2.key = some n ∧ n.isDirectory = false

variable {v w : Volume} {key : Path} {n : Node}

@[simp] theorem node?_nil (v : Volume) : v.node? [] = some v.root := rfl

theorem node?_of_ne (v : Volume) (h : key ≠ []) : v.node? key = v.nodes.get? key := if_neg h

theorem wellFormed_labelled (label : Text) : (labelled label).WellFormed := by
  have hroot : ∀ {key n}, (labelled label).node? key = some n →
      key = [] ∧ n = (labelled label).root := by
    intro key n h
    by_cases hk : key = []
    · subst hk
      cases h
      exact ⟨rfl, rfl⟩
    · rw [node?_of_ne _ hk] at h
      simp [labelled] at h
  refine
    { root_path := rfl
      root_isDirectory := rfl
      distinct := trivial
      key_path := ?_
      parent := ?_
      order_lt := ?_
      order_inj := ?_
      directory := ⟨_, rfl, rfl, rfl⟩
      files := ?_ }
  · intro key n h
    obtain ⟨rfl, rfl⟩ := hroot h
    rfl
  · intro key n h hk
    exact absurd (hroot h).1 hk
  · intro key n h
    obtain ⟨rfl, rfl⟩ := hroot h
    exact Nat.zero_lt_one
  · intro key key' n n' h h' _
    rw [(hroot h).1, (hroot h').1]
  · intro p hp
    cases hp

section Consequences

namespace WellFormed

/-- Above a node there are directories all the way, and their stored paths begin its own. -/
theorem above (h : v.WellFormed) {r : Path} (hn : v.node? (key ++ r) = some n) :
    ∃ d names, v.node? key = some d ∧ (r ≠ [] → d.isDirectory = true) ∧
      n.path = d.path ++ names ∧ names.key = r := by
  induction r using List.reverseRecOn generalizing n with
  | nil =>
    rw [List.append_nil] at hn
    exact ⟨n, [], hn, fun hr => absurd rfl hr, (List.append_nil _).symm, rfl⟩
  | append_singleton r k ih =>
    have hne : key ++ (r ++ [k]) ≠ [] := by simp
    have hkey := h.key_path hn
    obtain ⟨d, name, hd, hdir, _, hpath⟩ := h.parent hn hne
    rw [← List.append_assoc, List.dropLast_concat] at hd
    rw [hpath, Path.key_append, h.key_path hd, ← List.append_assoc] at hkey
    have hname : Path.key [name] = [k] := List.append_cancel_left hkey
    obtain ⟨e, names, he, hedir, hdpath, hnames⟩ := ih hd
    refine ⟨e, names ++ [name], he, fun _ => ?_, ?_, ?_⟩
    · by_cases hr : r = []
      · subst hr
        rw [List.append_nil, he] at hd
        cases hd
        exact hdir
      · exact hedir hr
    · rw [hpath, hdpath, List.append_assoc]
    · rw [Path.key_append, hnames, hname]

theorem node?_none_of_prefix (h : v.WellFormed) (hn : v.node? key = none) {q : Path}
    (hq : key <+: q) : v.node? q = none := by
  obtain ⟨r, rfl⟩ := hq
  cases hm : v.node? (key ++ r) with
  | none => rfl
  | some m =>
    obtain ⟨d, _, hd, _⟩ := h.above hm
    rw [hn] at hd
    cases hd

theorem length_path (h : v.WellFormed) (hn : v.node? key = some n) :
    n.path.length = key.length := by
  rw [← Path.length_key, h.key_path hn]

theorem isName_of_mem (h : v.WellFormed) (hn : v.node? key = some n) :
    ∀ c ∈ n.path, Path.IsName c := by
  induction key using List.reverseRecOn generalizing n with
  | nil =>
    cases hn
    rw [h.root_path]
    simp
  | append_singleton r k ih =>
    obtain ⟨d, name, hd, _, hname, hpath⟩ := h.parent hn (by simp)
    rw [List.dropLast_concat] at hd
    intro c hc
    rw [hpath, List.mem_append, List.mem_singleton] at hc
    rcases hc with hc | rfl
    · exact ih hd c hc
    · exact hname

theorem isName_of_resolve (h : v.WellFormed) {typed : Text} {p : Path}
    (hp : v.resolve typed = .ok p) : ∀ c ∈ p, Path.IsName c := by
  obtain ⟨d, hd, _, hpath⟩ := h.directory
  refine Path.isName_of_resolve ?_ hp
  rw [← hpath]
  exact h.isName_of_mem hd

/-- Where a new entry comes to be stored: right below a directory that is there, under the key of
the path it was asked for. -/
theorem newPath (h : v.WellFormed) {p new : Path} (hp : p ≠ []) (hnew : v.newPath p = .ok new) :
    ∃ d, v.node? p.parent.key = some d ∧ d.isDirectory = true ∧ new = d.path ++ [p.leaf] ∧
      new.key = p.key := by
  obtain ⟨d, hd, hdir, rfl⟩ := newPath_ok hnew
  refine ⟨d, hd, hdir, rfl, ?_⟩
  rw [Path.key_append, h.key_path hd, ← Path.key_append, Path.parent_append_leaf hp]

end WellFormed

end Consequences

section SameTree

/-- What the invariant says of a single node. -/
def shapeAt (v : Volume) (key : Path) : Option (Path × Bool × Nat) :=
  (v.node? key).map fun n => (n.path, n.isDirectory, n.order)

theorem node?_of_shapeAt (h : w.shapeAt key = v.shapeAt key) (hn : w.node? key = some n) :
    ∃ m, v.node? key = some m ∧ m.path = n.path ∧ m.isDirectory = n.isDirectory ∧
      m.order = n.order := by
  unfold shapeAt at h
  rw [hn, Option.map_some, eq_comm, Option.map_eq_some_iff] at h
  obtain ⟨m, hm, he⟩ := h
  simp only [Prod.mk.injEq] at he
  exact ⟨m, hm, he⟩

/-- A volume whose nodes have kept path, kind and order is well-formed if its current directory
and its open files were there before. -/
theorem WellFormed.of_shapeAt (h : v.WellFormed) (hs : ∀ q, w.shapeAt q = v.shapeAt q)
    (hd : w.nodes.Distinct) (ho : w.nextOrder = v.nextOrder)
    (hdir : ∃ d, v.node? w.directory.key = some d ∧ d.isDirectory = true ∧ d.path = w.directory)
    (hf : ∀ p ∈ w.files, ∃ n, v.node? p.2.key = some n ∧ n.isDirectory = false) :
    w.WellFormed := by
  obtain ⟨r, hr, hrpath, hrdir, _⟩ := node?_of_shapeAt (hs []) (node?_nil w)
  cases hr
  have hback : ∀ {q n}, v.node? q = some n → ∃ m, w.node? q = some m ∧ m.path = n.path ∧
      m.isDirectory = n.isDirectory ∧ m.order = n.order :=
    fun {q _} hn => node?_of_shapeAt (hs q).symm hn
  refine
    { root_path := by rw [← hrpath, h.root_path]
      root_isDirectory := by rw [← hrdir, h.root_isDirectory]
      distinct := hd
      key_path := ?_
      parent := ?_
      order_lt := ?_
      order_inj := ?_
      directory := ?_
      files := ?_ }
  · intro key n hn
    obtain ⟨m, hm, hpath, _⟩ := node?_of_shapeAt (hs key) hn
    rw [← hpath, h.key_path hm]
  · intro key n hn hk
    obtain ⟨m, hm, hpath, _⟩ := node?_of_shapeAt (hs key) hn
    obtain ⟨d, name, hd, hdir, hname, hm'⟩ := h.parent hm hk
    obtain ⟨e, he, hepath, hedir, _⟩ := hback hd
    exact ⟨e, name, he, by rw [hedir, hdir], hname, by rw [← hpath, hm', hepath]⟩
  · intro key n hn
    obtain ⟨m, hm, _, _, horder⟩ := node?_of_shapeAt (hs key) hn
    rw [← horder, ho]
    exact h.order_lt hm
  · intro key key' n n' hn hn' he
    obtain ⟨m, hm, _, _, horder⟩ := node?_of_shapeAt (hs key) hn
    obtain ⟨m', hm', _, _, horder'⟩ := node?_of_shapeAt (hs key') hn'
    exact h.order_inj hm hm' (by rw [horder, horder', he])
  · obtain ⟨d, hd, hddir, hdpath⟩ := hdir
    obtain ⟨e, he, hepath, hedir, _⟩ := hback hd
    exact ⟨e, he, by rw [hedir, hddir], by rw [hepath, hdpath]⟩
  · intro p hp
    obtain ⟨n, hn, hfile⟩ := hf p hp
    obtain ⟨m, hm, _, hmdir, _⟩ := hback hn
    exact ⟨m, hm, by rw [hmdir, hfile]⟩

theorem node?_updateNode (v : Volume) (key : Path) (f : Node → Node) (q : Path) :
    (v.updateNode key f).node? q = if q = key then (v.node? q).map f else v.node? q := by
  unfold updateNode
  by_cases hk : key = []
  · subst hk
    rw [if_pos rfl]
    by_cases hq : q = []
    · subst hq
      rfl
    · rw [if_neg hq, node?_of_ne _ hq, node?_of_ne _ hq]
  · rw [if_neg hk]
    by_cases hq : q = []
    · subst hq
      rw [if_neg (fun h => hk h.symm)]
      rfl
    · rw [node?_of_ne _ hq, node?_of_ne _ hq]
      exact Forest.get?_modify v.nodes f key q

/-- A change of one node that keeps its path, kind and order keeps the shape. -/
theorem shapeAt_updateNode (v : Volume) (key : Path) {f : Node → Node}
    (hf : ∀ n, v.node? key = some n → (f n).path = n.path ∧ (f n).isDirectory = n.isDirectory ∧
      (f n).order = n.order) (q : Path) :
    (v.updateNode key f).shapeAt q = v.shapeAt q := by
  unfold shapeAt
  rw [node?_updateNode]
  by_cases hq : q = key
  · subst hq
    rw [if_pos rfl]
    cases hn : v.node? q with
    | none => rfl
    | some n =>
      obtain ⟨hp, hd, ho⟩ := hf n hn
      simp only [Option.map_some, hp, hd, ho]
  · rw [if_neg hq]

theorem WellFormed.updateNode (h : v.WellFormed) (key : Path) {f : Node → Node}
    (hf : ∀ n, v.node? key = some n → (f n).path = n.path ∧ (f n).isDirectory = n.isDirectory ∧
      (f n).order = n.order) : (v.updateNode key f).WellFormed := by
  have hs := shapeAt_updateNode v key hf
  unfold Volume.updateNode at hs ⊢
  by_cases hk : key = []
  · rw [if_pos hk] at hs ⊢
    exact h.of_shapeAt hs h.distinct rfl h.directory h.files
  · rw [if_neg hk] at hs ⊢
    exact h.of_shapeAt hs (Forest.distinct_modify f h.distinct key) rfl h.directory h.files

/-- Files may be opened, closed and moved in, as long as all of them are there. -/
theorem WellFormed.withFiles (h : v.WellFormed) (hn : w.root = v.root) (hns : w.nodes = v.nodes)
    (hd : w.directory = v.directory) (ho : w.nextOrder = v.nextOrder)
    (hf : ∀ p ∈ w.files, ∃ n, v.node? p.2.key = some n ∧ n.isDirectory = false) :
    w.WellFormed := by
  have hnode : ∀ q, w.node? q = v.node? q := by
    intro q
    unfold node?
    rw [hn, hns]
  refine h.of_shapeAt (fun q => ?_) (hns ▸ h.distinct) ho (hd ▸ h.directory) hf
  unfold shapeAt
  rw [hnode]

theorem mem_of_mem_set {h : Nat} {f : OpenFile} {t : Table Nat OpenFile} {p : Nat × OpenFile}
    (hp : p ∈ t.set h f) : p = (h, f) ∨ p ∈ t := by
  rcases List.mem_cons.mp hp with hp | hp
  · exact Or.inl hp
  · exact Or.inr (List.mem_filter.mp hp).1

theorem mem_of_get? {h : Nat} {f : OpenFile} {t : Table Nat OpenFile} (hf : t.get? h = some f) :
    (h, f) ∈ t := by
  induction t with
  | nil => cases hf
  | cons p t ih =>
    obtain ⟨k, g⟩ := p
    rw [Table.get?] at hf
    split at hf
    · rename_i hk
      cases hf
      rw [hk]
      exact List.mem_cons_self
    · exact List.mem_cons_of_mem _ (ih hf)

/-- A handle's position may change; its file may not. -/
theorem WellFormed.updateFile (hv : v.WellFormed) (h : Nat) {f : OpenFile → OpenFile}
    (hf : ∀ g, (f g).key = g.key) : (v.updateFile h f).WellFormed := by
  unfold Volume.updateFile
  cases hg : v.files.get? h with
  | none => exact hv
  | some g =>
    refine hv.withFiles rfl rfl rfl rfl ?_
    intro p hp
    rcases mem_of_mem_set hp with rfl | hp
    · rw [hf]
      exact hv.files _ (mem_of_get? hg)
    · exact hv.files p hp

end SameTree

section Changes

theorem root_or_get? {v : Volume} {d : Node} (h : v.node? key = some d) :
    key = [] ∨ (v.nodes.get? key).isSome := by
  by_cases hk : key = []
  · exact Or.inl hk
  · rw [node?_of_ne v hk] at h
    exact Or.inr (by rw [h]; rfl)

/-- The key of a path one name below another. -/
theorem key_concat (d : Path) (name : Text) : Path.key (d ++ [name]) = d.key ++ [name.lower] := by
  rw [Path.key_append]
  rfl

theorem node?_insert (h : v.WellFormed) {d : Node} {name : Text} (content : Content)
    (hd : v.node? d.path.key = some d) (hn : v.node? (d.path ++ [name]).key = none) (q : Path) :
    (v.insert (d.path ++ [name]) content).node? q =
      if q = (d.path ++ [name]).key then
        some ⟨d.path ++ [name], content, v.stamp,
          ⟨if content = .directory then 0 else Attributes.archiveBit⟩, v.nextOrder⟩
      else v.node? q := by
  by_cases hq : q = []
  · subst hq
    rw [if_neg (by simp)]
    rfl
  · rw [node?_of_ne _ hq, node?_of_ne _ hq]
    unfold insert
    simp only
    rw [key_concat] at hn ⊢
    rw [Forest.get?_put _ _ _ _ (root_or_get? hd)]
    by_cases he : q = d.path.key ++ [name.lower]
    · rw [if_pos he, if_pos he]
    · rw [if_neg he, if_neg he]
      by_cases hp : d.path.key ++ [name.lower] <+: q
      · rw [if_pos hp, Forest.get?_empty, ← node?_of_ne v hq, h.node?_none_of_prefix hn hp]
      · rw [if_neg hp]

theorem WellFormed.insert (h : v.WellFormed) {p stored : Path} (content : Content)
    (hname : ∀ c ∈ p, Path.IsName c) (hn : v.node? p.key = none)
    (hnew : v.newPath p = .ok stored) : (v.insert stored content).WellFormed := by
  have hp : p ≠ [] := by
    rintro rfl
    cases hn
  obtain ⟨d, hd, hdir, rfl, hkey⟩ := h.newPath hp hnew
  have hdkey := h.key_path hd
  rw [← hkey] at hn
  rw [← hdkey] at hd
  have hnode := node?_insert h content hd hn
  have hold : ∀ {q n}, v.node? q = some n →
      (v.insert (d.path ++ [p.leaf]) content).node? q = some n := by
    intro q n hq
    rw [hnode, if_neg, hq]
    rintro rfl
    rw [hn] at hq
    cases hq
  refine
    { root_path := h.root_path
      root_isDirectory := h.root_isDirectory
      distinct := Forest.distinct_put (s := .nil) _ trivial h.distinct _
      key_path := ?_
      parent := ?_
      order_lt := ?_
      order_inj := ?_
      directory := ?_
      files := ?_ }
  · intro key n hq
    rw [hnode] at hq
    split at hq
    · rename_i he
      cases hq
      exact he.symm
    · exact h.key_path hq
  · intro key n hq hk
    rw [hnode] at hq
    split at hq
    · rename_i he
      cases hq
      rw [he, key_concat, List.dropLast_concat]
      exact ⟨d, p.leaf, hold hd, hdir, hname _ (Path.leaf_mem hp), rfl⟩
    · obtain ⟨e, name, he, hedir, hename, hpath⟩ := h.parent hq hk
      exact ⟨e, name, hold he, hedir, hename, hpath⟩
  · intro key n hq
    rw [hnode] at hq
    split at hq
    · cases hq
      exact Nat.lt_succ_self _
    · exact Nat.lt_succ_of_lt (h.order_lt hq)
  · intro key key' n n' hq hq' he
    rw [hnode] at hq hq'
    split at hq
    · rename_i hk
      split at hq'
      · rename_i hk'
        rw [hk, hk']
      · cases hq
        exact absurd he.symm (Nat.ne_of_lt (h.order_lt hq'))
    · split at hq'
      · cases hq'
        exact absurd he (Nat.ne_of_lt (h.order_lt hq))
      · exact h.order_inj hq hq' he
  · obtain ⟨e, he, hedir, hepath⟩ := h.directory
    exact ⟨e, hold he, hedir, hepath⟩
  · intro f hf
    obtain ⟨n, hq, hfile⟩ := h.files f hf
    exact ⟨n, hold hq, hfile⟩

theorem node?_erase (v : Volume) (hk : key ≠ []) (q : Path) :
    { v with nodes := v.nodes.erase key }.node? q = if key <+: q then none else v.node? q := by
  by_cases hq : q = []
  · subst hq
    rw [if_neg (fun hp => hk (List.prefix_nil.mp hp))]
    rfl
  · rw [node?_of_ne _ hq, node?_of_ne _ hq]
    exact Forest.get?_erase v.nodes key q hk

theorem not_isUnder_of_isOpen (h : v.isOpen key = false) {p : Nat × OpenFile} (hp : p ∈ v.files) :
    ¬ key <+: p.2.key := by
  intro hu
  unfold isOpen at h
  rw [List.any_eq_false] at h
  exact h p hp (Path.isUnder_iff.mpr hu)

/-- A file, or a directory with nothing in it, has no node below it. -/
theorem WellFormed.eq_of_prefix (h : v.WellFormed) {n m : Node} (hn : v.node? key = some n)
    (hc : n.isDirectory = true → v.hasChildren key = false) {q : Path} (hq : key <+: q)
    (hm : v.node? q = some m) : q = key := by
  obtain ⟨r, rfl⟩ := hq
  by_cases hr : r = []
  · rw [hr, List.append_nil]
  · obtain ⟨d, _, hd, hdir, _⟩ := h.above hm
    rw [hn] at hd
    cases hd
    have hi := hc (hdir hr)
    unfold hasChildren at hi
    rw [Bool.not_eq_false'] at hi
    rw [node?_of_ne v (by simp [hr]), Forest.get?_eq_none_of_inside hi hr] at hm
    cases hm

theorem WellFormed.erase (h : v.WellFormed) (hk : key ≠ []) (hn : v.node? key = some n)
    (hc : n.isDirectory = true → v.hasChildren key = false ∧ key ≠ v.directory.key)
    (ho : v.isOpen key = false) : { v with nodes := v.nodes.erase key }.WellFormed := by
  have hnode := node?_erase v hk
  have hold : ∀ {q m}, { v with nodes := v.nodes.erase key }.node? q = some m →
      ¬ key <+: q ∧ v.node? q = some m := by
    intro q m hq
    rw [hnode] at hq
    split at hq
    · cases hq
    · rename_i hp
      exact ⟨hp, hq⟩
  refine
    { root_path := h.root_path
      root_isDirectory := h.root_isDirectory
      distinct := Forest.distinct_erase h.distinct key
      key_path := fun hq => h.key_path (hold hq).2
      parent := ?_
      order_lt := fun hq => h.order_lt (hold hq).2
      order_inj := fun hq hq' he => h.order_inj (hold hq).2 (hold hq').2 he
      directory := ?_
      files := ?_ }
  · intro q m hq hne
    obtain ⟨hp, hq⟩ := hold hq
    obtain ⟨d, name, hd, hdir, hname, hpath⟩ := h.parent hq hne
    refine ⟨d, name, ?_, hdir, hname, hpath⟩
    rw [hnode, if_neg (fun hp' => hp (hp'.trans (List.dropLast_prefix q))), hd]
  · obtain ⟨d, hd, hdir, hpath⟩ := h.directory
    refine ⟨d, ?_, hdir, hpath⟩
    rw [hnode, if_neg, hd]
    intro hp
    have he := h.eq_of_prefix hn (fun hn => (hc hn).1) hp hd
    rw [he, hn] at hd
    cases hd
    exact (hc hdir).2 he.symm
  · intro f hf
    obtain ⟨m, hm, hfile⟩ := h.files f hf
    refine ⟨m, ?_, hfile⟩
    rw [hnode, if_neg (not_isUnder_of_isOpen ho hf), hm]

end Changes

end CardShell.Volume
