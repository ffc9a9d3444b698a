import CardShell.Proofs.Flat.Text

/-!
When the one map holds what the tree holds: under the text of each key there is the tree's node with
the text of its path, and there is nothing else. What is looked up by a typed path is then the same,
and no cut on the way falls inside a character.
-/

set_option autoImplicit false

namespace CardShell

/-- The node with its path as one text. -/
def Node.flat (n : Node) : FlatNode := ⟨n.path.text, n.content, n.stamp, n.attributes, n.order⟩

@[simp] theorem Node.flat_isDirectory (n : Node) : n.flat.isDirectory = n.isDirectory := rfl

@[simp] theorem Node.flat_data? (n : Node) : n.flat.data? = n.data? := rfl

@[simp] theorem Node.flat_path (n : Node) : n.flat.path = n.path.text := rfl

def OpenFile.flat (f : OpenFile) : FlatFile := ⟨f.key.text, f.position, f.mode⟩

namespace Table

variable {κ α β : Type} [DecidableEq κ] (f : α → β) (k : κ) (t : Table κ α)

/-- The table with each of its values changed. -/
def mapValues (t : Table κ α) : Table κ β := t.map fun e => (e.1, f e.2)

theorem get?_mapValues : (t.mapValues f).get? k = (t.get? k).map f := by
  induction t with
  | nil => rfl
  | cons e t ih =>
    by_cases h : e.1 = k
    · simp [mapValues, get?, h]
    · simpa [mapValues, get?, h] using ih

theorem erase_mapValues : (t.mapValues f).erase k = (t.erase k).mapValues f := by
  unfold mapValues erase
  rw [List.filter_map]
  rfl

theorem set_mapValues (a : α) : (t.mapValues f).set k (f a) = (t.set k a).mapValues f := by
  unfold set
  rw [erase_mapValues]
  rfl

theorem has_mapValues : (t.mapValues f).has k = t.has k := by
  unfold has
  rw [get?_mapValues, Option.isSome_map]

end Table

namespace FlatVolume

open Path

structure Holds (c : FlatVolume) (v : Volume) : Prop where
  nodes : ∀ {p}, Named p → c.nodes[p.text]? = (v.node? p).map Node.flat
  named : ∀ {k n}, c.nodes[k]? = some n → ∃ p, Named p ∧ k = p.text
  directory : c.directory = v.directory.text
  label : c.label = v.label
  stamp : c.stamp = v.stamp
  nextOrder : c.nextOrder = v.nextOrder
  files : c.files = v.files.mapValues OpenFile.flat
  listings : c.listings = v.listings
  nextHandle : c.nextHandle = v.nextHandle

end FlatVolume

theorem Volume.WellFormed.named_path {v : Volume} (hv : v.WellFormed) {key : Path} {n : Node}
    (hn : v.node? key = some n) : n.path.Named := hv.isName_of_mem hn

theorem Volume.WellFormed.named_key {v : Volume} (hv : v.WellFormed) {key : Path} {n : Node}
    (hn : v.node? key = some n) : key.Named := by
  rw [← hv.key_path hn]
  exact (hv.named_path hn).key

theorem Volume.WellFormed.named_directory {v : Volume} (hv : v.WellFormed) : v.directory.Named := by
  obtain ⟨d, hd, _, hpath⟩ := hv.directory
  rw [← hpath]
  exact hv.named_path hd

namespace FlatVolume

open Path Volume

theorem holds_labelled (label : Text) : (labelled label).Holds (Volume.labelled label) where
  nodes {p} hp := by
    unfold labelled
    rw [TextMap.getElem?_insert, Std.TreeMap.getElem?_emptyc]
    by_cases h : p = []
    · subst h
      rfl
    · rw [if_neg (mt (fun he => (text_eq_separator_iff hp).mp he.symm) h), node?_of_ne _ h]
      exact (congrArg (Option.map Node.flat) (Forest.get?_empty p)).symm
  named {k n} h := by
    unfold labelled at h
    rw [TextMap.getElem?_insert, Std.TreeMap.getElem?_emptyc] at h
    split at h
    · rename_i hk
      exact ⟨[], named_nil, hk.symm⟩
    · cases h
  directory := rfl
  label := rfl
  stamp := rfl
  nextOrder := rfl
  files := rfl
  listings := rfl
  nextHandle := rfl

namespace Holds

variable {c : FlatVolume} {v : Volume} {p : Path} {typed : Text}

/-- What stands under a key is the node of a path. -/
theorem node_of_get? (h : c.Holds v) {k : Text} {m : FlatNode} (hm : c.nodes[k]? = some m) :
    ∃ p n, Named p ∧ k = p.text ∧ v.node? p = some n ∧ m = n.flat := by
  obtain ⟨p, hp, rfl⟩ := h.named hm
  rw [h.nodes hp, Option.map_eq_some_iff] at hm
  obtain ⟨n, hn, rfl⟩ := hm
  exact ⟨p, n, hp, rfl, hn, rfl⟩

theorem resolve (h : c.Holds v) (hv : v.WellFormed) (typed : Text) :
    c.resolve typed = Halt.ofExcept ((v.resolve typed).map Path.text) := by
  have hjoined : (Text.splitOn '/' (if typed.head? = some '/' then typed
      else c.directory ++ '/' :: typed)).foldlM Path.enter [] = v.resolve typed := by
    unfold Volume.resolve Path.resolve
    by_cases htyped : typed.head? = some '/'
    · rw [if_pos htyped, if_pos htyped]
    · have hroot : (Text.splitOn '/' v.directory.text).foldlM Path.enter [] =
          (.ok v.directory : Except Error Path) := by
        have hres := resolve_text hv.named_directory []
        unfold Path.resolve at hres
        rwa [ite_self] at hres
      rw [if_neg htyped, if_neg htyped, h.directory, Text.splitOn_append, List.foldlM_append, hroot]
      rfl
  unfold FlatVolume.resolve
  dsimp only
  rw [hjoined]

theorem missing (h : c.Holds v) (hp : p.Named) : c.missing p.text = .ok (v.missing p) := by
  unfold FlatVolume.missing Volume.missing isDirectoryAt
  rw [parentOf_text hp]
  simp only [bind, Except.bind, text_lower, h.nodes hp.parent.key]
  cases v.node? p.parent.key with
  | none => rfl
  | some d => rfl

theorem find (h : c.Holds v) (hv : v.WellFormed) (typed : Text) :
    c.find typed = Halt.ofExcept ((v.find typed).map fun r => (r.1.text, r.2.flat)) := by
  unfold FlatVolume.find Volume.find
  rw [h.resolve hv]
  cases hp : v.resolve typed with
  | error e => rfl
  | ok p =>
    have hname : p.Named := hv.isName_of_resolve hp
    simp only [Except.map, Halt.ofExcept, bind, Except.bind, text_lower, h.nodes hname.key]
    cases v.node? p.key with
    | none =>
      simp only [Option.map_none, h.missing hname]
      rfl
    | some n => rfl

theorem newPath (h : c.Holds v) (hv : v.WellFormed) (hp : p.Named) :
    c.newPath p.text = Halt.ofExcept ((v.newPath p).map Path.text) := by
  unfold FlatVolume.newPath Volume.newPath
  rw [parentOf_text hp]
  simp only [bind, Except.bind, text_lower, h.nodes hp.parent.key]
  cases hd : v.node? p.parent.key with
  | none => rfl
  | some d =>
    simp only [Option.map_some, Node.flat_isDirectory, leafOf_text hp, Node.flat_path,
      join_text (hv.named_path hd)]
    split <;> rfl

/-- A changed node keeps its place. -/
theorem updateNode (h : c.Holds v) {key : Path} (hkey : key.Named) {f : FlatNode → FlatNode}
    {g : Node → Node} (hfg : ∀ n, v.node? key = some n → f n.flat = (g n).flat) :
    (c.updateNode key.text f).Holds (v.updateNode key g) := by
  have hrest : ∀ w, w = v.updateNode key g → w.directory = v.directory ∧ w.label = v.label ∧
      w.stamp = v.stamp ∧ w.nextOrder = v.nextOrder ∧ w.files = v.files ∧
      w.listings = v.listings ∧ w.nextHandle = v.nextHandle := by
    rintro w rfl
    unfold Volume.updateNode
    split <;> exact ⟨rfl, rfl, rfl, rfl, rfl, rfl, rfl⟩
  obtain ⟨hdirectory, hlabel, hstamp, horder, hfiles, hlistings, hhandle⟩ := hrest _ rfl
  refine
    { nodes := ?_
      named := ?_
      directory := h.directory.trans (congrArg Path.text hdirectory.symm)
      label := h.label.trans hlabel.symm
      stamp := h.stamp.trans hstamp.symm
      nextOrder := h.nextOrder.trans horder.symm
      files := h.files.trans (congrArg _ hfiles.symm)
      listings := h.listings.trans hlistings.symm
      nextHandle := h.nextHandle.trans hhandle.symm }
  · intro q hq
    show (c.nodes.modify key.text f)[q.text]? = _
    rw [TextMap.getElem?_modify, node?_updateNode, h.nodes hkey, h.nodes hq]
    by_cases he : q = key
    · subst he
      rw [if_pos rfl, if_pos rfl]
      cases hn : v.node? q with
      | none => rfl
      | some n => exact congrArg some (hfg n hn)
    · rw [if_neg he, if_neg (mt (text_inj hkey hq) (Ne.symm he))]
  · intro k m hm
    have hm : (c.nodes.modify key.text f)[k]? = some m := hm
    rw [TextMap.getElem?_modify] at hm
    split at hm
    · rename_i hk
      exact ⟨key, hkey, hk.symm⟩
    · exact h.named hm

theorem updateFile (h : c.Holds v) (i : Nat) {f : FlatFile → FlatFile} {g : OpenFile → OpenFile}
    (hfg : ∀ x, f (OpenFile.flat x) = (g x).flat) : (c.updateFile i f).Holds (v.updateFile i g) := by
  unfold FlatVolume.updateFile Volume.updateFile
  rw [h.files, Table.get?_mapValues]
  cases v.files.get? i with
  | none => exact h
  | some x =>
    dsimp only [Option.map_some]
    rw [hfg, Table.set_mapValues]
    exact { h with files := rfl }

/-- A new entry comes under the text of its key. -/
theorem insert (h : c.Holds v) (hv : v.WellFormed) {stored : Path} (content : Content)
    (hp : p.Named) (hn : v.node? p.key = none) (hnew : v.newPath p = .ok stored) :
    (c.insert stored.text content).Holds (v.insert stored content) := by
  have hne : p ≠ [] := by
    rintro rfl
    cases hn
  obtain ⟨d, hd, _, rfl, hkey⟩ := hv.newPath hne hnew
  rw [← hv.key_path hd] at hd
  rw [← hkey] at hn
  have hnode := node?_insert hv content hd hn
  have hnamed : (d.path ++ [p.leaf]).key.Named := hkey ▸ hp.key
  refine
    { nodes := ?_
      named := ?_
      directory := h.directory
      label := h.label
      stamp := h.stamp
      nextOrder := congrArg (· + 1) h.nextOrder
      files := h.files
      listings := h.listings
      nextHandle := h.nextHandle }
  · intro q hq
    unfold FlatVolume.insert
    dsimp only
    rw [TextMap.getElem?_insert, text_lower, hnode, h.nodes hq, h.stamp, h.nextOrder]
    by_cases he : q = (d.path ++ [p.leaf]).key
    · rw [if_pos he, if_pos (congrArg Path.text he.symm)]
      rfl
    · rw [if_neg he, if_neg (mt (text_inj hnamed hq) (Ne.symm he))]
  · intro k m hm
    unfold FlatVolume.insert at hm
    dsimp only at hm
    rw [TextMap.getElem?_insert, text_lower] at hm
    split at hm
    · rename_i hk
      exact ⟨_, hnamed, hk.symm⟩
    · exact h.named hm

/-- An entry with nothing below it can be taken out by itself. -/
theorem erase (h : c.Holds v) {key : Path} (hkey : key.Named) (hne : key ≠ [])
    (honly : ∀ q n, v.node? q = some n → key <+: q → q = key) :
    { c with nodes := c.nodes.erase key.text }.Holds { v with nodes := v.nodes.erase key } := by
  refine { h with nodes := ?_, named := ?_ }
  · intro q hq
    rw [TextMap.getElem?_erase, node?_erase v hne, h.nodes hq]
    by_cases he : key.text = q.text
    · rw [if_pos he, text_inj hkey hq he, if_pos (List.prefix_refl _)]
      rfl
    · rw [if_neg he]
      split
      · rename_i hpre
        cases hn : v.node? q with
        | none => rfl
        | some n => exact absurd (congrArg Path.text (honly q n hn hpre).symm) he
      · rfl
  · intro k m hm
    rw [TextMap.getElem?_erase] at hm
    split at hm
    · cases hm
    · exact h.named hm

end Holds

end FlatVolume

end CardShell
