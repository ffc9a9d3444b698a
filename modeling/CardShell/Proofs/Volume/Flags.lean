import CardShell.Proofs.Volume.Operation

/-!
The directory bit. No node keeps it among its attributes, so that an entry carries it exactly if it
is a directory.
-/

set_option autoImplicit false

namespace CardShell

open CardShell.Action

namespace Forest

variable {κ α β : Type} {P : α → Prop} {t s : Forest κ α} {a : α}

/-- All values, at every level. -/
def All (P : α → Prop) : Forest κ α → Prop
  | nil => True
  | cons _ v i r => P v ∧ All P i ∧ All P r

theorem all_map {Q : β → Prop} {f : α → β} (hf : ∀ a, P a → Q (f a)) (h : All P t) :
    All Q (map f t) := by
  induction t with
  | nil => trivial
  | cons n v i r ihi ihr => exact ⟨hf v h.1, ihi h.2.1, ihr h.2.2⟩

variable [DecidableEq κ]

theorem all_inside (h : All P t) (p : List κ) : All P (inside p t) := by
  induction t generalizing p with
  | nil => cases p <;> trivial
  | cons n v i r ihi ihr =>
    cases p with
    | nil => exact h
    | cons k p =>
      rw [inside]
      split
      · exact ihi h.2.1 p
      · exact ihr h.2.2 (k :: p)

theorem all_put (ha : P a) (hs : All P s) (h : All P t) (p : List κ) : All P (put a p t s) := by
  induction t generalizing p with
  | nil =>
    cases p with
    | nil => trivial
    | cons k p =>
      rw [put]
      split
      · exact ⟨ha, hs, trivial⟩
      · trivial
  | cons n v i r ihi ihr =>
    cases p with
    | nil => exact h
    | cons k p =>
      rw [put]
      split
      · split
        · exact ⟨ha, hs, h.2.2⟩
        · exact ⟨h.1, ihi h.2.1 p, h.2.2⟩
      · exact ⟨h.1, h.2.1, ihr h.2.2 (k :: p)⟩

theorem all_modify {f : α → α} (hf : ∀ a, P a → P (f a)) (h : All P t) (p : List κ) :
    All P (modify f p t) := by
  induction t generalizing p with
  | nil => cases p <;> trivial
  | cons n v i r ihi ihr =>
    cases p with
    | nil => exact h
    | cons k p =>
      rw [modify]
      split
      · split
        · exact ⟨hf v h.1, h.2⟩
        · exact ⟨h.1, ihi h.2.1 p, h.2.2⟩
      · exact ⟨h.1, h.2.1, ihr h.2.2 (k :: p)⟩

theorem all_erase (h : All P t) (p : List κ) : All P (erase p t) := by
  induction t generalizing p with
  | nil => cases p <;> trivial
  | cons n v i r ihi ihr =>
    cases p with
    | nil => exact h
    | cons k p =>
      rw [erase]
      split
      · split
        · exact ihr h.2.2 [k]
        · exact ⟨h.1, ihi h.2.1 p, h.2.2⟩
      · exact ⟨h.1, h.2.1, ihr h.2.2 (k :: p)⟩

theorem all_get? (h : All P t) {p : List κ} (hp : get? p t = some a) : P a := by
  induction t generalizing p with
  | nil => cases p <;> cases hp
  | cons n v i r ihi ihr =>
    cases p with
    | nil => cases hp
    | cons k p =>
      rw [get?_cons] at hp
      split at hp
      · split at hp
        · cases hp
          exact h.1
        · exact ihi h.2.1 hp
      · exact ihr h.2.2 hp

end Forest

namespace Volume

variable {v : Volume} {key : Path} {n : Node}

def Unmarked (n : Node) : Prop := n.attributes.isDirectory = false

/-- No node has the bit. -/
structure Bare (v : Volume) : Prop where
  root : Unmarked v.root
  nodes : v.nodes.All Unmarked

theorem Bare.node? (h : v.Bare) (hn : v.node? key = some n) : Unmarked n := by
  unfold Volume.node? at hn
  split at hn
  · cases hn
    exact h.root
  · exact Forest.all_get? h.nodes hn

theorem or_directoryBit (b : UInt8) :
    (b ||| Attributes.directoryBit) &&& Attributes.directoryBit ≠ 0 := by
  obtain ⟨⟨n⟩⟩ := b
  revert n
  decide +kernel

theorem isDirectory_entry (hn : Unmarked n) : n.entry.isDirectory = n.isDirectory := by
  unfold Entry.isDirectory Node.entry
  dsimp only
  cases hdir : n.isDirectory with
  | true => exact bne_iff_ne.mpr (or_directoryBit _)
  | false => exact hn

theorem bare_labelled (label : Text) : (labelled label).Bare where
  root := show ({} : Attributes).isDirectory = false by decide
  nodes := trivial

theorem Bare.insert (h : v.Bare) (path : Path) (content : Content) : (v.insert path content).Bare := by
  have hbits : Attributes.isDirectory
      ⟨if content = .directory then 0 else Attributes.archiveBit⟩ = false := by
    split <;> decide
  have hnew : Unmarked ⟨path, content, v.stamp,
    ⟨if content = .directory then 0 else Attributes.archiveBit⟩, v.nextOrder⟩ := hbits
  exact ⟨h.root, Forest.all_put (s := .nil) hnew trivial h.nodes _⟩

theorem Bare.updateNode (h : v.Bare) (key : Path) {f : Node → Node}
    (hf : ∀ n, Unmarked n → Unmarked (f n)) : (v.updateNode key f).Bare := by
  unfold Volume.updateNode
  split
  · exact ⟨hf _ h.root, h.nodes⟩
  · exact ⟨h.root, Forest.all_modify hf h.nodes key⟩

theorem Bare.updateFile (hv : v.Bare) (h : Nat) (f : OpenFile → OpenFile) :
    (v.updateFile h f).Bare := by
  unfold Volume.updateFile
  split
  · exact ⟨hv.root, hv.nodes⟩
  · exact hv

theorem bare_makeDirectoryAt (p : Path) : Keeps Bare (makeDirectoryAt p) := by
  intro v h
  rcases makeDirectoryAt_cases p v with ⟨e, hx⟩ | ⟨stored, _, _, hx⟩
  · rw [after_error hx]
    exact h
  · rw [after_ok hx]
    exact h.insert stored .directory

theorem bare_makeDirectories (typed : Text) : Keeps Bare (makeDirectories typed) := by
  refine keeps_bind (keeps_query _) fun p => keeps_forM fun q _ v h => ?_
  rcases ensureDirectory_cases q v with ⟨e, hx⟩ | hx | ⟨stored, _, _, hx⟩
  · rw [after_error hx]
    exact h
  · rw [after_ok hx]
    exact h
  · rw [after_ok hx]
    exact h.insert stored .directory

theorem bare_unlink (typed : Text) : Keeps Bare (unlink typed) := by
  intro v h
  rcases unlink_cases typed v with ⟨e, hx⟩ | ⟨key, n, _, _, _, _, _, hx⟩
  · rw [after_error hx]
    exact h
  · rw [after_ok hx]
    exact ⟨h.root, Forest.all_erase h.nodes key⟩

theorem bare_rename (source target : Text) : Keeps Bare (rename source target) := by
  intro v h
  rcases rename_cases source target v with
    ⟨e, hx⟩ | ⟨key, n, p, new, hf, _, _, _, _, _, _, hx⟩
  · rw [after_error hx]
    exact h
  · rw [after_ok hx]
    obtain ⟨q, _, rfl, hn⟩ := find_ok hf
    have hinside : ((v.nodes.inside q.key).map fun a =>
        { a with path := Path.reroot new q.key.length a.path }).All Unmarked := by
      refine Forest.all_map ?_ (Forest.all_inside h.nodes q.key)
      exact fun _ ha => ha
    have hsource := h.node? hn
    have hmoved : Unmarked
        { n with path := Path.reroot new q.key.length n.path, order := v.nextOrder } := hsource
    exact ⟨h.root, Forest.all_put hmoved hinside (Forest.all_erase h.nodes q.key) new.key⟩

theorem bare_setAttributes (typed : Text) (bits : UInt8) : Keeps Bare (setAttributes typed bits) := by
  intro v h
  rcases setAttributes_cases typed bits v with ⟨e, hx⟩ | ⟨key, n, _, hx⟩
  · rw [after_error hx]
    exact h
  · rw [after_ok hx]
    refine h.updateNode key fun _ _ => bne_eq_false_iff_eq.mpr ?_
    rw [UInt8.and_assoc]
    simp

theorem bare_openFile (typed : Text) (mode : OpenMode) : Keeps Bare (openFile typed mode) := by
  intro v h
  rcases openFile_cases typed mode v with ⟨e, hx⟩ | ⟨p, w, _, hw, hx⟩
  · rw [after_error hx]
    exact h
  · have hbare : w.Bare := by
      rcases prepare_cases hw with ⟨n, _, _, _, _, rfl⟩ | ⟨stored, _, _, _, rfl⟩
      · split
        · exact h.updateNode p.key fun _ hn => hn
        · exact h
      · exact h.insert stored _
    rcases hx with ⟨e, _, _, hx⟩ | ⟨position, _, hx⟩
    · rw [after_error hx]
      exact hbare
    · rw [after_ok hx]
      exact ⟨hbare.root, hbare.nodes⟩

theorem bare_write (h : Nat) (bytes : List UInt8) : Keeps Bare (write h bytes) := by
  intro v hv
  rcases write_cases h bytes v with ⟨e, hx⟩ | ⟨f, data, _, _, _, hx⟩
  · rw [after_error hx]
    exact hv
  · rw [after_ok hx]
    refine Bare.updateFile (Bare.updateNode hv f.key ?_) h _
    exact fun _ hn => hn

theorem bare_seek (h offset : Nat) : Keeps Bare (seek h offset) := by
  intro v hv
  rcases seek_cases h offset v with ⟨e, hx⟩ | ⟨f, data, _, _, ⟨_, _, hx⟩ | ⟨_, hx⟩⟩
  · rw [after_error hx]
    exact hv
  · rw [after_ok hx]
    refine Bare.updateFile (Bare.updateNode hv f.key ?_) h _
    exact fun _ hn => hn
  · rw [after_ok hx]
    exact hv.updateFile h _

theorem bare_closeFile (h : Nat) : Keeps Bare (closeFile h) := by
  intro v hv
  rw [after_closeFile]
  exact ⟨hv.root, hv.nodes⟩

theorem bare_writeFile (typed : Text) (data : List UInt8) : Keeps Bare (writeFile typed data) := by
  refine keeps_bind (keeps_query _) fun p => ?_
  refine keeps_bind (bare_makeDirectories _) fun _ => ?_
  refine keeps_bind (bare_openFile _ _) fun h => ?_
  refine keeps_closing (bare_closeFile h) ?_
  exact keeps_bind (bare_write h data) fun _ => keeps_ite (keeps_throw _) (keeps_pure _)

theorem Bare.run (h : v.Bare) (op : Operation) : (op.run v).Bare := by
  cases op with
  | relabel label => exact ⟨h.root, h.nodes⟩
  | restamp stamp => exact ⟨h.root, h.nodes⟩
  | mount => exact ⟨h.root, h.nodes⟩
  | changeDirectory typed =>
    show ((changeDirectory typed).after v).Bare
    rcases changeDirectory_cases typed v with hx | ⟨key, n, _, _, hx⟩
    · rw [after_error hx]
      exact h
    · rw [after_ok hx]
      exact ⟨h.root, h.nodes⟩
  | makeDirectory typed => exact keeps_bind (keeps_query _) (fun p => bare_makeDirectoryAt p) v h
  | makeDirectories typed => exact bare_makeDirectories typed v h
  | unlink typed => exact bare_unlink typed v h
  | rename source target => exact bare_rename source target v h
  | setAttributes typed bits => exact bare_setAttributes typed bits v h
  | writeFile typed data => exact bare_writeFile typed data v h
  | openFile typed mode => exact bare_openFile typed mode v h
  | closeFile n => exact bare_closeFile n v h
  | read n count =>
    show ((Volume.read n count).after v).Bare
    rcases read_cases n count v with ⟨e, hx⟩ | ⟨f, data, _, _, _, hx⟩
    · rw [after_error hx]
      exact h
    · rw [after_ok hx]
      exact h.updateFile n _
  | write n bytes => exact bare_write n bytes v h
  | seek n offset => exact bare_seek n offset v h
  | openListing typed =>
    show ((openListing typed).after v).Bare
    rcases openListing_cases typed v with ⟨e, hx⟩ | ⟨key, n, _, _, hx⟩
    · rw [after_error hx]
      exact h
    · rw [after_ok hx]
      exact ⟨h.root, h.nodes⟩
  | readListing n =>
    show ((readListing n).after v).Bare
    rcases readListing_cases n v with hx | ⟨_, hx⟩ | ⟨e, es, _, hx⟩
    · rw [after_error hx]
      exact h
    · rw [after_ok hx]
      exact h
    · rw [after_ok hx]
      exact ⟨h.root, h.nodes⟩
  | closeListing n =>
    show ((closeListing n).after v).Bare
    rw [after_closeListing]
    exact ⟨h.root, h.nodes⟩

theorem Bare.runAll (h : v.Bare) (ops : List Operation) : (v.runAll ops).Bare := by
  induction ops generalizing v with
  | nil => exact h
  | cons op ops ih => exact ih (h.run op)

theorem Bare.of_runAll {label : Text} {ops : List Operation} (h : v = (labelled label).runAll ops) :
    v.Bare := by
  rw [h]
  exact (bare_labelled label).runAll ops

/-- What a volume tells about an entry is a directory's exactly if the entry is one. -/
theorem isDirectory_entry_of_operations (label : Text) (ops : List Operation) {key : Path} {n : Node}
    (hn : ((labelled label).runAll ops).node? key = some n) : n.entry.isDirectory = n.isDirectory :=
  isDirectory_entry (((bare_labelled label).runAll ops).node? hn)

end Volume

end CardShell
