import CardShell.Proofs.Volume.Chronicle

/-!
Open enumerations. A name is found where its directory lists it, and an enumeration that was opened keeps
the entries it has still to give, whatever else is done to the volume, until its number comes again.
-/

set_option autoImplicit false

namespace CardShell.Volume

open CardShell.Action

variable {v w : Volume} {key p : Path} {n : Node} {e : Entry} {es : List Entry} {i : Nat}

section ByName

/-- A directory lists what is one name below it. -/
theorem mem_children_iff (hv : v.WellFormed) {c : Text} :
    e ∈ v.children key ∧ e.name.lower = c ↔ ∃ n, v.node? (key ++ [c]) = some n ∧ n.entry = e := by
  constructor
  · rintro ⟨hmem, rfl⟩
    obtain ⟨n, hn, rfl⟩ := List.mem_map.mp hmem
    obtain ⟨_, _, _, _, hnode⟩ := childNode_path hv hn
    exact ⟨n, hnode, rfl⟩
  · rintro ⟨n, hn, rfl⟩
    have hmem := (mem_childNodes_iff hv).mpr ⟨c, hn⟩
    have hkey := childNode_key hv hmem
    rw [hv.key_path hn] at hkey
    exact ⟨List.mem_map_of_mem hmem, (List.cons.inj (List.append_cancel_left hkey)).1.symm⟩

theorem stat_ok_iff {typed : Text} :
    v.stat typed = .ok e ↔ ∃ p n, v.resolve typed = .ok p ∧ v.node? p.key = some n ∧ n.entry = e := by
  unfold stat
  constructor
  · intro h
    cases hf : v.find typed with
    | error x =>
      rw [hf] at h
      cases h
    | ok found =>
      rw [hf] at h
      cases h
      obtain ⟨p, hp, _, hn⟩ := find_ok hf
      exact ⟨p, _, hp, hn, rfl⟩
  · rintro ⟨p, n, hp, hn, rfl⟩
    unfold find
    rw [hp]
    simp only [bind, Except.bind, hn]
    rfl

/-- A path leads to the root, or to an entry that its directory lists. -/
theorem stat_ok_iff_listed (hv : v.WellFormed) {typed : Text} :
    v.stat typed = .ok e ↔ ∃ p, v.resolve typed = .ok p ∧
      (p = [] ∧ e = v.root.entry ∨
        p ≠ [] ∧ e ∈ v.children p.parent.key ∧ e.name.lower = p.leaf.lower) := by
  rw [stat_ok_iff]
  refine exists_congr fun p => ?_
  by_cases hp : p = []
  · subst hp
    simp [eq_comm]
  · have hkey : p.key = p.parent.key ++ [p.leaf.lower] := by
      rw [← key_concat, Path.parent_append_leaf hp]
    rw [mem_children_iff hv, ← hkey]
    simp [hp]

end ByName

section Beside

/-- Handles may have been given out; the open enumerations are the same. -/
structure Aside (v w : Volume) : Prop where
  issued : v.issued ≤ w.issued
  listings : w.listings = v.listings

theorem Aside.refl (v : Volume) : Aside v v := ⟨Nat.le_refl _, rfl⟩

theorem Aside.trans {u : Volume} (h : Aside u v) (h' : Aside v w) : Aside u w :=
  ⟨Nat.le_trans h.issued h'.issued, h'.listings.trans h.listings⟩

theorem Settled.aside (h : Settled v w) : Aside v w := ⟨Nat.le_of_eq h.issued.symm, h.listings⟩

theorem Settles.keeps_aside {α : Type} {x : VolumeAction α} (hx : Settles x) : Keeps (Aside v) x :=
  hx.keeps fun hw hs => hw.trans hs.aside

theorem aside_openFile (typed : Text) (mode : OpenMode) : Keeps (Aside v) (openFile typed mode) := by
  intro w hw
  rcases openFile_settled typed mode w with ⟨_, t, hx, ht⟩ | ⟨_, t, hx, ht⟩
  · rw [after_error hx]
    exact hw.trans ht.aside
  · rw [after_ok hx]
    exact (hw.trans ht.aside).trans ⟨Nat.le_succ _, rfl⟩

theorem aside_closeFile (h : Nat) : Keeps (Aside v) (closeFile h) := by
  intro w hw
  rw [after_closeFile]
  exact hw.trans ⟨Nat.le_refl _, rfl⟩

theorem aside_writeFile (typed : Text) (data : List UInt8) :
    Keeps (Aside v) (writeFile typed data) := by
  refine keeps_bind (keeps_query _) fun p => ?_
  refine keeps_bind (settles_makeDirectories _).keeps_aside fun _ => ?_
  refine keeps_bind (aside_openFile _ _) fun h => ?_
  refine keeps_closing (aside_closeFile h) ?_
  exact keeps_bind (settles_write h data).keeps_aside fun _ => keeps_ite (keeps_throw _) (keeps_pure _)

end Beside

/-- The handle that is given out when `i` were given out before. -/
def handleOf (i : Nat) : Nat := i % handleLimit + 1

/-- The enumeration opened as the handle after the first `i` has `es` still to give, unless its number
has been given out again. -/
structure Held (i : Nat) (es : List Entry) (v : Volume) : Prop where
  issued : i < v.issued
  pending : v.issued ≤ i + handleLimit → v.listings.get? (handleOf i) = some es

/-- What is done neither to this enumeration, reading it included, nor to all of them at once. -/
structure Operation.Spares (h : Nat) (op : Operation) : Prop where
  mounted : op ≠ .mount
  closed : op ≠ .closeListing h
  read : op ≠ .readListing h

/-- Numbers come again in the order in which they were given out. -/
theorem nextHandle_ne_handleOf (h : i < v.issued) (hi : v.issued < i + handleLimit) :
    v.nextHandle ≠ handleOf i := by
  unfold nextHandle handleOf
  unfold handleLimit at *
  omega

section Operations

/-- Whether an operation can open, move on or end an enumeration. -/
def Operation.enumerates : Operation → Bool
  | mount | openListing _ | readListing _ | closeListing _ => true
  | _ => false

theorem Operation.spares_of_enumerates {op : Operation} (hop : op.enumerates = false) (h : Nat) :
    op.Spares h := by
  constructor
  all_goals
    rintro rfl
    cases hop

theorem aside_run {op : Operation} (hop : op.enumerates = false) (v : Volume) : Aside v (op.run v) := by
  cases op with
  | relabel label => exact ⟨Nat.le_refl _, rfl⟩
  | restamp stamp => exact ⟨Nat.le_refl _, rfl⟩
  | changeDirectory typed => exact (settles_changeDirectory typed v).aside
  | makeDirectory typed => exact (settles_makeDirectory typed v).aside
  | makeDirectories typed => exact (settles_makeDirectories typed v).aside
  | unlink typed => exact (settles_unlink typed v).aside
  | rename source target => exact (settles_rename source target v).aside
  | setAttributes typed bits => exact (settles_setAttributes typed bits v).aside
  | writeFile typed data => exact aside_writeFile typed data v (.refl v)
  | openFile typed mode => exact aside_openFile typed mode v (.refl v)
  | closeFile h => exact aside_closeFile h v (.refl v)
  | read h count => exact (settles_read h count v).aside
  | write h bytes => exact (settles_write h bytes v).aside
  | seek h offset => exact (settles_seek h offset v).aside
  | mount | openListing | readListing | closeListing => cases hop

/-- Handles are given out and never taken back. -/
theorem issued_le_run (op : Operation) (v : Volume) : v.issued ≤ (op.run v).issued := by
  cases hop : op.enumerates with
  | false => exact (aside_run hop v).issued
  | true =>
    cases op with
    | mount => exact Nat.le_refl _
    | openListing typed =>
      dsimp only [Operation.run]
      rcases openListing_cases typed v with ⟨_, hx⟩ | ⟨_, _, _, _, hx⟩
      · exact Nat.le_of_eq (congrArg issued (after_error hx)).symm
      · rw [after_ok hx]
        exact Nat.le_succ _
    | readListing h =>
      dsimp only [Operation.run]
      rcases readListing_cases h v with hx | ⟨_, hx⟩ | ⟨_, _, _, hx⟩
      · exact Nat.le_of_eq (congrArg issued (after_error hx)).symm
      · exact Nat.le_of_eq (congrArg issued (after_ok hx)).symm
      · exact Nat.le_of_eq (congrArg issued (after_ok hx)).symm
    | closeListing h =>
      dsimp only [Operation.run]
      exact Nat.le_of_eq (congrArg issued (after_closeListing ..)).symm
    | _ => cases hop

theorem issued_le_runAll (v : Volume) (ops : List Operation) : v.issued ≤ (v.runAll ops).issued := by
  induction ops generalizing v with
  | nil => exact Nat.le_refl _
  | cons op ops ih => exact Nat.le_trans (issued_le_run op v) (ih (op.run v))

namespace Held

/-- The enumeration itself is left alone. -/
theorem beside (h : Held i es v) (hissued : v.issued ≤ w.issued)
    (hlistings : w.issued ≤ i + handleLimit →
      w.listings.get? (handleOf i) = v.listings.get? (handleOf i)) : Held i es w where
  issued := Nat.lt_of_lt_of_le h.issued hissued
  pending hi := by rw [hlistings hi, h.pending (Nat.le_trans hissued hi)]

theorem run (h : Held i es v) {op : Operation} (hop : op.Spares (handleOf i)) :
    Held i es (op.run v) := by
  refine h.beside (issued_le_run op v) fun hi => ?_
  cases henum : op.enumerates with
  | false => rw [(aside_run henum v).listings]
  | true =>
    cases op with
    | mount => exact absurd rfl hop.mounted
    | openListing typed =>
      dsimp only [Operation.run] at hi ⊢
      rcases openListing_cases typed v with ⟨_, hx⟩ | ⟨_, _, _, _, hx⟩
      · rw [after_error hx]
      · rw [after_ok hx] at hi ⊢
        exact Table.get?_set_of_ne (nextHandle_ne_handleOf h.issued hi).symm _ _
    | readListing k =>
      have hk : handleOf i ≠ k := fun he => hop.read (he ▸ rfl)
      dsimp only [Operation.run]
      rcases readListing_cases k v with hx | ⟨_, hx⟩ | ⟨_, _, _, hx⟩
      · rw [after_error hx]
      · rw [after_ok hx]
      · rw [after_ok hx]
        exact Table.get?_set_of_ne hk _ _
    | closeListing k =>
      have hk : handleOf i ≠ k := fun he => hop.closed (he ▸ rfl)
      dsimp only [Operation.run]
      rw [after_closeListing]
      exact Table.get?_erase_of_ne hk _
    | _ => cases henum

theorem runAll (h : Held i es v) {ops : List Operation} (hops : ∀ op ∈ ops, op.Spares (handleOf i)) :
    Held i es (v.runAll ops) := by
  induction ops generalizing v with
  | nil => exact h
  | cons op ops ih =>
    exact ih (h.run (hops op List.mem_cons_self)) fun op' hop' => hops op' (List.mem_cons_of_mem op hop')

end Held

end Operations

end CardShell.Volume
