import CardShell.Proofs.Volume.Operation

/-!
The handles of a volume. What neither opens nor closes anything leaves all of them where they lead. Each
one that is open was given out, and no two are the same. As long as the numbers have not run through all
of 32 bits, what is opened under a handle of its own is alone again to be gone when that handle is closed.
-/

set_option autoImplicit false

namespace CardShell

open CardShell.Action

namespace Table

variable {κ α β : Type} [DecidableEq κ]

theorem has_erase (j k : κ) (t : Table κ α) : has j (erase k t) = (j ≠ k && has j t) := by
  by_cases h : j = k
  · simp [has, h]
  · simp [has, h, get?_erase_of_ne h]

theorem has_set (j k : κ) (a : α) (t : Table κ α) : has j (set k a t) = (j = k || has j t) := by
  by_cases h : j = k
  · simp [has, h]
  · simp [has, h, get?_set_of_ne h]

theorem mem_keys_iff {k : κ} {t : Table κ α} : k ∈ t.map Prod.fst ↔ has k t = true := by
  induction t with
  | nil => simp [has]
  | cons p t ih =>
    by_cases h : p.1 = k
    · simp [has, get?, h]
    · simpa [has, get?, h, Ne.symm h] using ih

theorem nodup_erase (k : κ) {t : Table κ α} (h : (t.map Prod.fst).Nodup) :
    ((erase k t).map Prod.fst).Nodup := h.sublist (List.filter_sublist.map _)

theorem nodup_set (k : κ) (a : α) {t : Table κ α} (h : (t.map Prod.fst).Nodup) :
    ((set k a t).map Prod.fst).Nodup := by
  refine List.nodup_cons.mpr ⟨?_, nodup_erase k h⟩
  rw [mem_keys_iff, has_erase]
  simp

theorem length_eq_of_has {s : Table κ α} {t : Table κ β} (hs : (s.map Prod.fst).Nodup)
    (ht : (t.map Prod.fst).Nodup) (h : ∀ k, has k s = has k t) : s.length = t.length := by
  have hperm : (s.map Prod.fst).Perm (t.map Prod.fst) :=
    (List.perm_ext_iff_of_nodup hs ht).mpr fun k => by rw [mem_keys_iff, mem_keys_iff, h]
  simpa using hperm.length_eq

/-- The keys are different, and `n` at most. -/
structure Numbered (n : Nat) (t : Table Nat α) : Prop where
  nodup : (t.map Prod.fst).Nodup
  le : ∀ k, has k t = true → k ≤ n

variable {n : Nat} {t : Table Nat α}

theorem numbered_nil (n : Nat) : Numbered n ([] : Table Nat α) := ⟨List.nodup_nil, nofun⟩

theorem Numbered.mono (h : Numbered n t) {m : Nat} (hm : n ≤ m) : Numbered m t :=
  ⟨h.nodup, fun k hk => Nat.le_trans (h.le k hk) hm⟩

theorem Numbered.erase (h : Numbered n t) (k : Nat) : Numbered n (t.erase k) := by
  refine ⟨nodup_erase k h.nodup, fun j hj => ?_⟩
  rw [has_erase, Bool.and_eq_true] at hj
  exact h.le j hj.2

theorem Numbered.set (h : Numbered n t) {k : Nat} (hk : k ≤ n) (a : α) : Numbered n (t.set k a) := by
  refine ⟨nodup_set k a h.nodup, fun j hj => ?_⟩
  rw [has_set, Bool.or_eq_true, decide_eq_true_eq] at hj
  rcases hj with rfl | hj
  · exact hk
  · exact h.le j hj

theorem Numbered.has_succ (h : Numbered n t) : has (n + 1) t = false := by
  cases hk : has (n + 1) t with
  | false => rfl
  | true => exact absurd (h.le _ hk) (Nat.not_succ_le_self n)

end Table

namespace Volume

variable {α : Type} {u v w : Volume}

/-- Every handle that is open was given out, and no two are the same. -/
structure Numbered (v : Volume) : Prop where
  files : v.files.Numbered v.issued
  listings : v.listings.Numbered v.issued

/-- So many handles can be given out before a number comes again. -/
def handleLimit : Nat := 0xFFFFFFFF

theorem nextHandle_le (v : Volume) : v.nextHandle ≤ v.issued + 1 :=
  Nat.succ_le_succ (Nat.mod_le _ _)

theorem nextHandle_of_lt (h : v.issued < handleLimit) : v.nextHandle = v.issued + 1 :=
  congrArg (· + 1) (Nat.mod_eq_of_lt h)

section Leading

inductive Kind
  | file
  | listing
  deriving DecidableEq

/-- The file of an open handle, or the entries that an enumeration has still to give. -/
inductive Target
  | file (key : Path) (mode : OpenMode)
  | listing (entries : List Entry)
  deriving DecidableEq

def Target.kind : Target → Kind
  | file .. => .file
  | listing _ => .listing

def target? (v : Volume) : Kind → Nat → Option Target
  | .file, h => (v.files.get? h).map fun f => .file f.key f.mode
  | .listing, h => (v.listings.get? h).map .listing

/-- A new position leads to the same file. -/
theorem target?_updateFile (v : Volume) (j : Nat) (position : OpenFile → Nat) (h : Nat) :
    (v.updateFile j fun f => { f with position := position f }).target? .file h =
      v.target? .file h := by
  unfold updateFile
  cases hg : v.files.get? j with
  | none => rfl
  | some f =>
    by_cases hj : h = j
    · subst hj
      simp [target?, hg]
    · simp [target?, Table.get?_set_of_ne hj]

end Leading

section Settled

/-- As many handles were given out, and they lead where they led. -/
structure Settled (v w : Volume) : Prop where
  issued : w.issued = v.issued
  listings : w.listings = v.listings
  files : ∀ h, w.target? .file h = v.target? .file h
  nodup : (v.files.map Prod.fst).Nodup → (w.files.map Prod.fst).Nodup

namespace Settled

theorem refl (v : Volume) : Settled v v := ⟨rfl, rfl, fun _ => rfl, id⟩

theorem of_tables (hi : w.issued = v.issued) (hf : w.files = v.files)
    (hl : w.listings = v.listings) : Settled v w :=
  ⟨hi, hl, fun h => by rw [target?, hf, target?], fun hv => hf ▸ hv⟩

theorem trans (hu : Settled u v) (hv : Settled v w) : Settled u w where
  issued := hv.issued.trans hu.issued
  listings := hv.listings.trans hu.listings
  files h := (hv.files h).trans (hu.files h)
  nodup hd := hv.nodup (hu.nodup hd)

theorem updateNode (v : Volume) (key : Path) (f : Node → Node) : Settled v (v.updateNode key f) := by
  unfold Volume.updateNode
  split
  · exact .of_tables rfl rfl rfl
  · exact .of_tables rfl rfl rfl

theorem updateFile (v : Volume) (j : Nat) (position : OpenFile → Nat) :
    Settled v (v.updateFile j fun f => { f with position := position f }) := by
  have hfiles := target?_updateFile v j position
  unfold Volume.updateFile at *
  split
  · rename_i f hf
    rw [hf] at hfiles
    exact ⟨rfl, rfl, hfiles, Table.nodup_set j _⟩
  · exact .refl v

theorem targets (hs : Settled v w) (k : Kind) (h : Nat) : w.target? k h = v.target? k h := by
  cases k with
  | file => exact hs.files h
  | listing => rw [target?, hs.listings, target?]

theorem has (hs : Settled v w) (h : Nat) : w.files.has h = v.files.has h := by
  have htarget := congrArg Option.isSome (hs.files h)
  rwa [target?, target?, Option.isSome_map, Option.isSome_map] at htarget

theorem nextHandle (hs : Settled v w) : w.nextHandle = v.nextHandle := by
  rw [Volume.nextHandle, hs.issued, Volume.nextHandle]

end Settled

/-- Whatever happens, the handles are left as they are. -/
def Settles (x : VolumeAction α) : Prop := ∀ v, Settled v (x.after v)

/-- So whatever the handles alone decide is kept. -/
theorem Settles.keeps {x : VolumeAction α} (hx : Settles x) {P : Volume → Prop}
    (hP : ∀ {v w}, P v → Settled v w → P w) : Keeps P x := fun v hv => hP hv (hx v)

theorem settles_changeDirectory (typed : Text) : Settles (changeDirectory typed) := by
  intro v
  rcases changeDirectory_cases typed v with hx | ⟨_, _, _, _, hx⟩
  · rw [after_error hx]
    exact .refl v
  · rw [after_ok hx]
    exact .of_tables rfl rfl rfl

theorem settles_makeDirectory (typed : Text) : Settles (makeDirectory typed) := by
  intro v
  rcases makeDirectory_cases typed v with ⟨_, hx⟩ | ⟨_, _, _, _, _, hx⟩
  · rw [after_error hx]
    exact .refl v
  · rw [after_ok hx]
    exact .of_tables rfl rfl rfl

theorem settles_ensureDirectory (p : Path) : Settles (ensureDirectory p) := by
  intro v
  rcases ensureDirectory_cases p v with ⟨_, hx⟩ | hx | ⟨_, _, _, hx⟩
  · rw [after_error hx]
    exact .refl v
  · rw [after_ok hx]
    exact .refl v
  · rw [after_ok hx]
    exact .of_tables rfl rfl rfl

theorem settles_makeDirectories (typed : Text) : Settles (makeDirectories typed) := by
  intro v
  have hkeeps : Keeps (Settled v) (makeDirectories typed) :=
    keeps_bind (keeps_query _) fun _ =>
      keeps_forM fun q _ => (settles_ensureDirectory q).keeps Settled.trans
  exact hkeeps v (.refl v)

theorem settles_unlink (typed : Text) : Settles (unlink typed) := by
  intro v
  rcases unlink_cases typed v with ⟨_, hx⟩ | ⟨_, _, _, _, _, _, _, hx⟩
  · rw [after_error hx]
    exact .refl v
  · rw [after_ok hx]
    exact .of_tables rfl rfl rfl

theorem settles_rename (source target : Text) : Settles (rename source target) := by
  intro v
  rcases rename_cases source target v with ⟨_, hx⟩ | ⟨_, _, _, _, _, _, _, _, _, _, _, hx⟩
  · rw [after_error hx]
    exact .refl v
  · rw [after_ok hx]
    exact .of_tables rfl rfl rfl

theorem settles_setAttributes (typed : Text) (bits : UInt8) : Settles (setAttributes typed bits) := by
  intro v
  rcases setAttributes_cases typed bits v with ⟨_, hx⟩ | ⟨_, _, _, hx⟩
  · rw [after_error hx]
    exact .refl v
  · rw [after_ok hx]
    exact .updateNode _ _ _

theorem settles_read (h count : Nat) : Settles (read h count) := by
  intro v
  rcases read_cases h count v with ⟨_, hx⟩ | ⟨_, _, _, _, _, hx⟩
  · rw [after_error hx]
    exact .refl v
  · rw [after_ok hx]
    exact .updateFile _ _ _

theorem settles_write (h : Nat) (bytes : List UInt8) : Settles (write h bytes) := by
  intro v
  rcases write_cases h bytes v with ⟨_, hx⟩ | ⟨_, _, _, _, _, hx⟩
  · rw [after_error hx]
    exact .refl v
  · rw [after_ok hx]
    exact (Settled.updateNode _ _ _).trans (.updateFile _ _ _)

theorem settles_seek (h offset : Nat) : Settles (seek h offset) := by
  intro v
  rcases seek_cases h offset v with ⟨_, hx⟩ | ⟨_, _, _, _, ⟨_, _, hx⟩ | ⟨_, hx⟩⟩
  · rw [after_error hx]
    exact .refl v
  · rw [after_ok hx]
    exact (Settled.updateNode _ _ _).trans (.updateFile _ _ fun _ => offset)
  · rw [after_ok hx]
    exact .updateFile _ _ _

/-- A file that opens takes the next handle; where none opens, the handles are left as they are. -/
theorem openFile_settled (typed : Text) (mode : OpenMode) (v : Volume) :
    (∃ e w, openFile typed mode v = .error e w ∧ Settled v w) ∨
      ∃ f w, openFile typed mode v = .ok w.nextHandle (w.withHandle f) ∧ Settled v w := by
  rcases openFile_cases typed mode v with ⟨e, hx⟩ | ⟨p, w, _, hw, hx⟩
  · exact Or.inl ⟨e, v, hx, .refl v⟩
  · obtain ⟨hfiles, hlistings, hissued⟩ := handles_prepare hw
    have hs : Settled v w := .of_tables hissued hfiles hlistings
    rcases hx with ⟨e, _, _, hx⟩ | ⟨position, _, hx⟩
    · exact Or.inl ⟨e, w, hx, hs⟩
    · exact Or.inr ⟨⟨p.key, position, mode⟩, w, hx, hs⟩

end Settled

section Tallies

/-- The handles of one kind when `n` have been given out: each was, and, as long as no number has come
again, just those of `p` are open. -/
structure Handles (n : Nat) (p : Nat → Bool) (t : Table Nat α) : Prop where
  numbered : t.Numbered n
  has : n < handleLimit → ∀ k, t.has k = p k

namespace Handles

variable {n m : Nat} {p : Nat → Bool} {t u : Table Nat α}

theorem none (n : Nat) : Handles n (fun _ => false) ([] : Table Nat α) :=
  ⟨Table.numbered_nil n, fun _ _ => rfl⟩

theorem congr (h : Handles n p t) {q : Nat → Bool} (hq : n < handleLimit → ∀ k, p k = q k) :
    Handles n q t := ⟨h.numbered, fun hlt k => (h.has hlt k).trans (hq hlt k)⟩

/-- One of the other kind is given out. -/
theorem step (h : Handles n p t) : Handles (n + 1) p t :=
  ⟨h.numbered.mono (Nat.le_succ n), fun hlt => h.has (Nat.lt_of_succ_lt hlt)⟩

theorem set_of_has (h : Handles n p t) {k : Nat} (a : α) (hk : t.has k = true) :
    Handles n p (t.set k a) := by
  refine ⟨h.numbered.set (h.numbered.le k hk) a, fun hlt j => ?_⟩
  rw [← h.has hlt j, Table.has_set]
  by_cases hj : j = k
  · simp [hj, hk]
  · simp [hj]

theorem opened (h : Handles v.issued p t) (a : α) :
    Handles (v.issued + 1) (fun k => k = v.nextHandle || p k) (t.set v.nextHandle a) := by
  refine ⟨(h.numbered.mono (Nat.le_succ _)).set v.nextHandle_le a, fun hlt k => ?_⟩
  rw [Table.has_set, h.has (Nat.lt_of_succ_lt hlt)]

/-- The handle that was given out last is new as long as no number has come again, so closing it
takes nothing else away. -/
theorem closed (h : Handles v.issued p t) (hm : v.issued + 1 ≤ m)
    (hu : Handles m (fun k => k = v.nextHandle || p k) u) :
    Handles m p (u.erase v.nextHandle) := by
  refine ⟨hu.numbered.erase _, fun hlt k => ?_⟩
  have hissued : v.issued < handleLimit := Nat.lt_of_lt_of_le hm (Nat.le_of_lt hlt)
  have hfresh : p v.nextHandle = false := by
    rw [nextHandle_of_lt hissued, ← h.has hissued]
    exact h.numbered.has_succ
  rw [Table.has_erase, hu.has hlt]
  by_cases hk : k = v.nextHandle
  · simp [hk, hfresh]
  · simp [hk]

/-- Where no number has come again, as many are open. -/
theorem length_eq (ht : Handles n p t) (hu : Handles m p u) (hn : n < handleLimit)
    (hm : m < handleLimit) : u.length = t.length :=
  Table.length_eq_of_has hu.numbered.nodup ht.numbered.nodup fun k => by
    rw [hu.has hm, ht.has hn]

end Handles

/-- What is known of the handles: `floor` of them were given out at least, and, as long as no number
has come again, just the ones told are open. -/
structure Tally where
  floor : Nat
  file : Nat → Bool
  listing : Nat → Bool

namespace Tally

structure Holds (T : Tally) (v : Volume) : Prop where
  floor : T.floor ≤ v.issued
  files : Handles v.issued T.file v.files
  listings : Handles v.issued T.listing v.listings

variable {T : Tally}

theorem Holds.numbered (h : T.Holds v) : v.Numbered := ⟨h.files.numbered, h.listings.numbered⟩

theorem Holds.settled (h : T.Holds v) (hs : Settled v w) : T.Holds w where
  floor := hs.issued ▸ h.floor
  files := by
    rw [hs.issued]
    have hnumbered := h.files.numbered
    exact ⟨⟨hs.nodup hnumbered.nodup, fun k hk => hnumbered.le k (hs.has k ▸ hk)⟩,
      fun hlt k => (hs.has k).trans (h.files.has hlt k)⟩
  listings := by
    rw [hs.listings, hs.issued]
    exact h.listings

end Tally

/-- The same handles are open afterwards, whatever happens, and no fewer were given out. -/
def Steady (x : VolumeAction α) : Prop := ∀ T : Tally, Keeps T.Holds x

theorem Settles.steady {x : VolumeAction α} (hx : Settles x) : Steady x :=
  fun _ => hx.keeps Tally.Holds.settled

theorem steady_changeDirectory (typed : Text) : Steady (changeDirectory typed) :=
  (settles_changeDirectory typed).steady

theorem steady_makeDirectory (typed : Text) : Steady (makeDirectory typed) :=
  (settles_makeDirectory typed).steady

theorem steady_makeDirectories (typed : Text) : Steady (makeDirectories typed) :=
  (settles_makeDirectories typed).steady

theorem steady_unlink (typed : Text) : Steady (unlink typed) :=
  (settles_unlink typed).steady

theorem steady_rename (source target : Text) : Steady (rename source target) :=
  (settles_rename source target).steady

theorem steady_setAttributes (typed : Text) (bits : UInt8) : Steady (setAttributes typed bits) :=
  (settles_setAttributes typed bits).steady

theorem steady_read (h count : Nat) : Steady (read h count) :=
  (settles_read h count).steady

theorem steady_write (h : Nat) (bytes : List UInt8) : Steady (write h bytes) :=
  (settles_write h bytes).steady

theorem steady_seek (h offset : Nat) : Steady (seek h offset) :=
  (settles_seek h offset).steady

theorem steady_readListing (h : Nat) : Steady (readListing h) := by
  intro T v hv
  rcases readListing_cases h v with hx | ⟨_, hx⟩ | ⟨e, es, hk, hx⟩
  · rw [after_error hx]
    exact hv
  · rw [after_ok hx]
    exact hv
  · rw [after_ok hx]
    have hhas : v.listings.has h = true := by rw [Table.has, hk]; rfl
    exact ⟨hv.floor, hv.files, hv.listings.set_of_has _ hhas⟩

end Tallies

section Opening

variable {T : Tally}

/-- The same with file `k` open as well, when `n` handles have been given out. -/
def Tally.withFile (T : Tally) (n k : Nat) : Tally := ⟨n, fun j => j = k || T.file j, T.listing⟩

/-- A file that opens gets the next handle; where none opens, all is as it was. -/
theorem openFile_holds (typed : Text) (mode : OpenMode) (h : T.Holds v) :
    match openFile typed mode v with
    | .ok k w => k = v.nextHandle ∧ (T.withFile (v.issued + 1) k).Holds w
    | .error _ w => T.Holds w := by
  rcases openFile_settled typed mode v with ⟨_, w, hx, hw⟩ | ⟨f, w, hx, hw⟩
  · rw [hx]
    exact h.settled hw
  · rw [hx]
    have hT := h.settled hw
    exact ⟨hw.nextHandle, Nat.le_of_eq (by rw [← hw.issued]; rfl), hT.files.opened _, hT.listings.step⟩

/-- What is known before a file is opened is known again once it is closed. -/
theorem brackets_openFile (typed : Text) (mode : OpenMode) :
    Brackets Tally.Holds (openFile typed mode) closeFile := by
  intro T v hv
  have hopen := openFile_holds typed mode hv
  cases hx : openFile typed mode v with
  | error e w =>
    rw [hx] at hopen
    exact hopen
  | ok k w =>
    rw [hx] at hopen
    obtain ⟨rfl, hw⟩ := hopen
    refine ⟨_, hw, fun u hu => ?_⟩
    have hfloor : T.floor ≤ u.issued := Nat.le_trans hv.floor (Nat.le_of_succ_le hu.floor)
    rw [after_closeFile]
    exact ⟨hfloor, hv.files.closed hu.floor hu.files, hu.listings⟩

theorem brackets_openListing (typed : Text) :
    Brackets Tally.Holds (openListing typed) closeListing := by
  intro T v hv
  rcases openListing_cases typed v with ⟨e, hx⟩ | ⟨key, n, _, _, hx⟩
  · rw [hx]
    exact hv
  · rw [hx]
    refine ⟨⟨v.issued + 1, T.file, fun k => k = v.nextHandle || T.listing k⟩, ?_, fun u hu => ?_⟩
    · exact ⟨Nat.le_refl _, hv.files.step, hv.listings.opened _⟩
    · have hfloor : T.floor ≤ u.issued := Nat.le_trans hv.floor (Nat.le_of_succ_le hu.floor)
      rw [after_closeListing]
      exact ⟨hfloor, hu.files, hv.listings.closed hu.floor hu.listings⟩

/-- The same with nothing open. -/
def Tally.cleared (T : Tally) : Tally := ⟨T.floor, fun _ => false, fun _ => false⟩

theorem Tally.Holds.mount (h : T.Holds v) : T.cleared.Holds v.mount :=
  ⟨h.floor, .none _, .none _⟩

/-- Volumes of one tally have as many files and enumerations open. -/
theorem Tally.Holds.counts (hv : T.Holds v) (hw : T.Holds w) (hvi : v.issued < handleLimit)
    (hwi : w.issued < handleLimit) :
    w.openFileCount = v.openFileCount ∧ w.openListingCount = v.openListingCount :=
  ⟨hv.files.length_eq hw.files hvi hwi, hv.listings.length_eq hw.listings hvi hwi⟩

end Opening

section Runs

/-- What a volume itself shows. -/
def Tally.of (v : Volume) : Tally := ⟨v.issued, v.files.has, v.listings.has⟩

theorem Numbered.holds_of (h : v.Numbered) : (Tally.of v).Holds v :=
  ⟨Nat.le_refl _, ⟨h.files, fun _ _ => rfl⟩, ⟨h.listings, fun _ _ => rfl⟩⟩

theorem Steady.numbered {x : VolumeAction α} (hx : Steady x) : Keeps Numbered x :=
  fun v hv => (hx (Tally.of v) v hv.holds_of).numbered

theorem numbered_of_brackets {enter : VolumeAction Nat} {leave : Nat → VolumeAction Unit}
    (h : Brackets Tally.Holds enter leave) : Keeps Numbered enter := by
  intro v hv
  have hT := h (Tally.of v) v hv.holds_of
  cases hx : enter v with
  | ok k w =>
    rw [hx] at hT
    obtain ⟨U, hU, _⟩ := hT
    rw [after_ok hx]
    exact hU.numbered
  | error e w =>
    rw [hx] at hT
    rw [after_error hx]
    exact hT.numbered

theorem numbered_closeFile (h : Nat) : Keeps Numbered (closeFile h) := by
  intro v hv
  rw [after_closeFile]
  exact ⟨hv.files.erase h, hv.listings⟩

theorem numbered_closeListing (h : Nat) : Keeps Numbered (closeListing h) := by
  intro v hv
  rw [after_closeListing]
  exact ⟨hv.files, hv.listings.erase h⟩

theorem numbered_writeFile (typed : Text) (data : List UInt8) :
    Keeps Numbered (writeFile typed data) := by
  refine keeps_bind (keeps_query _) fun p => ?_
  refine keeps_bind (steady_makeDirectories _).numbered fun _ => ?_
  refine keeps_bind (numbered_of_brackets (brackets_openFile _ _)) fun h => ?_
  refine keeps_closing (numbered_closeFile h) ?_
  exact keeps_bind (steady_write h data).numbered fun n => keeps_ite (keeps_throw _) (keeps_pure _)

theorem numbered_run (op : Operation) (h : v.Numbered) : (op.run v).Numbered := by
  cases op with
  | relabel label => exact ⟨h.files, h.listings⟩
  | restamp stamp => exact ⟨h.files, h.listings⟩
  | mount => exact h.holds_of.mount.numbered
  | changeDirectory typed => exact (steady_changeDirectory typed).numbered v h
  | makeDirectory typed => exact (steady_makeDirectory typed).numbered v h
  | makeDirectories typed => exact (steady_makeDirectories typed).numbered v h
  | unlink typed => exact (steady_unlink typed).numbered v h
  | rename source target => exact (steady_rename source target).numbered v h
  | setAttributes typed bits => exact (steady_setAttributes typed bits).numbered v h
  | writeFile typed data => exact numbered_writeFile typed data v h
  | openFile typed mode => exact numbered_of_brackets (brackets_openFile typed mode) v h
  | closeFile k => exact numbered_closeFile k v h
  | read k count => exact (steady_read k count).numbered v h
  | write k bytes => exact (steady_write k bytes).numbered v h
  | seek k offset => exact (steady_seek k offset).numbered v h
  | openListing typed => exact numbered_of_brackets (brackets_openListing typed) v h
  | readListing k => exact (steady_readListing k).numbered v h
  | closeListing k => exact numbered_closeListing k v h

theorem numbered_labelled (label : Text) : (labelled label).Numbered :=
  ⟨Table.numbered_nil _, Table.numbered_nil _⟩

/-- In every state that operations lead to, the open handles were given out and are different. -/
theorem numbered_runAll (ops : List Operation) (h : v.Numbered) : (v.runAll ops).Numbered := by
  induction ops generalizing v with
  | nil => exact h
  | cons op ops ih => exact ih (numbered_run op h)

end Runs

end Volume

end CardShell
