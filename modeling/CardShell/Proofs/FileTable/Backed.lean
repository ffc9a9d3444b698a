import CardShell.Proofs.Drive.Handles
import CardShell.Proofs.FileTable

/-!
The file table and the card. Each handle in the table stands for a file that is open on the card,
unless it has been lost, and nothing else is open there. Opens and closes of the table keep that; so
does all else that happens to the card, as long as it is known what is open afterwards.
-/

set_option autoImplicit false

namespace CardShell.FileTable

open CardShell.Action Volume

variable {t : FileTable} {i h k : Nat} {s : FileTable × Drive} {lost : List Nat}

section Slots

theorem at?_eq_some_iff : t.at? i = some h ↔ ∃ hi : i < t.slots.length, t.slots[i] = some h := by
  rw [at?, Option.join_eq_some_iff, List.getElem?_eq_some_iff]

theorem nodup_handles_iff :
    t.handles.Nodup ↔ ∀ i j h, t.at? i = some h → t.at? j = some h → i = j := by
  unfold handles List.Nodup
  rw [List.pairwise_filterMap, List.pairwise_iff_getElem]
  constructor
  · intro hall i j h hi hj
    obtain ⟨hil, hi⟩ := at?_eq_some_iff.mp hi
    obtain ⟨hjl, hj⟩ := at?_eq_some_iff.mp hj
    rcases Nat.lt_trichotomy i j with hlt | he | hgt
    · exact absurd rfl (hall i j hil hjl hlt h hi h hj)
    · exact he
    · exact absurd rfl (hall j i hjl hil hgt h hj h hi)
  · rintro hall i j hil hjl hlt h hi k hj rfl
    exact Nat.ne_of_lt hlt (hall i j h (at?_eq_some_iff.mpr ⟨hil, hi⟩) (at?_eq_some_iff.mpr ⟨hjl, hj⟩))

theorem mem_handles_put (hf : t.free? = some i) : k ∈ (t.put i h).handles ↔ k = h ∨ k ∈ t.handles := by
  have hat := at?_put (free?_le_length hf) h
  have hfree := (free?_spec hf).1
  rw [mem_handles, mem_handles]
  constructor
  · rintro ⟨j, hj⟩
    rw [hat] at hj
    split at hj
    · exact Or.inl (Option.some.inj hj).symm
    · exact Or.inr ⟨j, hj⟩
  · rintro (rfl | ⟨j, hj⟩)
    · exact ⟨i, by rw [hat, if_pos rfl]⟩
    · have hne : j ≠ i := by
        rintro rfl
        rw [hfree] at hj
        cases hj
      exact ⟨j, by rw [hat, if_neg hne, hj]⟩

theorem nodup_handles_put (hf : t.free? = some i) (hd : t.handles.Nodup) (hnew : h ∉ t.handles) :
    (t.put i h).handles.Nodup := by
  have hat := at?_put (free?_le_length hf) h
  have hold : ∀ j, t.at? j ≠ some h := fun j hj => hnew (mem_handles.mpr ⟨j, hj⟩)
  rw [nodup_handles_iff] at hd ⊢
  intro j l k hj hl
  rw [hat] at hj hl
  by_cases hji : j = i
  · by_cases hli : l = i
    · rw [hji, hli]
    · rw [if_pos hji] at hj
      rw [if_neg hli, ← hj] at hl
      exact absurd hl (hold l)
  · rw [if_neg hji] at hj
    by_cases hli : l = i
    · rw [if_pos hli, ← hj] at hl
      exact absurd hl.symm (hold j)
    · rw [if_neg hli] at hl
      exact hd j l k hj hl

theorem mem_handles_of_clear (hk : k ∈ (t.clear i).handles) : k ∈ t.handles := by
  obtain ⟨j, hj⟩ := mem_handles.mp hk
  rw [at?_clear] at hj
  split at hj
  · cases hj
  · exact mem_handles.mpr ⟨j, hj⟩

theorem mem_handles_clear (hd : t.handles.Nodup) (hi : t.at? i = some h) :
    k ∈ (t.clear i).handles ↔ k ≠ h ∧ k ∈ t.handles := by
  rw [nodup_handles_iff] at hd
  constructor
  · intro hk
    refine ⟨?_, mem_handles_of_clear hk⟩
    rintro rfl
    obtain ⟨j, hj⟩ := mem_handles.mp hk
    rw [at?_clear] at hj
    split at hj
    · cases hj
    · rename_i hne
      exact hne (hd j i k hj hi)
  · rintro ⟨hne, hk⟩
    obtain ⟨j, hj⟩ := mem_handles.mp hk
    have hji : j ≠ i := by
      rintro rfl
      exact hne (Option.some.inj (hj.symm.trans hi))
    exact mem_handles.mpr ⟨j, by rw [at?_clear, if_neg hji, hj]⟩

theorem nodup_handles_clear (hd : t.handles.Nodup) (i : Nat) : (t.clear i).handles.Nodup := by
  rw [nodup_handles_iff] at hd ⊢
  intro j l k hj hl
  rw [at?_clear] at hj hl
  split at hj
  · cases hj
  · split at hl
    · cases hl
    · exact hd j l k hj hl

theorem handles_clearAll (t : FileTable) : t.clearAll.handles = [] := rfl

theorem keeps_closeEach {P : Drive → Prop} (hP : ∀ h, Keeps P (Drive.closeFile h)) (hs : List Nat) :
    Keeps P (closeEach hs) := by
  induction hs with
  | nil => exact keeps_pure _
  | cons h hs ih =>
    intro d hd
    rw [after_closeEach_cons]
    exact ih _ (hP h d hd)

end Slots

section Backing

/-- All handles in the table, and those in `lost`, were given out; and as long as no number has come
again, the table has each of them once, and the open files are those in the table but not lost. -/
structure Backed (lost : List Nat) (s : FileTable × Drive) : Prop where
  given : ∀ h, h ∈ s.1.handles ∨ h ∈ lost → h ≤ s.2.volume.issued
  distinct : s.2.volume.issued < handleLimit → s.1.handles.Nodup
  files : Handles s.2.volume.issued (fun h => h ∈ s.1.handles && h ∉ lost) s.2.volume.files
  listings : s.2.volume.listings.Numbered s.2.volume.issued

/-- What table and card show together. -/
def tally (lost : List Nat) (s : FileTable × Drive) : Tally :=
  ⟨s.2.volume.issued, fun h => h ∈ s.1.handles && h ∉ lost, s.2.volume.listings.has⟩

theorem backed_empty {d : Drive} (capacity : Nat) (hd : d.volume.Numbered)
    (hnone : d.volume.openFileCount = 0) : Backed [] ({ capacity := capacity }, d) := by
  have hfiles : d.volume.files = [] := List.length_eq_zero_iff.mp hnone
  refine ⟨?_, fun _ => List.nodup_nil, ?_, hd.listings⟩
  · rintro h (hh | hh)
    · cases hh
    · cases hh
  · rw [hfiles]
    exact .none _

namespace Backed

variable {d : Drive}

theorem tallied (hs : Backed lost s) : Drive.Tallied (tally lost s) s.2 :=
  ⟨Nat.le_refl _, hs.files, ⟨hs.listings, fun _ _ => rfl⟩⟩

/-- What leaves open files alone. -/
theorem of_tallied (hs : Backed lost s) (hd : Drive.Tallied (tally lost s) d) :
    Backed lost (s.1, d) where
  given := fun h hh => Nat.le_trans (hs.given h hh) hd.floor
  distinct := fun hlt => hs.distinct (Nat.lt_of_le_of_lt hd.floor hlt)
  files := hd.files
  listings := hd.listings.numbered

/-- What closes all files behind the table's back: it has lost the handles in it. -/
theorem of_cleared (hs : Backed lost s) (hd : Drive.Tallied (tally lost s).cleared d) :
    Backed (s.1.handles ++ lost) (s.1, d) where
  given := by
    intro h hh
    refine Nat.le_trans (hs.given h ?_) hd.floor
    simpa using hh
  distinct := fun hlt => hs.distinct (Nat.lt_of_le_of_lt hd.floor hlt)
  files := by
    refine hd.files.congr fun _ h => ?_
    by_cases hh : h ∈ s.1.handles
    · simp [Tally.cleared, hh]
    · simp [Tally.cleared, hh]
  listings := hd.listings.numbered

/-- The handle that is given out next is in no slot, and was not lost. -/
theorem fresh (hs : Backed lost s) (hlt : s.2.volume.issued < handleLimit) :
    s.2.volume.nextHandle ∉ s.1.handles ∧ s.2.volume.nextHandle ∉ lost := by
  have hnot : ¬ s.2.volume.nextHandle ≤ s.2.volume.issued := by
    rw [nextHandle_of_lt hlt]
    exact Nat.not_succ_le_self _
  exact ⟨fun hh => hnot (hs.given _ (Or.inl hh)), fun hh => hnot (hs.given _ (Or.inr hh))⟩

/-- A file that opens goes into a free slot. -/
theorem put (hs : Backed lost s) (hf : s.1.free? = some i) {d : Drive}
    (hd : Drive.Tallied ((tally lost s).withFile (s.2.volume.issued + 1) s.2.volume.nextHandle) d) :
    Backed lost (s.1.put i s.2.volume.nextHandle, d) := by
  have hle : s.2.volume.issued + 1 ≤ d.volume.issued := hd.floor
  have hbefore : d.volume.issued < handleLimit → s.2.volume.issued < handleLimit :=
    fun hlt => Nat.lt_of_lt_of_le hle (Nat.le_of_lt hlt)
  refine ⟨fun h hh => ?_, fun hlt => ?_, hd.files.congr fun hlt h => ?_, hd.listings.numbered⟩
  · rw [mem_handles_put hf, or_assoc] at hh
    rcases hh with rfl | hh
    · exact Nat.le_trans s.2.volume.nextHandle_le hle
    · exact Nat.le_trans (hs.given h hh) (Nat.le_of_succ_le hle)
  · exact nodup_handles_put hf (hs.distinct (hbefore hlt)) (hs.fresh (hbefore hlt)).1
  · have hnew := (hs.fresh (hbefore hlt)).2
    rw [Bool.eq_iff_iff]
    simp only [Tally.withFile, tally, mem_handles_put hf, Bool.or_eq_true, Bool.and_eq_true,
      decide_eq_true_eq]
    constructor
    · rintro (rfl | ⟨hh, hl⟩)
      · exact ⟨Or.inl rfl, hnew⟩
      · exact ⟨Or.inr hh, hl⟩
    · rintro ⟨rfl | hh, hl⟩
      · exact Or.inl rfl
      · exact Or.inr ⟨hh, hl⟩

/-- A slot is cleared and its handle closed. -/
theorem clear (hs : Backed lost s) (hi : s.1.at? i = some h) :
    Backed lost (s.1.clear i, (Drive.closeFile h).after s.2) := by
  rw [Drive.after_closeFile]
  refine ⟨fun k hk => ?_, fun hlt => ?_, ⟨hs.files.numbered.erase h, fun hlt k => ?_⟩, hs.listings⟩
  · exact hs.given k (hk.imp_left mem_handles_of_clear)
  · exact nodup_handles_clear (hs.distinct hlt) i
  · rw [Table.has_erase, hs.files.has hlt, Bool.eq_iff_iff]
    simp only [mem_handles_clear (hs.distinct hlt) hi, Bool.and_eq_true, decide_eq_true_eq, and_assoc]

/-- All slots are cleared and all handles closed. -/
theorem clearAll (hs : Backed lost s) :
    Backed lost (s.1.clearAll, (closeEach s.1.handles).after s.2) := by
  have hkeeps : Keeps (fun d : Drive => d.volume.issued = s.2.volume.issued ∧
      d.volume.files.Numbered s.2.volume.issued ∧ d.volume.listings = s.2.volume.listings)
      (closeEach s.1.handles) := by
    refine keeps_closeEach (fun h d hd => ?_) _
    rw [Drive.after_closeFile]
    exact ⟨hd.1, hd.2.1.erase h, hd.2.2⟩
  obtain ⟨hissued, hfiles, hlistings⟩ := hkeeps s.2 ⟨rfl, hs.files.numbered, rfl⟩
  have hget := get?_closeEach s.1.handles s.2
  generalize (closeEach s.1.handles).after s.2 = d at hissued hfiles hlistings hget ⊢
  refine ⟨fun k hk => ?_, fun _ => List.nodup_nil, ⟨hissued ▸ hfiles, fun hlt k => ?_⟩, ?_⟩
  · rw [hissued]
    refine hs.given k (hk.imp_left fun hk => ?_)
    cases hk
  · rw [hissued] at hlt
    have hhas := hs.files.has hlt k
    unfold Table.has at hhas ⊢
    rw [hget]
    split
    · rfl
    · rename_i hk
      rw [hhas]
      simp [hk, handles_clearAll]
  · rw [hlistings, hissued]
    exact hs.listings

end Backed

end Backing

section Calls

theorem backed_openFile (path : Text) (mode : OpenMode) :
    Keeps (Backed lost) (openFile path mode) := by
  intro s hs
  cases hf : s.1.free? with
  | none =>
    rw [after_error (openFile_full hf)]
    exact hs
  | some i =>
    have hopen := Drive.openFile_tallied hs.tallied path mode
    cases hx : Drive.openFile path mode s.2 with
    | error e d =>
      rw [hx] at hopen
      rw [after_error (openFile_error hf hx)]
      exact hs.of_tallied hopen
    | ok h d =>
      rw [hx] at hopen
      obtain ⟨rfl, hd⟩ := hopen
      rw [after_ok (openFile_ok hf hx)]
      exact hs.put hf hd

theorem backed_close (n : UInt8) : Keeps (Backed lost) (close n) := by
  intro s hs
  by_cases hn : 1 ≤ n.toNat ∧ n.toNat ≤ s.1.capacity
  · cases hi : s.1.at? (n.toNat - 1) with
    | none =>
      rw [close_free hn hi]
      exact hs
    | some h =>
      rw [close_taken hn hi]
      exact hs.clear hi
  · rw [close_beyond hn]
    exact hs.clearAll

end Calls

section Open

theorem Backed.has_iff (hs : Backed lost s) (hlt : s.2.volume.issued < handleLimit) (h : Nat) :
    s.2.volume.files.has h = true ↔ h ∈ s.1.handles ∧ h ∉ lost := by
  rw [hs.files.has hlt, Bool.and_eq_true, decide_eq_true_eq, decide_eq_true_eq]

/-- As many files are open as there are handles in the table, less those that are lost. -/
theorem Backed.openFileCount_eq (hs : Backed lost s) (hlt : s.2.volume.issued < handleLimit) :
    s.2.volume.openFileCount = (s.1.handles.filter (· ∉ lost)).length := by
  have hnodup : (s.1.handles.filter (· ∉ lost)).Nodup := (hs.distinct hlt).filter _
  have hperm : (s.2.volume.files.map Prod.fst).Perm (s.1.handles.filter (· ∉ lost)) := by
    refine (List.perm_ext_iff_of_nodup hs.files.numbered.nodup hnodup).mpr fun h => ?_
    rw [Table.mem_keys_iff, hs.has_iff hlt, List.mem_filter, decide_eq_true_eq]
  rw [← hperm.length_eq, List.length_map]
  rfl

/-- Table and card count the same exactly where no handle in the table is lost. -/
theorem Backed.openCount_eq_iff (hs : Backed lost s) (hlt : s.2.volume.issued < handleLimit) :
    s.1.openCount = s.2.volume.openFileCount ↔ ∀ h ∈ s.1.handles, h ∉ lost := by
  rw [hs.openFileCount_eq hlt, openCount, eq_comm, List.length_filter_eq_length_iff]
  simp only [decide_eq_true_eq]

end Open

end CardShell.FileTable
