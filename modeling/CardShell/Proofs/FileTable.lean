import CardShell.Api
import CardShell.Proofs.Machine
import CardShell.Proofs.Volume.Operation

/-!
The numbers of open files. Programs see the file table through the numbers that opens have given out;
what they may expect of it is stated on a record of those, kept beside the table and never looked at
by it. It holds exactly as long as no more than 255 files are open at once: the 256th has no number.
-/

set_option autoImplicit false

namespace CardShell.FileTable

open CardShell.Action

/-- The driver handle of each number that was given out and has not been closed since. -/
abbrev Holdings := UInt8 → Option Nat

def Holdings.empty : Holdings := fun _ => none

def Holdings.update (held : Holdings) (number : UInt8) (h : Option Nat) : Holdings :=
  fun n => if n = number then h else held n

def answer : Option Nat → Except Error Nat
  | some h => .ok h
  | none => .error .invalidObject

/-- The table answers every number by the record. -/
def Agrees (held : Holdings) (t : FileTable) : Prop := ∀ n, t.handle? n = answer (held n)

inductive Call
  | openFile (path : Text) (mode : OpenMode)
  | close (number : UInt8)
  /-- Something else happens to the card, which becomes `d`. -/
  | elsewhere (d : Drive)

/-- A program that opens a file is told 0 only where no file has been left open. -/
def OpensOrTells (path : Text) (mode : UInt8) (m : Machine) : Prop :=
  ∃ n m', Api.openFile path mode m = .ok n m' ∧
    (n = 0 → m'.files = m.files ∧ m'.drive.volume.files = m.drive.volume.files)

namespace Call

def run : Call → FileTable × Drive → FileTable × Drive
  | openFile path mode, s => (FileTable.openFile path mode).after s
  | close number, s => (FileTable.close number).after s
  | elsewhere d, s => (s.1, d)

/-- The record after a call. -/
def book (c : Call) (s : FileTable × Drive) (held : Holdings) : Holdings :=
  match c with
  | openFile path mode =>
    match FileTable.openFile path mode s, Drive.openFile path mode s.2 with
    | .ok n _, .ok h _ => held.update n (some h)
    | _, _ => held
  | close number =>
    if 1 ≤ number.toNat ∧ number.toNat ≤ s.1.capacity then held.update number none else .empty
  | elsewhere _ => held

/-- Whether `h` is to be closed with `number`: its own handle, or any if it names no slot. -/
def Due (s : FileTable × Drive) (held : Holdings) (number : UInt8) (h : Nat) : Prop :=
  held number = some h ∨
    ¬ (1 ≤ number.toNat ∧ number.toNat ≤ s.1.capacity) ∧ ∃ n, held n = some h

/-- An open that succeeds gives a number above 0 that no open file has, for a handle that the driver
has just opened; one that fails leaves nothing open. A close closes what is due and nothing else. -/
def Lawful (c : Call) (s : FileTable × Drive) (held : Holdings) : Prop :=
  match c with
  | openFile path mode =>
    (match FileTable.openFile path mode s with
      | .ok n t => n ≠ 0 ∧ held n = none ∧ ∃ h, Drive.openFile path mode s.2 = .ok h t.2
      | .error _ t => t.1 = s.1 ∧ t.2.volume.files = s.2.volume.files) ∧
    ∀ m : Machine, (m.files, m.drive) = s → OpensOrTells path mode.bits m
  | close number => ∀ h,
    (Due s held number h → ((close number).run s).2.volume.files.get? h = none) ∧
    (¬ Due s held number h →
      ((close number).run s).2.volume.files.get? h = s.2.volume.files.get? h)
  | elsewhere _ => True

end Call

def runAll (s : FileTable × Drive) (calls : List Call) : FileTable × Drive :=
  calls.foldl (fun s c => c.run s) s

/-- Every call of a run is lawful, and the table agrees with the record before and after each. -/
def LawfulRun (s : FileTable × Drive) (held : Holdings) : List Call → Prop
  | [] => Agrees held s.1
  | c :: cs => Agrees held s.1 ∧ c.Lawful s held ∧ LawfulRun (c.run s) (c.book s held) cs

variable {t : FileTable} {i j h : Nat} {held : Holdings} {s : FileTable × Drive}

theorem at?_eq_none (hi : t.slots.length ≤ i) : t.at? i = none := by
  rw [at?, List.getElem?_eq_none hi]
  rfl

/-- The first free slot is one of the slots or comes right behind them; then all of them are taken. -/
theorem free?_spec (hf : t.free? = some i) :
    t.at? i = none ∧ (i < t.slots.length ∨
      i = t.slots.length ∧ i < t.capacity ∧ ∀ s ∈ t.slots, s.isSome = true) := by
  unfold free? at hf
  split at hf
  · rename_i k hk
    cases hf
    obtain ⟨hlt, hnone, _⟩ := List.findIdx?_eq_some_iff_getElem.mp hk
    refine ⟨?_, Or.inl hlt⟩
    rw [at?, List.getElem?_eq_getElem hlt]
    simpa using hnone
  · rename_i hk
    split at hf
    · rename_i hlt
      cases hf
      refine ⟨at?_eq_none (Nat.le_refl _), Or.inr ⟨rfl, hlt, fun s hs => ?_⟩⟩
      have hs := List.findIdx?_eq_none_iff.mp hk s hs
      simpa using hs
    · cases hf

/-- The table grows where all slots are taken. -/
theorem free?_of_taken (hfull : ∀ x ∈ t.slots, x.isSome = true) (hlt : t.slots.length < t.capacity) :
    t.free? = some t.slots.length := by
  have hnone : t.slots.findIdx? Option.isNone = none := by
    rw [List.findIdx?_eq_none_iff]
    intro x hx
    simpa using hfull x hx
  unfold free?
  rw [hnone]
  exact if_pos hlt

theorem slots_put_length (t : FileTable) (h : Nat) :
    (t.put t.slots.length h).slots = t.slots ++ [some h] := if_neg (Nat.lt_irrefl _)

theorem taken_append {slots : List (Option Nat)} (hfull : ∀ x ∈ slots, x.isSome = true) (h : Nat) :
    ∀ x ∈ slots ++ [some h], x.isSome = true := by
  intro x hx
  rcases List.mem_append.mp hx with hx | hx
  · exact hfull x hx
  · rw [List.mem_singleton.mp hx]
    rfl

theorem free?_le_length (hf : t.free? = some i) : i ≤ t.slots.length := by
  rcases (free?_spec hf).2 with hlt | ⟨he, _⟩
  · exact Nat.le_of_lt hlt
  · exact Nat.le_of_eq he

theorem at?_put (hi : i ≤ t.slots.length) (h j : Nat) :
    (t.put i h).at? j = if j = i then some h else t.at? j := by
  unfold put at?
  simp only
  split
  · rename_i hlt
    rw [List.getElem?_set]
    by_cases hj : i = j
    · rw [if_pos hj, if_pos hlt, if_pos hj.symm]
      rfl
    · rw [if_neg hj, if_neg (Ne.symm hj)]
  · rename_i hlt
    have he : i = t.slots.length := by omega
    by_cases hj : j = i
    · rw [if_pos hj, hj, he, List.getElem?_concat_length]
      rfl
    · rw [if_neg hj]
      by_cases hjl : j < t.slots.length
      · rw [List.getElem?_append_left hjl]
      · rw [List.getElem?_eq_none (by simp; omega), List.getElem?_eq_none (Nat.le_of_not_lt hjl)]

theorem at?_clear (t : FileTable) (i j : Nat) :
    (t.clear i).at? j = if j = i then none else t.at? j := by
  unfold clear at?
  simp only
  rw [List.getElem?_set]
  by_cases hj : i = j
  · rw [if_pos hj, if_pos hj.symm]
    split <;> rfl
  · rw [if_neg hj, if_neg (Ne.symm hj)]

theorem mem_handles : h ∈ t.handles ↔ ∃ i, t.at? i = some h := by
  unfold handles at?
  rw [List.mem_filterMap]
  constructor
  · rintro ⟨s, hs, rfl⟩
    obtain ⟨i, hi⟩ := List.mem_iff_getElem?.mp hs
    exact ⟨i, by rw [hi]; rfl⟩
  · rintro ⟨i, hi⟩
    exact ⟨some h, List.mem_of_getElem? (Option.join_eq_some_iff.mp hi), rfl⟩

theorem openCount_le_length (t : FileTable) : t.openCount ≤ t.slots.length :=
  List.length_filterMap_le _ _

theorem length_put (t : FileTable) (i h : Nat) :
    (t.put i h).slots.length = if i < t.slots.length then t.slots.length else t.slots.length + 1 := by
  unfold put
  simp only
  split
  · exact List.length_set
  · simp

/-- Where no slot is free, each one counts. -/
theorem openCount_put (hf : t.free? = some i) (hi : t.slots.length ≤ i) (h : Nat) :
    (t.put i h).openCount = i + 1 := by
  obtain ⟨_, hlt | ⟨rfl, _, hall⟩⟩ := free?_spec hf
  · omega
  · unfold openCount handles put
    rw [if_neg (Nat.lt_irrefl _), List.filterMap_append, List.length_append,
      List.length_filterMap_eq_countP]
    exact congrArg (· + 1) (List.countP_eq_length.mpr hall)

section Numbers

/-- The handle that the table shows for a number. -/
def shown (t : FileTable) : Holdings := fun n => if n = 0 then none else t.at? (n.toNat - 1)

theorem shown_zero (t : FileTable) : t.shown 0 = none := rfl

theorem shown_of_ne (t : FileTable) {n : UInt8} (hn : n ≠ 0) :
    t.shown n = t.at? (n.toNat - 1) := if_neg hn

theorem toNat_ne_zero {n : UInt8} (hn : n ≠ 0) : n.toNat ≠ 0 := fun h => hn (UInt8.toNat_inj.mp h)

theorem handle?_eq (t : FileTable) (n : UInt8) : t.handle? n = answer (t.shown n) := by
  unfold handle?
  split
  · rename_i h0
    have hn : n = 0 := UInt8.toNat_inj.mp h0
    rw [hn, shown_zero]
    rfl
  · rename_i i hi
    have hn : n ≠ 0 := by
      rintro rfl
      cases hi
    rw [shown_of_ne t hn, hi]
    rfl

/-- A number in use stands for the same handle when another is opened. -/
theorem handle?_put {n : UInt8} (hf : t.free? = some i) (hh : t.handle? n = .ok h) (k : Nat) :
    (t.put i k).handle? n = .ok h := by
  unfold handle? at hh ⊢
  cases hn : n.toNat with
  | zero =>
    rw [hn] at hh
    cases hh
  | succ j =>
    rw [hn] at hh
    -- the slot of a number in use is taken, so it is not the one that was free
    have hj : j ≠ i := by
      rintro rfl
      simp only [(free?_spec hf).1] at hh
      cases hh
    simp only [at?_put (free?_le_length hf), if_neg hj]
    exact hh

theorem answer_inj {a b : Option Nat} (h : answer a = answer b) : a = b := by
  cases a with
  | none => cases b with
    | none => rfl
    | some k => cases h
  | some g => cases b with
    | none => cases h
    | some k =>
      cases h
      rfl

theorem agrees_iff : Agrees held t ↔ held = t.shown := by
  constructor
  · intro h
    funext n
    apply answer_inj
    rw [← h n, handle?_eq]
  · rintro rfl n
    exact handle?_eq t n

theorem eq_ofNat_iff (hi : i < 255) (n : UInt8) : n = UInt8.ofNat (i + 1) ↔ n.toNat = i + 1 := by
  rw [← UInt8.toNat_inj, UInt8.toNat_ofNat', Nat.mod_eq_of_lt (by omega)]

theorem number_ne_zero (hi : i < 255) : UInt8.ofNat (i + 1) ≠ 0 := by
  intro h0
  have hn := (eq_ofNat_iff hi 0).mp h0.symm
  cases hn

theorem shown_put (hi : i ≤ t.slots.length) (hlt : i < 255) (h : Nat) :
    (t.put i h).shown = t.shown.update (UInt8.ofNat (i + 1)) (some h) := by
  funext n
  unfold Holdings.update
  by_cases hn : n = 0
  · subst hn
    rw [shown_zero, shown_zero, if_neg]
    rw [eq_ofNat_iff hlt]
    exact Ne.symm (Nat.succ_ne_zero i)
  · have hpos := toNat_ne_zero hn
    have hiff : n.toNat - 1 = i ↔ n = UInt8.ofNat (i + 1) := by
      rw [eq_ofNat_iff hlt]
      omega
    simp only [shown_of_ne _ hn, at?_put hi, hiff]

theorem shown_clear (t : FileTable) {n : UInt8} (hn : 1 ≤ n.toNat) :
    (t.clear (n.toNat - 1)).shown = t.shown.update n none := by
  funext k
  unfold Holdings.update
  by_cases hk : k = 0
  · rw [hk, shown_zero, shown_zero, ite_self]
  · have hpos := toNat_ne_zero hk
    have hiff : k.toNat - 1 = n.toNat - 1 ↔ k = n := by
      rw [← UInt8.toNat_inj]
      omega
    simp only [shown_of_ne _ hk, at?_clear, hiff]

theorem shown_clearAll (t : FileTable) : t.clearAll.shown = .empty := by
  funext n
  unfold shown
  split <;> rfl

/-- A slot with a number is shown by it. -/
theorem shown_ofNat (t : FileTable) (hi : i < 255) : t.shown (UInt8.ofNat (i + 1)) = t.at? i := by
  have hn := (eq_ofNat_iff hi (.ofNat (i + 1))).mp rfl
  rw [shown_of_ne t (number_ne_zero hi), hn, Nat.add_sub_cancel]

/-- As long as all slots have numbers, all that is open is shown. -/
theorem mem_handles_iff_shown (hlen : t.slots.length ≤ 255) :
    h ∈ t.handles ↔ ∃ n, t.shown n = some h := by
  rw [mem_handles]
  constructor
  · rintro ⟨i, hi⟩
    have hlt : i < t.slots.length := by
      refine Nat.lt_of_not_le fun hge => ?_
      rw [at?_eq_none hge] at hi
      cases hi
    exact ⟨.ofNat (i + 1), by rw [shown_ofNat t (by omega), hi]⟩
  · rintro ⟨n, hn⟩
    by_cases h0 : n = 0
    · subst h0
      cases hn
    · exact ⟨_, by rw [← shown_of_ne t h0, hn]⟩

end Numbers

section Calls

theorem onDrive_ok {α : Type} {x : DriveAction α} {a : α} {d : Drive} (h : x s.2 = .ok a d) :
    onDrive x s = .ok a (s.1, d) := by
  unfold onDrive zoom
  rw [h]

theorem onDrive_error {α : Type} {x : DriveAction α} {e : Error} {d : Drive}
    (h : x s.2 = .error e d) : onDrive x s = .error e (s.1, d) := by
  unfold onDrive zoom
  rw [h]
  rfl

theorem openFile_full {path : Text} {mode : OpenMode} (hf : s.1.free? = none) :
    openFile path mode s = .error .tooManyOpenFiles s := by
  unfold openFile
  rw [bind_apply, get_apply]
  simp only [hf, throw_apply]

theorem openFile_error {path : Text} {mode : OpenMode} {e : Error} {d : Drive}
    (hf : s.1.free? = some i) (hd : Drive.openFile path mode s.2 = .error e d) :
    openFile path mode s = .error e (s.1, d) := by
  unfold openFile
  rw [bind_apply, get_apply]
  simp only [hf, bind_apply]
  rw [onDrive_error hd]

theorem openFile_ok {path : Text} {mode : OpenMode} {d : Drive} (hf : s.1.free? = some i)
    (hd : Drive.openFile path mode s.2 = .ok h d) :
    openFile path mode s = .ok (UInt8.ofNat (i + 1)) (s.1.put i h, d) := by
  unfold openFile
  rw [bind_apply, get_apply]
  simp only [hf, bind_apply]
  rw [onDrive_ok hd]
  rfl

/-- An open fails and leaves nothing open, or puts a new driver handle into the first free slot. -/
theorem openFile_cases (path : Text) (mode : OpenMode) (s : FileTable × Drive) :
    (∃ e t, openFile path mode s = .error e t ∧ t.1 = s.1 ∧
      t.2.volume.files = s.2.volume.files) ∨
    ∃ i h d, s.1.free? = some i ∧ Drive.openFile path mode s.2 = .ok h d ∧
      openFile path mode s = .ok (UInt8.ofNat (i + 1)) (s.1.put i h, d) := by
  cases hf : s.1.free? with
  | none => exact Or.inl ⟨_, s, openFile_full hf, rfl, rfl⟩
  | some i =>
    cases hd : Drive.openFile path mode s.2 with
    | error e d =>
      exact Or.inl ⟨e, (s.1, d), openFile_error hf hd, rfl, Drive.files_of_openFile_error hd⟩
    | ok h d => exact Or.inr ⟨i, h, d, rfl, rfl, openFile_ok hf hd⟩

theorem close_beyond {n : UInt8} (hn : ¬ (1 ≤ n.toNat ∧ n.toNat ≤ s.1.capacity)) :
    (close n).after s = (s.1.clearAll, (closeEach s.1.handles).after s.2) := by
  unfold close
  rw [after_bind_ok (get_apply s)]
  simp only [if_neg hn]
  rw [after_bind_ok (modify_apply _ s)]
  exact after_zoom _ _ _ _ _

theorem close_free {n : UInt8} (hn : 1 ≤ n.toNat ∧ n.toNat ≤ s.1.capacity)
    (hs : s.1.at? (n.toNat - 1) = none) : (close n).after s = s := by
  unfold close
  rw [after_bind_ok (get_apply s)]
  simp only [if_pos hn, hs]
  rfl

theorem close_taken {n : UInt8} (hn : 1 ≤ n.toNat ∧ n.toNat ≤ s.1.capacity)
    (hs : s.1.at? (n.toNat - 1) = some h) :
    (close n).after s = (s.1.clear (n.toNat - 1), (Drive.closeFile h).after s.2) := by
  unfold close
  rw [after_bind_ok (get_apply s)]
  simp only [if_pos hn, hs]
  rw [after_bind_ok (modify_apply _ s)]
  exact after_zoom _ _ _ _ _

theorem after_closeEach_cons (h : Nat) (hs : List Nat) (d : Drive) :
    (closeEach (h :: hs)).after d = (closeEach hs).after ((Drive.closeFile h).after d) := by
  obtain ⟨first, hfirst⟩ := exists_outcome (δ := Error) (Drive.closeFile h) d
  obtain ⟨rest, hrest⟩ := exists_outcome (δ := Error) (closeEach hs) ((Drive.closeFile h).after d)
  rw [closeEach, after_bind_ok hfirst, after_bind_ok hrest]
  cases first with
  | error e => rfl
  | ok a => exact after_query _ _

/-- Closing some handles closes these and no others, whether or not the driver reports errors. -/
theorem get?_closeEach (hs : List Nat) (d : Drive) (h : Nat) :
    ((closeEach hs).after d).volume.files.get? h =
      if h ∈ hs then none else d.volume.files.get? h := by
  induction hs generalizing d with
  | nil => rfl
  | cons g hs ih =>
    rw [after_closeEach_cons, ih, Drive.after_closeFile]
    by_cases hh : h ∈ hs
    · rw [if_pos hh, if_pos (List.mem_cons_of_mem g hh)]
    · rw [if_neg hh]
      by_cases hg : h = g
      · rw [if_pos (by rw [hg]; exact List.mem_cons_self), hg]
        exact Table.get?_erase_self g _
      · rw [if_neg (by simp [hg, hh])]
        exact Table.get?_erase_of_ne hg _

end Calls

section Opening

theorem fopen_ok {path : Text} {mode : OpenMode} {n : UInt8} {m : Machine} {t : FileTable × Drive}
    (hm : (m.files, m.drive) = s) (hx : openFile path mode s = .ok n t) :
    Api.openFile path mode.bits m = .ok n { m with files := t.1, drive := t.2 } := by
  have hf : Shell.files (openFile path mode) m =
      .ok n { m with files := t.1, drive := t.2 } := by
    subst hm
    unfold Shell.files Shell.on zoom
    rw [hx]
  unfold Api.openFile Api.orElse
  rw [bind_apply, Shell.outcome_ok hf]
  rfl

theorem fopen_error {path : Text} {mode : OpenMode} {m : Machine} {e : Error}
    {t : FileTable × Drive} (hm : (m.files, m.drive) = s)
    (hx : openFile path mode s = .error e t) :
    Api.openFile path mode.bits m = .ok 0 { m with files := t.1, drive := t.2 } := by
  have hf : Shell.files (openFile path mode) m =
      .error (.failed e) { m with files := t.1, drive := t.2 } := by
    subst hm
    unfold Shell.files Shell.on zoom
    rw [hx]
  unfold Api.openFile Api.orElse
  rw [bind_apply, Shell.outcome_failed hf]
  rfl

end Opening

section Runs

/-- All slots have numbers, and the table agrees with the record. -/
structure Numbered (s : FileTable × Drive) (held : Holdings) : Prop where
  short : s.1.slots.length ≤ 255
  within : s.1.slots.length ≤ s.1.capacity
  agrees : held = s.1.shown

theorem openCount_le_of_numbered (h : Numbered s held) : s.1.openCount ≤ 255 :=
  Nat.le_trans (openCount_le_length s.1) h.short

/-- Either the next file gets a slot that has a number, or all 255 of those are taken. -/
theorem free?_lt_or (h : Numbered s held) (hf : s.1.free? = some i) :
    i < 255 ∨ i = 255 ∧ ∀ k, (s.1.put i k).openCount = 256 := by
  have hle := free?_le_length hf
  have hshort := h.short
  by_cases hi : i < 255
  · exact Or.inl hi
  · have he : i = 255 := by omega
    refine Or.inr ⟨he, fun k => ?_⟩
    rw [openCount_put hf (by omega), he]

theorem numbered_put (h : Numbered s held) (hf : s.1.free? = some i) (hi : i < 255) (k : Nat)
    (d : Drive) :
    Numbered (s.1.put i k, d) (held.update (UInt8.ofNat (i + 1)) (some k)) := by
  have hlen := length_put s.1 i k
  have hshort := h.short
  have hwithin := h.within
  refine ⟨?_, ?_, ?_⟩
  · rcases (free?_spec hf).2 with hlt | ⟨he, _⟩
    · simp only [hlen, if_pos hlt, hshort]
    · rw [hlen, if_neg (by omega)]
      omega
  · rcases (free?_spec hf).2 with hlt | ⟨he, hlt, _⟩
    · rw [hlen, if_pos hlt]
      exact hwithin
    · rw [hlen, if_neg (by omega), ← he]
      exact hlt
  · rw [h.agrees, shown_put (free?_le_length hf) hi]

theorem openFile_step (h : Numbered s held) (path : Text) (mode : OpenMode)
    (hc : ((Call.openFile path mode).run s).1.openCount ≤ 255) :
    (Call.openFile path mode).Lawful s held ∧
      Numbered ((Call.openFile path mode).run s) ((Call.openFile path mode).book s held) := by
  rcases openFile_cases path mode s with ⟨e, t, hx, ht, hfiles⟩ | ⟨i, k, d, hf, hd, hx⟩
  · simp only [Call.Lawful, Call.run, Call.book, after_error hx, hx]
    refine ⟨⟨⟨ht, hfiles⟩, ?_⟩, ht ▸ h.short, ht ▸ h.within, ht ▸ h.agrees⟩
    rintro m rfl
    exact ⟨0, _, fopen_error rfl hx, fun _ => ⟨ht, hfiles⟩⟩
  · rw [Call.run, after_ok hx] at hc
    have hi : i < 255 := by
      rcases free?_lt_or h hf with hi | ⟨_, hcount⟩
      · exact hi
      · rw [hcount k] at hc
        omega
    have hfree : held (UInt8.ofNat (i + 1)) = none := by
      rw [h.agrees, shown_ofNat s.1 hi, (free?_spec hf).1]
    simp only [Call.Lawful, Call.run, Call.book, after_ok hx, hx, hd]
    refine ⟨⟨⟨number_ne_zero hi, hfree, k, rfl⟩, ?_⟩, numbered_put h hf hi k d⟩
    intro m hm
    exact ⟨_, _, fopen_ok hm hx, fun h0 => absurd h0 (number_ne_zero hi)⟩

theorem numbered_close (h : Numbered s held) (n : UInt8) :
    Numbered ((Call.close n).run s) ((Call.close n).book s held) := by
  have hshort := h.short
  have hwithin := h.within
  have hagrees := h.agrees
  by_cases hn : 1 ≤ n.toNat ∧ n.toNat ≤ s.1.capacity
  · rw [Call.book, if_pos hn, Call.run]
    cases hs : s.1.at? (n.toNat - 1) with
    | none =>
      rw [close_free hn hs]
      refine ⟨hshort, hwithin, ?_⟩
      have hn0 : n ≠ 0 := by
        rintro rfl
        exact absurd hn.1 (by decide)
      funext k
      unfold Holdings.update
      by_cases hk : k = n
      · rw [if_pos hk, hk, shown_of_ne s.1 hn0, hs]
      · rw [if_neg hk, hagrees]
    | some g =>
      rw [close_taken hn hs]
      refine ⟨?_, ?_, ?_⟩
      · simpa [clear] using hshort
      · simpa [clear] using hwithin
      · rw [hagrees, shown_clear s.1 hn.1]
  · rw [Call.book, if_neg hn, Call.run, close_beyond hn]
    exact ⟨Nat.zero_le _, Nat.zero_le _, (shown_clearAll s.1).symm⟩

/-- What is on record for a number is what a close of the number finds in its slot; and what is on
record at all is what the table holds. -/
theorem lawful_close (h : Numbered s held) (n : UInt8) : (Call.close n).Lawful s held := by
  intro k
  rw [Call.run]
  by_cases hn : 1 ≤ n.toNat ∧ n.toNat ≤ s.1.capacity
  · have hn0 : n ≠ 0 := by
      rintro rfl
      exact absurd hn.1 (by decide)
    have hdue : Call.Due s held n k ↔ s.1.at? (n.toNat - 1) = some k := by
      rw [← shown_of_ne s.1 hn0, ← h.agrees]
      exact ⟨fun hd => hd.resolve_right fun hr => hr.1 hn, Or.inl⟩
    rw [hdue]
    cases hs : s.1.at? (n.toNat - 1) with
    | none =>
      rw [close_free hn hs]
      constructor
      · intro hk
        cases hk
      · intro _
        rfl
    | some g =>
      rw [close_taken hn hs, Drive.after_closeFile]
      constructor
      · intro hk
        rw [Option.some.inj hk]
        exact Table.get?_erase_self k _
      · intro hk
        exact Table.get?_erase_of_ne (fun he => hk (by rw [he])) _
  · have hdue : Call.Due s held n k ↔ k ∈ s.1.handles := by
      rw [mem_handles_iff_shown h.short, ← h.agrees]
      constructor
      · rintro (hk | ⟨_, hk⟩)
        · exact ⟨n, hk⟩
        · exact hk
      · exact fun hk => Or.inr ⟨hn, hk⟩
    rw [hdue, close_beyond hn, get?_closeEach]
    exact ⟨fun hk => if_pos hk, fun hk => if_neg hk⟩

/-- A call after which no more than 255 files are open is lawful. -/
theorem numbered_step (h : Numbered s held) (c : Call) (hc : (c.run s).1.openCount ≤ 255) :
    c.Lawful s held ∧ Numbered (c.run s) (c.book s held) := by
  cases c with
  | openFile path mode => exact openFile_step h path mode hc
  | close n => exact ⟨lawful_close h n, numbered_close h n⟩
  | elsewhere d => exact ⟨trivial, h.short, h.within, h.agrees⟩

/-- The 256th file gets number 0. -/
theorem openCount_le_of_lawful (h : Numbered s held) (c : Call) (hc : c.Lawful s held) :
    (c.run s).1.openCount ≤ 255 := by
  have hcount := openCount_le_of_numbered h
  cases c with
  | openFile path mode =>
    rcases openFile_cases path mode s with ⟨e, t, hx, ht, _⟩ | ⟨i, k, d, hf, hd, hx⟩
    · rw [Call.run, after_error hx, ht]
      exact hcount
    · simp only [Call.Lawful, hx] at hc
      rcases free?_lt_or h hf with hi | ⟨rfl, _⟩
      · rw [Call.run, after_ok hx]
        exact openCount_le_of_numbered (numbered_put h hf hi k d)
      · exact absurd rfl hc.1.1
  | close n => exact openCount_le_of_numbered (numbered_close h n)
  | elsewhere d => exact hcount

theorem lawfulRun_of_numbered (h : Numbered s held) (calls : List Call) :
    LawfulRun s held calls ↔
      ∀ before, before <+: calls → (runAll s before).1.openCount ≤ 255 := by
  have hagrees : Agrees held s.1 := agrees_iff.mpr h.agrees
  induction calls generalizing s held with
  | nil =>
    refine ⟨fun _ before hb => ?_, fun _ => hagrees⟩
    rw [List.prefix_nil.mp hb]
    exact openCount_le_of_numbered h
  | cons c calls ih =>
    constructor
    · intro ⟨_, hlaw, hrest⟩ before hb
      have hc := openCount_le_of_lawful h c hlaw
      have hnext := (numbered_step h c hc).2
      cases before with
      | nil => exact openCount_le_of_numbered h
      | cons b before =>
        obtain ⟨rfl, hrestb⟩ := List.cons_prefix_cons.mp hb
        exact (ih hnext (agrees_iff.mpr hnext.agrees)).mp hrest before hrestb
    · intro hall
      have hc := hall [c] (List.cons_prefix_cons.mpr ⟨rfl, List.nil_prefix⟩)
      obtain ⟨hlaw, hnext⟩ := numbered_step h c hc
      refine ⟨hagrees, hlaw, (ih hnext (agrees_iff.mpr hnext.agrees)).mpr fun before hb => ?_⟩
      exact hall (c :: before) (List.cons_prefix_cons.mpr ⟨rfl, hb⟩)

theorem numbered_empty (capacity : Nat) (d : Drive) :
    Numbered ({ capacity := capacity }, d) .empty := by
  refine ⟨Nat.zero_le _, Nat.zero_le _, ?_⟩
  funext n
  unfold shown
  split <;> rfl

/-- The numbers of open files are what programs may expect exactly as long as no more than 255 files
are open at once, whatever the capacity of the table. -/
theorem numbers_of_calls (capacity : Nat) (d : Drive) (calls : List Call) :
    LawfulRun ({ capacity := capacity }, d) .empty calls ↔
      ∀ before, before <+: calls →
        (runAll ({ capacity := capacity }, d) before).1.openCount ≤ 255 :=
  lawfulRun_of_numbered (numbered_empty capacity d) calls

end Runs

section Filling

/-- Nothing keeps a program from opening the file at `path`, as often as it likes. -/
def Opens (path : Text) (d : Drive) : Prop :=
  d.faults = [] ∧ ∃ p n, d.volume.resolve path = .ok p ∧ d.volume.node? p.key = some n ∧
    n.isDirectory = false

theorem openFile_of_opens {path : Text} {d : Drive} (h : Opens path d) :
    ∃ k e, Drive.openFile path .read d = .ok k e ∧ Opens path e := by
  obtain ⟨hfaults, p, n, hp, hn, hfile⟩ := h
  have hprepare : d.volume.prepare p .read = .ok d.volume := by
    unfold Volume.prepare
    simp only [hn, hfile]
    rfl
  rcases Volume.openFile_prepared hp hprepare with ⟨e, happend, _⟩ | ⟨position, _, hx⟩
  · cases happend
  · have hcheck : Drive.check .openFile d = .ok () d := by
      have hnone : d.waiting .openFile = 0 := by
        rw [Drive.waiting, hfaults]
        rfl
      rw [Drive.check_of_waiting hnone, Drive.ticked_of_faultless hfaults]
    have hopen : Drive.openFile path .read d = .ok d.volume.nextHandle
        { d with volume := d.volume.withHandle ⟨p.key, position, .read⟩ } := by
      unfold Drive.openFile Drive.change
      rw [bind_apply, hcheck]
      exact Drive.onVolume_ok hx
    exact ⟨_, _, hopen, hfaults, p, n, hp, hn, hfile⟩

theorem openCount_of_opens {path : Text} (k : Nat) (hd : Opens path s.2)
    (hfull : ∀ x ∈ s.1.slots, x.isSome = true) (hk : s.1.slots.length + k ≤ s.1.capacity) :
    (runAll s (.replicate k (.openFile path .read))).1.openCount = s.1.slots.length + k := by
  induction k generalizing s with
  | zero =>
    unfold openCount handles
    rw [List.length_filterMap_eq_countP]
    exact List.countP_eq_length.mpr hfull
  | succ k ih =>
    obtain ⟨h, d, hopen, hd'⟩ := openFile_of_opens hd
    have hfree : s.1.free? = some s.1.slots.length := free?_of_taken hfull (by omega)
    have hslots := s.1.slots_put_length h
    have hrun : (Call.openFile path .read).run s = (s.1.put s.1.slots.length h, d) :=
      after_ok (openFile_ok hfree hopen)
    rw [List.replicate_succ, runAll, List.foldl_cons, hrun]
    have hrest := ih (s := (s.1.put s.1.slots.length h, d)) hd' ?_ ?_
    · rw [runAll] at hrest
      rw [hrest, hslots, List.length_append, List.length_singleton]
      omega
    · rw [hslots]
      exact taken_append hfull h
    · rw [hslots, List.length_append, List.length_singleton]
      exact Nat.le_trans (by omega) hk

/-- In a table of 256 slots, the last one has no number. -/
theorem number_of_last_slot : ¬ LawfulRun
    ({ capacity := 256 }, { volume := (Volume.Operation.writeFile "/a" [120]).run (.labelled []) })
    .empty (.replicate 256 (.openFile "/a" .read)) := by
  intro hlaw
  have hle := (lawfulRun_of_numbered (numbered_empty 256 _) _).mp hlaw _ (List.prefix_refl _)
  have hopens : Opens "/a" { volume := (Volume.Operation.writeFile "/a" [120]).run (.labelled []) } :=
    ⟨rfl, ["a".toList], _, rfl, rfl, rfl⟩
  have hfull := openCount_of_opens (s := ({ capacity := 256 }, _)) 256 hopens (by simp) (by simp)
  rw [hfull] at hle
  exact absurd hle (by decide)

end Filling

end CardShell.FileTable
