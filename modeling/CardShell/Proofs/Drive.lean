import CardShell.Drive
import CardShell.Proofs.Volume.Cases

/-!
What a call of the driver can come to. A call counts for the faults set on its primitive, and then
either fails with the volume as it was or does what the volume does.
-/

set_option autoImplicit false

namespace CardShell.Drive

open CardShell.Action

variable {α : Type} {d : Drive} {p q : Primitive}

section Faults

def waiting (p : Primitive) (d : Drive) : Nat := d.faults.countP fun f => f.on = p

/-- The drive after a call of `p` has counted. -/
def ticked (p : Primitive) (d : Drive) : Drive :=
  { d with faults := (Fault.consult p d.faults).2 }

theorem countP_consult_of_ne (h : p ≠ q) (fs : List Fault) :
    (Fault.consult p fs).2.countP (fun f => f.on = q) = fs.countP (fun f => f.on = q) := by
  induction fs with
  | nil => rfl
  | cons f fs ih =>
    rw [Fault.consult]
    split
    · rename_i hf
      have hq : f.on ≠ q := hf ▸ h
      split
      · simp [hq]
      · simp [hq]
    · simp only [List.countP_cons, ih]

theorem countP_consult_self (p : Primitive) (fs : List Fault) :
    (Fault.consult p fs).2.countP (fun f => f.on = p) + (if (Fault.consult p fs).1.isSome then 1 else 0)
      = fs.countP fun f => f.on = p := by
  induction fs with
  | nil => rfl
  | cons f fs ih =>
    rw [Fault.consult]
    split
    · rename_i hf
      split
      · simp [hf]
      · simp [hf]
    · rename_i hf
      simp only [List.countP_cons, hf]
      simpa using ih

theorem waiting_ticked_of_ne (h : p ≠ q) (d : Drive) : (d.ticked p).waiting q = d.waiting q :=
  countP_consult_of_ne h d.faults

theorem waiting_ticked_self (p : Primitive) (d : Drive) :
    (d.ticked p).waiting p + (if (Fault.consult p d.faults).1.isSome then 1 else 0) =
      d.waiting p :=
  countP_consult_self p d.faults

@[simp] theorem volume_ticked (p : Primitive) (d : Drive) : (d.ticked p).volume = d.volume := rfl

@[simp] theorem portions_ticked (p : Primitive) (d : Drive) :
    (d.ticked p).portions = d.portions := rfl

theorem fired_apply (p : Primitive) (d : Drive) :
    fired p d = .ok (Fault.consult p d.faults).1 (d.ticked p) := rfl

theorem check_cases (p : Primitive) (d : Drive) :
    (∃ e, check p d = .error e (d.ticked p)) ∨ check p d = .ok () (d.ticked p) := by
  unfold check
  rw [bind_apply, fired_apply]
  simp only
  cases (Fault.consult p d.faults).1.bind Error.ofCode? with
  | none => exact Or.inr rfl
  | some e => exact Or.inl ⟨e, rfl⟩

/-- A primitive that no fault is set on does not fail by a fault. -/
theorem check_of_waiting (h : d.waiting p = 0) : check p d = .ok () (d.ticked p) := by
  have hs := waiting_ticked_self p d
  have hn : (Fault.consult p d.faults).1 = none := by
    cases hc : (Fault.consult p d.faults).1 with
    | none => rfl
    | some code =>
      rw [hc, h] at hs
      simp at hs
  unfold check
  rw [bind_apply, fired_apply, hn]
  rfl

theorem ticked_of_faultless (h : d.faults = []) (p : Primitive) : d.ticked p = d := by
  cases d
  subst h
  rfl

theorem check_of_faultless (h : d.faults = []) (p : Primitive) : check p d = .ok () d := by
  have hw : d.waiting p = 0 := by
    rw [waiting, h]
    rfl
  rw [check_of_waiting hw, ticked_of_faultless h]

end Faults

section Calls

theorem onVolume_ok {x : VolumeAction α} {a : α} {v : Volume} (h : x d.volume = .ok a v) :
    onVolume x d = .ok a { d with volume := v } := by
  unfold onVolume zoom
  rw [h]

theorem onVolume_error {x : VolumeAction α} {e : Error} {v : Volume}
    (h : x d.volume = .error e v) : onVolume x d = .error e { d with volume := v } := by
  unfold onVolume zoom
  rw [h]
  rfl

theorem after_onVolume (x : VolumeAction α) (d : Drive) :
    (onVolume x).after d = { d with volume := x.after d.volume } := after_zoom _ _ _ x d

theorem change_cases (p : Primitive) (x : VolumeAction α) (d : Drive) :
    (∃ e, change p x d = .error e (d.ticked p)) ∨ change p x d = onVolume x (d.ticked p) := by
  unfold change
  rw [bind_apply]
  rcases check_cases p d with ⟨e, h⟩ | h
  · exact Or.inl ⟨e, by rw [h]⟩
  · exact Or.inr (by rw [h])

/-- A call fails by a fault, or ends as it ends on the volume. -/
theorem change_results (p : Primitive) (x : VolumeAction α) (d : Drive) :
    (∃ e, change p x d = .error e (d.ticked p)) ∨
    (∃ e v, x d.volume = .error e v ∧ change p x d = .error e { d.ticked p with volume := v }) ∨
    ∃ a v, x d.volume = .ok a v ∧ change p x d = .ok a { d.ticked p with volume := v } := by
  rcases change_cases p x d with hx | hx
  · exact Or.inl hx
  · rw [hx]
    cases hy : x d.volume with
    | error e v => exact Or.inr (Or.inl ⟨e, v, rfl, onVolume_error (d := d.ticked p) hy⟩)
    | ok a v => exact Or.inr (Or.inr ⟨a, v, rfl, onVolume_ok (d := d.ticked p) hy⟩)

theorem ask_cases (p : Primitive) (f : Volume → Except Error α) (d : Drive) :
    (∃ e, ask p f d = .error e (d.ticked p)) ∨
    ∃ a, f d.volume = .ok a ∧ ask p f d = .ok a (d.ticked p) := by
  unfold ask
  rw [bind_apply]
  rcases check_cases p d with ⟨e, h⟩ | h
  · exact Or.inl ⟨e, by rw [h]⟩
  · rw [h]
    cases hf : f d.volume with
    | error e => exact Or.inl ⟨e, onVolume_error (query_error hf)⟩
    | ok a => exact Or.inr ⟨a, rfl, onVolume_ok (query_ok hf)⟩

theorem ask_of_faultless (p : Primitive) {f : Volume → Except Error α} {a : α}
    (h : d.faults = []) (hf : f d.volume = .ok a) : ask p f d = .ok a d := by
  unfold ask
  rw [bind_apply, check_of_faultless h]
  exact onVolume_ok (query_ok hf)

theorem change_of_faultless (hf : d.faults = []) (p : Primitive) (x : VolumeAction α) :
    change p x d = onVolume x d := by
  unfold change
  rw [bind_apply, check_of_faultless hf]

theorem release_of_faultless (hf : d.faults = []) (p : Primitive) {x : VolumeAction Unit} {v : Volume}
    (hx : x d.volume = .ok () v) : release p x d = .ok () { d with volume := v } := by
  have hfired : fired p d = .ok none d := by
    rw [fired_apply, ticked_of_faultless hf, hf]
    rfl
  have houtcome : Action.outcome (δ := Error) (onVolume x) d = .ok (.ok ()) { d with volume := v } := by
    unfold Action.outcome
    rw [onVolume_ok hx]
  unfold release
  rw [bind_apply, hfired]
  dsimp only
  rw [bind_apply, houtcome]
  rfl

theorem after_release (p : Primitive) (x : VolumeAction Unit) (d : Drive) :
    (release p x).after d = { d.ticked p with volume := x.after d.volume } := by
  unfold release
  rw [after_bind_ok (fired_apply p d)]
  obtain ⟨r, ho⟩ := exists_outcome (onVolume x) (d.ticked p)
  rw [after_onVolume, volume_ticked] at ho
  rw [after_bind_ok ho]
  cases (Fault.consult p d.faults).1.bind Error.ofCode? with
  | some e => rfl
  | none => exact after_query _ _

theorem after_closeFile (h : Nat) (d : Drive) :
    (closeFile h).after d =
      { d.ticked .closeFile with volume := { d.volume with files := d.volume.files.erase h } } := by
  unfold closeFile
  rw [after_release, Volume.after_closeFile]

/-- An open that fails, at whatever step, leaves no handle behind. -/
theorem files_of_openFile_error {path : Text} {mode : OpenMode} {e : Error} {u : Drive}
    (h : openFile path mode d = .error e u) : u.volume.files = d.volume.files := by
  unfold openFile at h
  rcases change_cases .openFile (Volume.openFile path mode) d with ⟨e', hx⟩ | hx
  · rw [hx] at h
    cases h
    rfl
  · rw [hx] at h
    rcases Volume.openFile_cases path mode (d.ticked .openFile).volume with
      ⟨e', hy⟩ | ⟨p, w, _, hw, ⟨e', _, _, hy⟩ | ⟨position, _, hy⟩⟩
    · rw [onVolume_error hy] at h
      cases h
      rfl
    · rw [onVolume_error hy] at h
      cases h
      exact (Volume.handles_prepare hw).1
    · rw [onVolume_ok hy] at h
      cases h

end Calls

section Reading

/-- How many of the coming reads are bound to give nothing. -/
def blanks (d : Drive) : Nat := d.waiting .shortRead + d.portions.count 0

theorem blanks_ticked (h : p ≠ .shortRead) (d : Drive) : (d.ticked p).blanks = d.blanks := by
  unfold blanks
  rw [waiting_ticked_of_ne h, portions_ticked]

/-- The drive right before a read that no fault stops gets to the volume. -/
def dealt (d : Drive) : Drive :=
  { (d.ticked .read).ticked .shortRead with portions := d.portions.tail }

/-- A read fails by a fault, or comes back empty and that was bound to happen, or gives what the
volume gives for a part of what was asked. -/
theorem read_cases (h count : Nat) (d : Drive) :
    (∃ e, read h count d = .error e (d.ticked .read)) ∨
    (read h count d = .ok [] ((d.ticked .read).ticked .shortRead) ∧
      ((d.ticked .read).ticked .shortRead).blanks < d.blanks) ∨
    ∃ part, part ≤ count ∧ (count ≠ 0 → part = 0 → d.dealt.blanks < d.blanks) ∧
      d.dealt.blanks ≤ d.blanks ∧ read h count d = onVolume (Volume.read h part) d.dealt := by
  have hwait := waiting_ticked_self .shortRead (d.ticked .read)
  have hread := waiting_ticked_of_ne (p := .read) (q := .shortRead) (by decide) d
  unfold read
  rw [bind_apply]
  rcases check_cases .read d with ⟨e, hc⟩ | hc
  · exact Or.inl ⟨e, by rw [hc]⟩
  · rw [hc]
    simp only
    rw [bind_apply, fired_apply]
    simp only
    split
    · rename_i hs
      rw [if_pos hs] at hwait
      refine Or.inr (Or.inl ⟨rfl, ?_⟩)
      unfold blanks
      rw [portions_ticked, portions_ticked]
      omega
    · rename_i hs
      rw [if_neg hs] at hwait
      have hd : d.dealt.blanks = d.waiting .shortRead + d.portions.tail.count 0 := by
        rw [← hread, ← hwait]
        rfl
      refine Or.inr (Or.inr ⟨min count (d.portions.headD count), Nat.min_le_left _ _, ?_, ?_, rfl⟩)
      · intro hcount hpart
        rw [hd, blanks]
        cases hp : d.portions with
        | nil =>
          rw [hp, List.headD_nil, Nat.min_self] at hpart
          exact absurd hpart hcount
        | cons n l =>
          rw [hp, List.headD_cons] at hpart
          have hn : n = 0 := by omega
          rw [hn, List.tail_cons, List.count_cons_self]
          omega
      · rw [hd, blanks]
        exact Nat.add_le_add_left (d.portions.tail_sublist.count_le 0) _

end Reading

end CardShell.Drive
