import CardShell.Proofs.Volume.Enumerated

/-!
How long a handle is its own. Files and enumerations have tables of their own and share one count of
handles, which nothing takes back. A handle leads where it was opened until it is closed or the volume is
mounted, and then nowhere, unless its number is given out again; and that the count does when it has run
through all the numbers, with no look at the tables.
-/

set_option autoImplicit false

namespace CardShell.Volume

open CardShell.Action

variable {u v w : Volume} {i h : Nat}

section OneHandle

/-- The handle is open and leads there. Of the entries that an enumeration had to give, the first may
have been given. -/
def Leads (v : Volume) (h : Nat) : Target → Prop
  | .file key mode => v.target? .file h = some (.file key mode)
  | .listing es => ∃ rest, v.target? .listing h = some (.listing rest) ∧ rest <:+ es

/-- Whatever is done with the handle fails, and leaves the volume as it is. -/
def Refused (v : Volume) : Kind → Nat → Prop
  | .file, h =>
    (∀ count, read h count v = .error .invalidObject v) ∧
    (∀ bytes, write h bytes v = .error .invalidObject v) ∧
    (∀ offset, seek h offset v = .error .invalidObject v) ∧
    v.tell h = .error .invalidObject ∧ v.fileSize h = .error .invalidObject ∧
    v.atEnd h = .error .invalidObject ∧ closeFile h v = .error .invalidObject v
  | .listing, h =>
    readListing h v = .error .invalidObject v ∧ closeListing h v = .error .invalidObject v

theorem refused_of_target {k : Kind} (hk : v.target? k h = none) : v.Refused k h := by
  cases k with
  | file =>
    have hget : v.files.get? h = none := Option.map_eq_none_iff.mp hk
    have hopen : v.openFile? h = .error .invalidObject := by rw [openFile?, hget]
    refine ⟨fun count => read_refused count hopen, fun bytes => write_refused bytes hopen,
      fun offset => seek_refused offset hopen, ?_, ?_, ?_, ?_⟩
    · rw [tell, hopen]
      rfl
    · rw [fileSize, hopen]
      rfl
    · rw [atEnd, hopen]
      rfl
    · rcases closeFile_cases h v with hx | ⟨hhas, _⟩
      · exact hx
      · rw [Table.has, hget] at hhas
        cases hhas
  | listing =>
    have hget : v.listings.get? h = none := Option.map_eq_none_iff.mp hk
    constructor
    · rcases readListing_cases h v with hx | ⟨hsome, _⟩ | ⟨_, _, hsome, _⟩
      · exact hx
      · rw [hget] at hsome
        cases hsome
      · rw [hget] at hsome
        cases hsome
    · rcases closeListing_cases h v with hx | ⟨hhas, _⟩
      · exact hx
      · rw [Table.has, hget] at hhas
        cases hhas

end OneHandle

section Opening

inductive Opening
  | file (typed : Text) (mode : OpenMode)
  | listing (typed : Text)

namespace Opening

def kind : Opening → Kind
  | file .. => .file
  | listing _ => .listing

def operation : Opening → Operation
  | file typed mode => .openFile typed mode
  | listing typed => .openListing typed

def perform : Opening → VolumeAction Nat
  | file typed mode => openFile typed mode
  | listing typed => openListing typed

/-- What it was asked to open. -/
def Names (v : Volume) : Opening → Target → Prop
  | file typed mode, t => ∃ p, v.resolve typed = .ok p ∧ t = .file p.key mode
  | listing typed, t => ∃ key n, v.find typed = .ok (key, n) ∧ t = .listing (v.children key)

theorem run_operation (a : Opening) (v : Volume) : a.operation.run v = a.perform.after v := by
  cases a <;> rfl

end Opening

/-- Closes the handle, or forgets all handles at once. -/
def Operation.ends (k : Kind) (h : Nat) : Operation → Bool
  | mount => true
  | closeFile j => k = .file && j = h
  | closeListing j => k = .listing && j = h
  | _ => false

theorem target?_of_ends {op : Operation} {k : Kind} (hop : op.ends k h = true) :
    (op.run v).target? k h = none := by
  cases op with
  | mount => cases k <;> rfl
  | closeFile j =>
    simp only [Operation.ends, Bool.and_eq_true, decide_eq_true_eq] at hop
    obtain ⟨rfl, rfl⟩ := hop
    dsimp only [Operation.run]
    rw [after_closeFile]
    simp [target?]
  | closeListing j =>
    simp only [Operation.ends, Bool.and_eq_true, decide_eq_true_eq] at hop
    obtain ⟨rfl, rfl⟩ := hop
    dsimp only [Operation.run]
    rw [after_closeListing]
    simp [target?]
  | _ => cases hop

/-- What is opened has the number of the count, and leads to what was asked for. -/
theorem Opening.perform_ok {a : Opening} (hx : a.perform v = .ok h w) :
    h = handleOf v.issued ∧ w.issued = v.issued + 1 ∧ ∃ t, a.Names v t ∧ w.Leads h t := by
  cases a with
  | file typed mode =>
    dsimp only [Opening.perform] at hx
    rcases openFile_cases typed mode v with ⟨_, he⟩ | ⟨p, t, hp, ht, he⟩
    · rw [he] at hx
      cases hx
    · obtain ⟨_, _, hissued⟩ := handles_prepare ht
      rcases he with ⟨_, _, _, he⟩ | ⟨position, _, he⟩
      · rw [he] at hx
        cases hx
      · rw [he] at hx
        cases hx
        refine ⟨?_, congrArg Nat.succ hissued, _, ⟨p, hp, rfl⟩, ?_⟩
        · rw [← hissued]
          rfl
        · simp [Leads, target?, withHandle]
  | listing typed =>
    dsimp only [Opening.perform] at hx
    rcases openListing_cases typed v with ⟨_, he⟩ | ⟨key, n, hf, _, he⟩
    · rw [he] at hx
      cases hx
    · rw [he] at hx
      cases hx
      exact ⟨rfl, rfl, _, ⟨key, n, hf, rfl⟩, _, by simp [target?], List.suffix_rfl⟩

end Opening

section Fate

/-- What one operation does to a handle. Writing a file as a whole opens it for the while. -/
inductive Fate (v : Volume) (op : Operation) (k : Kind) (h : Nat) : Prop
  | kept (same : (op.run v).target? k h = v.target? k h)
  | advanced (e : Entry) (rest : List Entry) (listing : k = .listing)
      (before : v.target? k h = some (.listing (e :: rest)))
      (later : (op.run v).target? k h = some (.listing rest))
  | ended (ends : op.ends k h = true)
  | opened (a : Opening) (opening : op = a.operation) (kind : a.kind = k)
      (given : a.perform v = .ok h (op.run v))
  | lent (number : h = handleOf v.issued) (issued : (op.run v).issued = v.issued + 1)
      (none : (op.run v).target? k h = none)

theorem Settled.fate {op : Operation} (hs : Settled v (op.run v)) (k : Kind) (h : Nat) : Fate v op k h :=
  .kept (hs.targets k h)

/-- Closing a file leaves all other handles where they lead. -/
theorem target?_closeFile {k : Kind} (v : Volume) {j : Nat} (hk : k = .file → h ≠ j) :
    ((closeFile j).after v).target? k h = v.target? k h := by
  rw [after_closeFile]
  cases k with
  | file => rw [target?, Table.get?_erase_of_ne (hk rfl), target?]
  | listing => rfl

theorem target?_withHandle {k : Kind} (v : Volume) (f : OpenFile) (hk : k = .file → h ≠ v.nextHandle) :
    (v.withHandle f).target? k h = v.target? k h := by
  cases k with
  | file =>
    have hget : (v.withHandle f).files.get? h = v.files.get? h := Table.get?_set_of_ne (hk rfl) _ _
    rw [target?, hget, target?]
  | listing => rfl

/-- A file written as a whole is open for the while, under the next number. -/
theorem fate_writeFile (typed : Text) (data : List UInt8) (v : Volume) (k : Kind) (h : Nat) :
    Fate v (.writeFile typed data) k h := by
  have hrun : (Operation.writeFile typed data).run v = (writeFile typed data).after v := rfl
  cases hp : v.resolve typed with
  | error e =>
    have hq : (query (resolve · typed) : VolumeAction Path) v = .error e v := query_error hp
    refine .kept ?_
    rw [hrun, writeFile, after_bind_error hq]
  | ok p =>
    have hq : (query (resolve · typed) : VolumeAction Path) v = .ok p v := query_ok hp
    have hdirs := settles_makeDirectories p.parent.text v
    rw [writeFile, after_bind_ok hq] at hrun
    cases hm : makeDirectories p.parent.text v with
    | error e u =>
      rw [after_error hm] at hdirs
      rw [after_bind_error hm] at hrun
      exact .kept (hrun ▸ hdirs.targets k h)
    | ok _ u =>
      rw [after_ok hm] at hdirs
      rw [after_bind_ok hm] at hrun
      rcases openFile_settled p.text (.write ∪ .createAlways) u with
        ⟨e, w, hx, hw⟩ | ⟨f, w, hx, hw⟩
      · rw [after_bind_error hx] at hrun
        exact .kept (hrun ▸ (hdirs.trans hw).targets k h)
      · rw [after_bind_ok hx, after_closing] at hrun
        have hw := hdirs.trans hw
        -- the write does nothing to the handles, and so the end is told by what is closed
        have hwriting : Keeps (Settled (w.withHandle f)) (do
            if (← write w.nextHandle data) < data.length then throw .denied) :=
          keeps_bind ((settles_write _ data).keeps Settled.trans) fun _ =>
            keeps_ite (keeps_throw _) (keeps_pure _)
        have hbody := hwriting _ (.refl _)
        generalize Action.after _ (w.withHandle f) = s at hrun hbody
        by_cases hk : k = .file ∧ h = w.nextHandle
        · obtain ⟨rfl, rfl⟩ := hk
          refine .lent hw.nextHandle ?_ ?_
          · rw [hrun, after_closeFile]
            exact hbody.issued.trans (congrArg Nat.succ hw.issued)
          · rw [hrun, after_closeFile]
            simp [target?]
        · have hne : k = .file → h ≠ w.nextHandle := fun hf he => hk ⟨hf, he⟩
          refine .kept ?_
          rw [hrun, target?_closeFile s hne, hbody.targets, target?_withHandle w f hne, hw.targets]

theorem fate_openFile (typed : Text) (mode : OpenMode) (v : Volume) (k : Kind) (h : Nat) :
    Fate v (.openFile typed mode) k h := by
  have hrun : (Operation.openFile typed mode).run v = (openFile typed mode).after v := rfl
  rcases openFile_settled typed mode v with ⟨e, w, hx, hw⟩ | ⟨f, w, hx, hw⟩
  · rw [after_error hx] at hrun
    exact .kept (hrun ▸ hw.targets k h)
  · rw [after_ok hx] at hrun
    by_cases hk : k = .file ∧ h = w.nextHandle
    · obtain ⟨rfl, rfl⟩ := hk
      exact .opened (.file typed mode) rfl rfl (hrun ▸ hx)
    · have hne : k = .file → h ≠ w.nextHandle := fun hf he => hk ⟨hf, he⟩
      refine .kept ?_
      rw [hrun, target?_withHandle w f hne, hw.targets]

theorem fate_openListing (typed : Text) (v : Volume) (k : Kind) (h : Nat) :
    Fate v (.openListing typed) k h := by
  have hrun : (Operation.openListing typed).run v = (openListing typed).after v := rfl
  rcases openListing_cases typed v with ⟨e, hx⟩ | ⟨key, n, _, _, hx⟩
  · rw [after_error hx] at hrun
    exact .kept (by rw [hrun])
  · rw [after_ok hx] at hrun
    cases k with
    | file => exact .kept (by rw [hrun]; rfl)
    | listing =>
      by_cases hh : h = v.nextHandle
      · subst hh
        exact .opened (.listing typed) rfl rfl (hrun ▸ hx)
      · refine .kept ?_
        rw [hrun, target?, Table.get?_set_of_ne hh, target?]

theorem fate_readListing (j : Nat) (v : Volume) (k : Kind) (h : Nat) :
    Fate v (.readListing j) k h := by
  have hrun : (Operation.readListing j).run v = (readListing j).after v := rfl
  rcases readListing_cases j v with hx | ⟨_, hx⟩ | ⟨e, es, hj, hx⟩
  · rw [after_error hx] at hrun
    exact .kept (by rw [hrun])
  · rw [after_ok hx] at hrun
    exact .kept (by rw [hrun])
  · rw [after_ok hx] at hrun
    cases k with
    | file => exact .kept (by rw [hrun]; rfl)
    | listing =>
      by_cases hh : h = j
      · subst hh
        refine .advanced e es rfl (by rw [target?, hj]; rfl) ?_
        rw [hrun, target?, Table.get?_set_self]
        rfl
      · refine .kept ?_
        rw [hrun, target?, Table.get?_set_of_ne hh, target?]

theorem fate_closeFile (j : Nat) (v : Volume) (k : Kind) (h : Nat) : Fate v (.closeFile j) k h := by
  by_cases hk : k = .file ∧ h = j
  · obtain ⟨rfl, rfl⟩ := hk
    exact .ended (by simp [Operation.ends])
  · exact .kept (target?_closeFile v fun hf he => hk ⟨hf, he⟩)

theorem fate_closeListing (j : Nat) (v : Volume) (k : Kind) (h : Nat) :
    Fate v (.closeListing j) k h := by
  have hrun : (Operation.closeListing j).run v = { v with listings := v.listings.erase j } :=
    after_closeListing j v
  cases k with
  | file => exact .kept (by rw [hrun]; rfl)
  | listing =>
    by_cases hh : h = j
    · subst hh
      exact .ended (by simp [Operation.ends])
    · refine .kept ?_
      rw [hrun, target?, Table.get?_erase_of_ne hh, target?]

theorem fate_run (op : Operation) (v : Volume) (k : Kind) (h : Nat) : Fate v op k h := by
  cases op with
  | relabel label => exact Settled.fate (.of_tables rfl rfl rfl) k h
  | restamp stamp => exact Settled.fate (.of_tables rfl rfl rfl) k h
  | mount => exact .ended rfl
  | changeDirectory typed => exact Settled.fate (settles_changeDirectory typed v) k h
  | makeDirectory typed => exact Settled.fate (settles_makeDirectory typed v) k h
  | makeDirectories typed => exact Settled.fate (settles_makeDirectories typed v) k h
  | unlink typed => exact Settled.fate (settles_unlink typed v) k h
  | rename source target => exact Settled.fate (settles_rename source target v) k h
  | setAttributes typed bits => exact Settled.fate (settles_setAttributes typed bits v) k h
  | writeFile typed data => exact fate_writeFile typed data v k h
  | openFile typed mode => exact fate_openFile typed mode v k h
  | closeFile j => exact fate_closeFile j v k h
  | read j count => exact Settled.fate (settles_read j count v) k h
  | write j bytes => exact Settled.fate (settles_write j bytes v) k h
  | seek j offset => exact Settled.fate (settles_seek j offset v) k h
  | openListing typed => exact fate_openListing typed v k h
  | readListing j => exact fate_readListing j v k h
  | closeListing j => exact fate_closeListing j v k h

end Fate

section Runs

/-- On the way from `v` to `w` the number was not given out. -/
def Unissued (v w : Volume) (h : Nat) : Prop := ∀ i, v.issued ≤ i → i < w.issued → handleOf i ≠ h

theorem Unissued.not_opened {op : Operation} (hu : Unissued v (op.run v) h) {a : Opening}
    (hx : a.perform v = .ok h (op.run v)) : False := by
  obtain ⟨hnumber, hissued, _⟩ := Opening.perform_ok hx
  exact hu v.issued (Nat.le_refl _) (hissued ▸ Nat.lt_succ_self _) hnumber.symm

theorem Unissued.cons {op : Operation} {ops : List Operation} (hu : Unissued v (v.runAll (op :: ops)) h) :
    Unissued v (op.run v) h ∧ Unissued (op.run v) ((op.run v).runAll ops) h :=
  ⟨fun i hi hlt => hu i hi (Nat.lt_of_lt_of_le hlt (issued_le_runAll _ ops)),
    fun i hi => hu i (Nat.le_trans (issued_le_run op v) hi)⟩

theorem Leads.run {t : Target} {op : Operation} (ht : v.Leads h t) (hop : op.ends t.kind h = false)
    (hu : Unissued v (op.run v) h) : (op.run v).Leads h t := by
  cases t with
  | file key mode =>
    cases fate_run op v .file h with
    | kept same => exact same.trans ht
    | advanced _ _ hk => cases hk
    | ended ends => exact absurd (hop.symm.trans ends) Bool.false_ne_true
    | opened _ _ _ given => exact (hu.not_opened given).elim
    | lent number issued => exact absurd number.symm (hu _ (Nat.le_refl _) (issued ▸ Nat.lt_succ_self _))
  | listing es =>
    obtain ⟨rest, hrest, hsuffix⟩ := ht
    cases fate_run op v .listing h with
    | kept same => exact ⟨rest, same.trans hrest, hsuffix⟩
    | advanced e later _ before after =>
      rw [hrest] at before
      cases before
      exact ⟨later, after, (List.suffix_cons e later).trans hsuffix⟩
    | ended ends => exact absurd (hop.symm.trans ends) Bool.false_ne_true
    | opened _ _ _ given => exact (hu.not_opened given).elim
    | lent number issued => exact absurd number.symm (hu _ (Nat.le_refl _) (issued ▸ Nat.lt_succ_self _))

/-- A handle that was left alone leads where it led, as long as its number does not come again. -/
theorem Leads.runAll {t : Target} {ops : List Operation} (ht : v.Leads h t)
    (hops : ∀ op ∈ ops, op.ends t.kind h = false) (hu : Unissued v (v.runAll ops) h) :
    (v.runAll ops).Leads h t := by
  induction ops generalizing v with
  | nil => exact ht
  | cons op ops ih =>
    obtain ⟨hfirst, hrest⟩ := hu.cons
    exact ih (ht.run (hops op List.mem_cons_self) hfirst)
      (fun op' hop' => hops op' (List.mem_cons_of_mem op hop')) hrest

theorem target?_run_none {k : Kind} {op : Operation} (hk : v.target? k h = none)
    (hu : Unissued v (op.run v) h) : (op.run v).target? k h = none := by
  cases fate_run op v k h with
  | kept same => exact same.trans hk
  | advanced _ _ _ before =>
    rw [hk] at before
    cases before
  | ended ends => exact target?_of_ends ends
  | opened _ _ _ given => exact (hu.not_opened given).elim
  | lent _ _ none => exact none

/-- A handle that is not open stays so, as long as its number does not come again. -/
theorem target?_runAll_none {k : Kind} {ops : List Operation} (hk : v.target? k h = none)
    (hu : Unissued v (v.runAll ops) h) : (v.runAll ops).target? k h = none := by
  induction ops generalizing v with
  | nil => exact hk
  | cons op ops ih =>
    obtain ⟨hfirst, hrest⟩ := hu.cons
    exact ih (target?_run_none hk hfirst) hrest

/-- Once ended, a handle is gone, as long as its number does not come again. -/
theorem target?_none_of_ended {k : Kind} {ops : List Operation}
    (hended : ∃ op ∈ ops, op.ends k h = true) (hu : Unissued v (v.runAll ops) h) :
    (v.runAll ops).target? k h = none := by
  induction ops generalizing v with
  | nil =>
    obtain ⟨_, hop, _⟩ := hended
    cases hop
  | cons op ops ih =>
    obtain ⟨hfirst, hrest⟩ := hu.cons
    cases hop : op.ends k h with
    | true =>
      have hgone : (op.run v).target? k h = none := target?_of_ends hop
      have hstays := target?_runAll_none hgone hrest
      exact hstays
    | false =>
      obtain ⟨op', hmem, hends⟩ := hended
      rcases List.mem_cons.mp hmem with rfl | hmem
      · rw [hop] at hends
        cases hends
      · exact ih ⟨op', hmem, hends⟩ hrest

/-- At `u` the run has opened the handle, and nothing has ended it since. -/
def Opened (v : Volume) (ops : List Operation) (k : Kind) (h : Nat) (u : Volume) : Prop :=
  ∃ front a back w, ops = front ++ Opening.operation a :: back ∧ a.kind = k ∧
    u = v.runAll front ∧ a.perform u = .ok h w ∧ ∀ op ∈ back, op.ends k h = false

theorem runAll_concat (v : Volume) (ops : List Operation) (op : Operation) :
    v.runAll (ops ++ [op]) = op.run (v.runAll ops) := by
  unfold runAll
  rw [List.foldl_concat]

/-- What is open at the end of a run was open before it, or the run opened it. -/
theorem opened_of_target {k : Kind} {ops : List Operation} (hk : (v.runAll ops).target? k h ≠ none)
    (hfresh : v.target? k h = none) : ∃ u, Opened v ops k h u := by
  induction ops using List.reverseRecOn with
  | nil => exact absurd hfresh hk
  | append_singleton ops op ih =>
    rw [runAll_concat] at hk
    have hop : op.ends k h = false := by
      cases hends : op.ends k h with
      | false => rfl
      | true => exact absurd (target?_of_ends hends) hk
    have hlast : (v.runAll ops).target? k h ≠ none → ∃ u, Opened v (ops ++ [op]) k h u := by
      intro hbefore
      obtain ⟨u, front, a, back, w, rfl, ha, hu, hx, hback⟩ := ih hbefore
      refine ⟨u, front, a, back ++ [op], w, by simp, ha, hu, hx, fun op' hop' => ?_⟩
      rcases List.mem_append.mp hop' with hop' | hop'
      · exact hback op' hop'
      · rw [List.mem_singleton.mp hop']
        exact hop
    cases fate_run op (v.runAll ops) k h with
    | kept same => exact hlast (same ▸ hk)
    | advanced _ _ _ before => exact hlast (before ▸ Option.some_ne_none _)
    | ended ends => exact absurd (hop.symm.trans ends) Bool.false_ne_true
    | opened a opening kind given =>
      exact ⟨_, ops, a, [], _, by rw [opening], kind, rfl, given, fun _ hnil => by cases hnil⟩
    | lent _ _ none => exact absurd none hk

/-- Two handles of one number are a round of the count apart, or several. -/
theorem rounds_of_handleOf {j : Nat} (hij : i < j) (he : handleOf i = handleOf j) :
    ∃ m, 0 < m ∧ j = i + m * handleLimit := by
  have hmod : i % handleLimit = j % handleLimit := Nat.succ.inj he
  refine ⟨j / handleLimit - i / handleLimit, ?_, ?_⟩
  · unfold handleLimit at *
    omega
  · unfold handleLimit at *
    omega

theorem runAll_cons (v : Volume) (op : Operation) (ops : List Operation) :
    v.runAll (op :: ops) = (op.run v).runAll ops := rfl

theorem runAll_append (v : Volume) (front back : List Operation) :
    v.runAll (front ++ back) = (v.runAll front).runAll back := List.foldl_append

/-- A handle is opened before the count goes on from it. -/
theorem Opened.issued {k : Kind} {ops : List Operation} (ho : Opened v ops k h u) :
    h = handleOf u.issued ∧ u.issued < (v.runAll ops).issued := by
  obtain ⟨front, a, back, w, rfl, _, rfl, hx, _⟩ := ho
  obtain ⟨hnumber, hissued, _⟩ := Opening.perform_ok hx
  have hw : a.operation.run (v.runAll front) = w := (a.run_operation _).trans (after_ok hx)
  have hwhole : v.runAll (front ++ a.operation :: back) = w.runAll back := by
    rw [runAll_append, ← hw]
    rfl
  have hlater := issued_le_runAll w back
  rw [hwhole]
  exact ⟨hnumber, by omega⟩

/-- After any run on a fresh volume, what is opened gets the number of the count. If that number is open
already, the run opened it a round of all the numbers before, or several rounds, and has not ended it
since. As long as the number of a handle is not given out again, the handle leads where it was opened if
it was left alone, and is refused if it was closed or the volume mounted. -/
theorem handles_of_operations (label : Text) (ops : List Operation)
    (hv : v = (labelled label).runAll ops) :
    (∀ (a : Opening) (h : Nat) (w : Volume), a.perform v = .ok h w →
      h = handleOf v.issued ∧ w.issued = v.issued + 1 ∧ (∃ t, a.Names v t ∧ w.Leads h t) ∧
      (v.target? a.kind h ≠ none → ∃ u, Opened (labelled label) ops a.kind h u ∧
        ∃ m, 0 < m ∧ v.issued = u.issued + m * handleLimit)) ∧
    ∀ front back u, ops = front ++ back → u = (labelled label).runAll front →
      ∀ h, Unissued u v h →
        (∀ t, u.Leads h t → (∀ op ∈ back, op.ends t.kind h = false) → v.Leads h t) ∧
        ∀ k, (∃ op ∈ back, op.ends k h = true) → v.Refused k h := by
  refine ⟨fun a h w hx => ?_, fun front back u hops hu h hunissued => ?_⟩
  · obtain ⟨hnumber, hissued, hleads⟩ := Opening.perform_ok hx
    refine ⟨hnumber, hissued, hleads, fun hopen => ?_⟩
    have hfresh : (labelled label).target? a.kind h = none := by cases a.kind <;> rfl
    obtain ⟨u, ho⟩ := opened_of_target (hv ▸ hopen) hfresh
    obtain ⟨hsame, hlt⟩ := ho.issued
    exact ⟨u, ho, rounds_of_handleOf (hv ▸ hlt) (hsame.symm.trans hnumber)⟩
  · have hback : v = u.runAll back := by rw [hv, hops, runAll_append, hu]
    subst hback
    exact ⟨fun t ht hleft => ht.runAll hleft hunissued,
      fun k hended => refused_of_target (target?_none_of_ended hended hunissued)⟩

/-- A closed file is refused while the count goes on. -/
theorem handles_of_closed_file :
    let v := (labelled []).runAll [.openFile "/a" .openAlways, .closeFile 1, .openListing "/"]
    (∃ w, openFile "/a" .read v = .ok 3 w ∧ w.issued = 3) ∧ v.Refused .file 1 := by
  intro v
  obtain ⟨hopening, hlater⟩ := handles_of_operations []
    [.openFile "/a" .openAlways, .closeFile 1, .openListing "/"] (v := v) rfl
  have hissued : v.issued = 2 := by decide +kernel
  have hopen : ∃ w, openFile "/a" .read v = .ok 3 w := ⟨_, rfl⟩
  obtain ⟨w, hw⟩ := hopen
  obtain ⟨_, hw', _⟩ := hopening (.file "/a" .read) 3 w hw
  refine ⟨⟨w, hw, by rw [hw', hissued]⟩, ?_⟩
  refine (hlater [.openFile "/a" .openAlways] [.closeFile 1, .openListing "/"] _ rfl rfl 1 ?_).2 .file
    ⟨.closeFile 1, by decide +kernel, rfl⟩
  intro i hi hlt
  have hfirst : 1 ≤ i := hi
  have hsecond : i = 1 := by omega
  subst hsecond
  decide

end Runs

section Round

theorem run_openListing_root (hv : v.root.isDirectory = true) (hd : v.directory = []) :
    ∃ listings, (Operation.openListing "/").run v =
      { v with issued := v.issued + 1, listings := listings } := by
  have hfind : v.find "/" = .ok ([], v.root) := by
    unfold find resolve
    rw [hd]
    rfl
  have hx : openListing "/" v = .ok v.nextHandle { v with
      issued := v.issued + 1, listings := v.listings.set v.nextHandle (v.children []) } := by
    unfold openListing
    rw [bind_apply, get_apply]
    simp only [hfind, hv, Bool.not_true]
    rfl
  exact ⟨_, after_ok hx⟩

/-- The count goes on with each enumeration of the root. -/
theorem runAll_openListing_root (hv : v.root.isDirectory = true) (hd : v.directory = []) (n : Nat) :
    ∃ listings, v.runAll (List.replicate n (.openListing "/")) =
      { v with issued := v.issued + n, listings := listings } := by
  induction n generalizing v with
  | zero => exact ⟨v.listings, rfl⟩
  | succ n ih =>
    obtain ⟨first, hfirst⟩ := run_openListing_root hv hd
    obtain ⟨rest, hrest⟩ := ih (v := { v with issued := v.issued + 1, listings := first }) hv hd
    refine ⟨rest, ?_⟩
    rw [List.replicate_succ, runAll, List.foldl_cons, hfirst]
    refine hrest.trans ?_
    rw [Nat.add_assoc, Nat.add_comm 1 n]

/-- Nothing is closed, and the second file to be opened gets the number of the first, which then leads
to the second. -/
theorem handle_given_out_twice :
    let ops : List Operation :=
      .openFile "/a" .openAlways :: List.replicate (handleLimit - 1) (.openListing "/")
    (∀ op ∈ ops, ∀ k h, op.ends k h = false) ∧
    ∃ v w, v = (labelled []).runAll ops ∧
      v.target? .file 1 = some (.file [['a']] .openAlways) ∧
      openFile "/b" .openAlways v = .ok 1 w ∧ w.target? .file 1 = some (.file [['b']] .openAlways) := by
  intro ops
  constructor
  · intro op hop k h
    rcases List.mem_cons.mp hop with rfl | hop
    · rfl
    · rw [List.eq_of_mem_replicate hop]
      rfl
  · obtain ⟨listings, hround⟩ := runAll_openListing_root
      (v := (Operation.openFile "/a" .openAlways).run (labelled [])) rfl rfl (handleLimit - 1)
    have hissued : ((Operation.openFile "/a" .openAlways).run (labelled [])).issued = 1 := rfl
    rw [hissued] at hround
    have hend : (labelled []).runAll ops = _ := (runAll_cons _ _ _).trans hround
    have hopen : ∃ h w, openFile "/b" .openAlways ((labelled []).runAll ops) = .ok h w := by
      rw [hend]
      exact ⟨_, _, rfl⟩
    obtain ⟨h, w, hx⟩ := hopen
    obtain ⟨hnumber, _, t, ⟨p, hp, rfl⟩, hleads⟩ :=
      Opening.perform_ok (a := .file "/b" .openAlways) hx
    rw [hend] at hnumber hp
    have hround : handleOf (1 + (handleLimit - 1)) = 1 := by decide
    have hfirst : h = 1 := hnumber.trans hround
    cases hp
    subst hfirst
    refine ⟨_, w, rfl, ?_, hx, hleads⟩
    rw [hend]
    rfl

end Round

end CardShell.Volume
