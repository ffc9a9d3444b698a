import CardShell.Proofs.Volume.Relocated

/-!
Entries of one directory unlinked one after the other, up to the first that the volume refuses to
unlink. Those go, and nothing else does.
-/

set_option autoImplicit false

namespace CardShell.Volume

open CardShell.Action

variable {v w w' : Volume} {dir : Node} {names done : List Text} {name : Text}
  {result : Except Error Unit}

/-- `w` is `v` without the entries with these names in the directory `dir`. -/
structure Without (v : Volume) (dir : Node) (names : List Text) (w : Volume) : Prop where
  node : ∀ key, w.node? key =
    if ∃ name ∈ names, key = dir.path.key ++ [name.lower] then none else v.node? key
  directory : w.directory = v.directory
  label : w.label = v.label
  stamp : w.stamp = v.stamp
  nextOrder : w.nextOrder = v.nextOrder
  files : w.files = v.files

theorem Without.refl (v : Volume) (dir : Node) : Without v dir [] v where
  node key := by simp
  directory := rfl
  label := rfl
  stamp := rfl
  nextOrder := rfl
  files := rfl

/-- Unlinking depends on the entry that the path leads to. -/
theorem unlink_congr {s t : Text} (h : v.find s = v.find t) : unlink s v = unlink t v := by
  unfold unlink
  simp only [bind_apply, get_apply, h]

theorem unlink_place_cases (hw : w.WellFormed) (hdir : ∀ c ∈ dir.path, Path.IsName c)
    (hname : Path.IsName name) :
    (∃ e, unlink (place dir name) w = .error e w) ∨
    ∃ w', unlink (place dir name) w = .ok () w' ∧ w'.WellFormed ∧ Without w dir [name] w' := by
  rcases unlink_cases (place dir name) w with he | ⟨key, n, hfind, hne, _, hempty, hopen, hx⟩
  · exact Or.inl he
  · obtain ⟨p, hp, rfl, hn⟩ := find_ok hfind
    rw [resolve_place hdir hname] at hp
    cases hp
    rw [key_concat] at hn hne hempty hopen hx
    refine Or.inr ⟨_, hx, hw.erase hne hn hempty hopen, ?_, rfl, rfl, rfl, rfl, rfl⟩
    intro q
    rw [node?_erase w hne]
    by_cases hq : q = dir.path.key ++ [name.lower]
    · rw [if_pos (hq ▸ List.prefix_refl _), if_pos ⟨name, List.mem_singleton_self name, hq⟩]
    · have hnone : ¬ ∃ t ∈ [name], q = dir.path.key ++ [t.lower] := by simpa using hq
      rw [if_neg hnone]
      -- Nothing lies below an entry that can be unlinked.
      split
      · rename_i hprefix
        cases hm : w.node? q with
        | none => rfl
        | some m => exact absurd (hw.eq_of_prefix hn (fun hd => (hempty hd).1) hprefix hm) hq
      · rfl

theorem Without.concat (h : Without v dir names w) (h' : Without w dir [name] w') :
    Without v dir (names ++ [name]) w' where
  node key := by
    rw [h'.node, h.node]
    by_cases hkey : key = dir.path.key ++ [name.lower]
    · rw [if_pos ⟨name, List.mem_singleton_self name, hkey⟩,
        if_pos ⟨name, List.mem_append_right _ List.mem_cons_self, hkey⟩]
    · simp only [List.mem_append, List.mem_singleton, or_and_right, exists_or, exists_eq_left, hkey,
        or_false, if_false]
  directory := h'.directory.trans h.directory
  label := h'.label.trans h.label
  stamp := h'.stamp.trans h.stamp
  nextOrder := h'.nextOrder.trans h.nextOrder
  files := h'.files.trans h.files

def unlinkEach (dir : Node) : List Text → VolumeAction Unit
  | [] => pure ()
  | name :: names => do
    unlink (place dir name)
    unlinkEach dir names

theorem unlinkEach_cons (dir : Node) (name : Text) (names : List Text) (v : Volume) :
    unlinkEach dir (name :: names) v = match unlink (place dir name) v with
      | .ok _ w => unlinkEach dir names w
      | .error e w => .error e w := by
  rw [unlinkEach, bind_apply]
  cases unlink (place dir name) v <;> rfl

theorem unlinkEach_append (h : unlinkEach dir done v = .ok () w) (todo : List Text) :
    unlinkEach dir (done ++ todo) v = unlinkEach dir todo w := by
  induction done generalizing v with
  | nil =>
    cases h
    rfl
  | cons name done ih =>
    rw [unlinkEach_cons] at h
    rw [List.cons_append, unlinkEach_cons]
    rcases hx : unlink (place dir name) v with ⟨_, w'⟩ | ⟨e, w'⟩
    · rw [hx] at h
      exact ih h
    · rw [hx] at h
      cases h

/-- Of the entries with these names those in `done` are unlinked, which leaves `w`. Then there is none
left, or the next one is refused. -/
structure Removal (dir : Node) (names : List Text) (v : Volume) (done : List Text)
    (result : Except Error Unit) (w : Volume) : Prop where
  removed : unlinkEach dir done v = .ok () w
  ends : (done = names ∧ result = .ok ()) ∨
    ∃ name todo e, names = done ++ name :: todo ∧ unlink (place dir name) w = .error e w ∧
      result = .error e

namespace Removal

theorem nil (dir : Node) (v : Volume) : Removal dir [] v [] (.ok ()) v where
  removed := rfl
  ends := Or.inl ⟨rfl, rfl⟩

theorem cons (hx : unlink (place dir name) v = .ok () w') (h : Removal dir names w' done result w) :
    Removal dir (name :: names) v (name :: done) result w where
  removed := by
    rw [unlinkEach_cons, hx]
    exact h.removed
  ends := by
    rcases h.ends with ⟨rfl, hr⟩ | ⟨next, todo, e, rfl, he, hr⟩
    · exact Or.inl ⟨rfl, hr⟩
    · exact Or.inr ⟨next, todo, e, rfl, he, hr⟩

theorem refused {e : Error} (hx : unlink (place dir name) v = .error e v) :
    Removal dir (name :: names) v [] (.error e) v where
  removed := rfl
  ends := Or.inr ⟨name, names, e, rfl, hx, rfl⟩

/-- It is what unlinking all of them comes to. -/
theorem run (h : Removal dir names v done result w) :
    unlinkEach dir names v = match result with
      | .ok _ => .ok () w
      | .error e => .error e w := by
  rcases h.ends with ⟨rfl, rfl⟩ | ⟨name, todo, e, rfl, he, rfl⟩
  · exact h.removed
  · rw [unlinkEach_append h.removed, unlinkEach_cons, he]

/-- There is only one way for it to end. -/
theorem eq {done' : List Text} {result' : Except Error Unit} (h : Removal dir names v done result w)
    (h' : Removal dir names v done' result' w') : result = result' ∧ w = w' := by
  have hrun := h.run
  rw [h'.run] at hrun
  cases result <;> cases result' <;> cases hrun <;> exact ⟨rfl, rfl⟩

theorem without (h : Removal dir names v done result w) (hv : v.WellFormed)
    (hdir : ∀ c ∈ dir.path, Path.IsName c) (hnames : ∀ t ∈ names, Path.IsName t) :
    w.WellFormed ∧ Without v dir done w := by
  have hdone : ∀ t ∈ done, Path.IsName t := by
    intro t ht
    apply hnames
    rcases h.ends with ⟨rfl, _⟩ | ⟨name, todo, e, rfl, _⟩
    · exact ht
    · exact List.mem_append_left _ ht
  have hremoved := h.removed
  clear h
  suffices hall : ∀ before u, u.WellFormed → Without v dir before u →
      unlinkEach dir done u = .ok () w → w.WellFormed ∧ Without v dir (before ++ done) w from
    hall [] v hv (.refl v dir) hremoved
  clear hremoved
  induction done with
  | nil =>
    intro before u hu hbefore hx
    cases hx
    rw [List.append_nil]
    exact ⟨hu, hbefore⟩
  | cons name done ih =>
    intro before u hu hbefore hx
    rw [unlinkEach_cons] at hx
    rcases unlink_place_cases hu hdir (hdone name List.mem_cons_self) with
      ⟨e, he⟩ | ⟨u', hok, hu', hone⟩
    · rw [he] at hx
      cases hx
    · rw [hok] at hx
      rw [List.append_cons]
      exact ih (fun t ht => hdone t (List.mem_cons_of_mem name ht)) _ u' hu' (hbefore.concat hone) hx

end Removal

end CardShell.Volume
