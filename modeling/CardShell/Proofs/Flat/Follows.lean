import CardShell.Proofs.Flat.Children

/-!
The operations on the map, but for the rename, come to what they come to on the tree. `Same` compares
two ends; `Follows` says that two actions end the same from wherever the map holds what the tree holds.
-/

set_option autoImplicit false

namespace CardShell.FlatVolume

open Action Path Volume

variable {α β : Type}

/-- The same value, or the same error, and the map holds what the tree holds. There is no stop. -/
def Same : EStateM.Result Halt FlatVolume α → EStateM.Result Error Volume α → Prop
  | .ok a c, .ok b v => a = b ∧ c.Holds v
  | .error e c, .error f v => e = .failed f ∧ c.Holds v
  | .ok _ _, .error _ _ => False
  | .error _ _, .ok _ _ => False

def Follows (x : FlatAction α) (y : VolumeAction α) : Prop :=
  ∀ c v, c.Holds v → v.WellFormed → Same (x c) (y v)

/-- So for a check that may change the state. -/
def SameState : Except Halt FlatVolume → Except Error Volume → Prop
  | .ok c, .ok v => c.Holds v
  | .error e, .error f => e = .failed f
  | .ok _, .error _ => False
  | .error _, .ok _ => False

variable {c : FlatVolume} {v : Volume}

namespace Same

theorem bind {x : FlatAction α} {y : VolumeAction α} {f : α → FlatAction β} {g : α → VolumeAction β}
    (h : Same (x c) (y v))
    (hf : ∀ a d w, y v = .ok a w → d.Holds w → Same (f a d) (g a w)) :
    Same ((x >>= f) c) ((y >>= g) v) := by
  rw [bind_apply, bind_apply]
  cases hx : x c <;> cases hy : y v
  all_goals rw [hx, hy] at h
  · obtain ⟨rfl, h⟩ := h
    exact hf _ _ _ hy h
  · exact h.elim
  · exact h.elim
  · exact h

/-- A question that both answer alike. -/
theorem ask {γ : Type} {q : Except Halt γ} {r : Except Error α} {t : α → γ} {f : γ → FlatAction β}
    {g : α → VolumeAction β} (h : c.Holds v) (hq : q = Halt.ofExcept (r.map t))
    (hf : ∀ a, r = .ok a → Same (f (t a) c) (g a v)) :
    Same ((ofExcept q >>= f) c) ((ofExcept r >>= g) v) := by
  subst hq
  cases r with
  | error e => exact ⟨rfl, h⟩
  | ok a => exact hf a rfl

theorem query {γ : Type} {q : FlatVolume → Except Halt γ} {r : Volume → Except Error α} {t : α → γ}
    {f : γ → FlatAction β} {g : α → VolumeAction β} (h : c.Holds v)
    (hq : q c = Halt.ofExcept ((r v).map t)) (hf : ∀ a, r v = .ok a → Same (f (t a) c) (g a v)) :
    Same ((Action.query q >>= f) c) ((Action.query r >>= g) v) :=
  Same.ask h hq hf

theorem guard {a b : Prop} [Decidable a] [Decidable b] {e : Error} {f : PUnit → FlatAction β}
    {g : PUnit → VolumeAction β} (h : c.Holds v) (hab : a ↔ b)
    (hf : ¬ b → Same (f ⟨⟩ c) (g ⟨⟩ v)) :
    Same ((if a then throw (.failed e) >>= f else f ⟨⟩) c) ((if b then throw e >>= g else g ⟨⟩) v) := by
  by_cases hb : b
  · rw [if_pos hb, if_pos (hab.mpr hb)]
    exact ⟨rfl, h⟩
  · rw [if_neg hb, if_neg (mt hab.mp hb)]
    exact hf hb

end Same

namespace Follows

theorem bind {x : FlatAction α} {y : VolumeAction α} {f : α → FlatAction β} {g : α → VolumeAction β}
    (h : Follows x y) (hk : Keeps WellFormed y) (hf : ∀ a, Follows (f a) (g a)) :
    Follows (x >>= f) (y >>= g) :=
  fun c v hc hv => (h c v hc hv).bind fun a d w hy hd => hf a d w hd (hk.of_ok hv hy)

theorem closing {close : FlatAction Unit} {close' : VolumeAction Unit} {x : FlatAction α}
    {y : VolumeAction α} (hclose : Follows close close') (h : Follows x y)
    (hk : Keeps WellFormed y) : Follows (closing close x) (closing close' y) := by
  intro c v hc hv
  have hxy := h c v hc hv
  unfold Action.closing
  cases hx : x c with
  | ok a d =>
    cases hy : y v with
    | error e w =>
      rw [hx, hy] at hxy
      exact hxy.elim
    | ok b w =>
      rw [hx, hy] at hxy
      have hend := hclose d w hxy.2 (hk.of_ok hv hy)
      dsimp only
      cases hd : close d <;> cases hw : close' w
      all_goals rw [hd, hw] at hend
      · exact ⟨hxy.1, hend.2⟩
      · exact hend.elim
      · exact hend.elim
      · exact hend
  | error e d =>
    cases hy : y v with
    | ok b w =>
      rw [hx, hy] at hxy
      exact hxy.elim
    | error f w =>
      rw [hx, hy] at hxy
      have hend := hclose d w hxy.2 (hk.of_error hv hy)
      dsimp only
      cases hd : close d <;> cases hw : close' w
      all_goals rw [hd, hw] at hend
      · exact ⟨hxy.1, hend.2⟩
      · exact hend.elim
      · exact hend.elim
      · exact ⟨hxy.1, hend.2⟩

end Follows

namespace Holds

theorem openFile? (h : c.Holds v) (i : Nat) :
    c.openFile? i = Halt.ofExcept ((v.openFile? i).map OpenFile.flat) := by
  unfold FlatVolume.openFile? Volume.openFile?
  rw [h.files, Table.get?_mapValues]
  cases v.files.get? i <;> rfl

theorem dataAt (h : c.Holds v) {key : Path} (hkey : key.Named) :
    c.dataAt key.text = Halt.ofExcept ((v.dataAt key).map id) := by
  unfold FlatVolume.dataAt Volume.dataAt
  rw [h.nodes hkey]
  cases v.node? key with
  | none => rfl
  | some n =>
    dsimp only [Option.map_some, Option.bind_some]
    rw [Node.flat_data?]
    cases n.data? <;> rfl

theorem named_file (hv : v.WellFormed) {i : Nat} {f : OpenFile} (hf : v.openFile? i = .ok f) :
    f.key.Named := by
  obtain ⟨n, hn, _⟩ := hv.files _ (mem_of_get? (openFile?_ok hf))
  exact hv.named_key hn

/-- A resolved path, and the key of one, are known by their texts. -/
theorem getElem?_lower (h : c.Holds v) {p : Path} (hp : p.Named) :
    c.nodes[p.text.lower]? = (v.node? p.key).map Node.flat := by
  rw [text_lower, h.nodes hp.key]

end Holds

section Paths

theorem follows_changeDirectory (typed : Text) :
    Follows (changeDirectory typed) (Volume.changeDirectory typed) := by
  intro c v h hv
  unfold changeDirectory Volume.changeDirectory
  rw [bind_apply, get_apply, bind_apply, get_apply]
  dsimp only
  rw [h.find hv]
  cases v.find typed with
  | error e => exact ⟨rfl, h⟩
  | ok r =>
    obtain ⟨key, n⟩ := r
    dsimp only [Except.map, Halt.ofExcept]
    rw [Node.flat_isDirectory]
    split
    · exact ⟨rfl, { h with directory := rfl }⟩
    · exact ⟨rfl, h⟩

theorem same_makeDirectoryAt (h : c.Holds v) (hv : v.WellFormed) {p : Path} (hp : p.Named)
    {typed : Text} (htyped : v.resolve typed = .ok p) :
    Same (makeDirectory typed c) (makeDirectoryAt p v) := by
  unfold makeDirectory makeDirectoryAt
  rw [bind_apply, get_apply, bind_apply, get_apply]
  dsimp only
  rw [h.resolve hv, htyped]
  dsimp only [Except.map, Halt.ofExcept]
  rw [bind_apply, ofExcept_ok]
  dsimp only
  refine Same.guard h (by rw [h.getElem?_lower hp, Option.isSome_map]) fun hfree => ?_
  refine Same.ask h (h.newPath hv hp) fun stored hstored => ?_
  exact ⟨rfl, h.insert hv .directory hp (by simpa using hfree) hstored⟩

theorem follows_makeDirectory (typed : Text) :
    Follows (makeDirectory typed) (Volume.makeDirectory typed) := by
  intro c v h hv
  unfold Volume.makeDirectory
  rw [bind_apply, Action.query]
  cases hp : v.resolve typed with
  | error e =>
    unfold makeDirectory
    rw [bind_apply, get_apply]
    dsimp only
    rw [h.resolve hv, hp]
    exact ⟨rfl, h⟩
  | ok p => exact same_makeDirectoryAt h hv (hv.isName_of_resolve hp) hp

theorem follows_ensureDirectory {p : Path} (hp : p.Named) :
    Follows (ensureDirectory p.text) (Volume.ensureDirectory p) := by
  intro c v h hv
  unfold ensureDirectory Volume.ensureDirectory
  rw [bind_apply, get_apply, bind_apply, get_apply]
  dsimp only
  rw [h.getElem?_lower hp]
  cases v.node? p.key with
  | none => exact same_makeDirectoryAt h hv hp (resolve_text hp _)
  | some n =>
    dsimp only [Option.map_some]
    rw [Node.flat_isDirectory]
    split <;> exact ⟨rfl, h⟩

/-- The paths that the directories of `parts` have, each below the one before. -/
theorem follows_descend {parts q : Path} (hname : (q ++ parts).Named) :
    Follows (descend (q.flatMap ('/' :: ·)) parts)
      (((List.range parts.length).map fun i => q ++ parts.take (i + 1)).forM Volume.ensureDirectory) := by
  induction parts generalizing q with
  | nil => exact fun c v h _ => ⟨rfl, h⟩
  | cons part parts ih =>
    have hsplit : q ++ part :: parts = (q ++ [part]) ++ parts := by
      rw [List.append_assoc, List.singleton_append]
    have htext : q.flatMap ('/' :: ·) ++ '/' :: part = (q ++ [part]).text := by
      rw [text_of_ne (by simp), List.flatMap_append, List.flatMap_singleton]
    have hflat : (q ++ [part]).text = (q ++ [part]).flatMap ('/' :: ·) := text_of_ne (by simp)
    have hpaths : ((List.range (part :: parts).length).map fun i => q ++ (part :: parts).take (i + 1)) =
        (q ++ [part]) :: (List.range parts.length).map fun i => (q ++ [part]) ++ parts.take (i + 1) := by
      rw [List.length_cons, List.range_succ_eq_map, List.map_cons, List.map_map]
      congr 1
      refine List.map_congr_left fun i _ => ?_
      rw [List.append_assoc, List.singleton_append]
      rfl
    rw [hsplit] at hname
    have hpart := (named_append.mp hname).1
    rw [hpaths, descend, htext]
    refine Follows.bind (follows_ensureDirectory hpart) (keeps_ensureDirectory hpart) fun _ => ?_
    rw [hflat]
    exact ih hname

theorem follows_makeDirectories (typed : Text) :
    Follows (makeDirectories typed) (Volume.makeDirectories typed) := by
  intro c v h hv
  unfold makeDirectories Volume.makeDirectories
  refine Same.query h (h.resolve hv typed) fun p hp => ?_
  have hname : p.Named := hv.isName_of_resolve hp
  by_cases hroot : p = []
  · subst hroot
    exact ⟨rfl, h⟩
  · have hparts : (Text.splitOn '/' p.text).filter (· ≠ []) = p := by
      rw [splitOn_text hname hroot, List.filter_cons_of_neg (by simp), List.filter_eq_self]
      exact fun d hd => decide_eq_true (hname d hd).ne_nil
    rw [if_neg (mt (text_eq_separator_iff hname).mp hroot), hparts]
    exact follows_descend (q := []) hname c v h hv

theorem follows_unlink (typed : Text) : Follows (unlink typed) (Volume.unlink typed) := by
  intro c v h hv
  unfold unlink Volume.unlink
  rw [bind_apply, get_apply, bind_apply, get_apply]
  dsimp only
  refine Same.ask h (h.find hv typed) ?_
  rintro ⟨key, n⟩ hfind
  obtain ⟨p, _, rfl, hn⟩ := find_ok hfind
  have hkey := hv.named_key hn
  refine Same.guard h (or_congr (text_eq_separator_iff hkey) Iff.rfl) fun hroot => ?_
  rw [not_or] at hroot
  have hdirectory : p.key.text = c.directory.lower ↔ p.key = v.directory.key := by
    rw [h.directory, text_lower]
    exact ⟨fun he => text_inj hkey hv.named_directory.key he, congrArg Path.text⟩
  have hheld : n.flat.isDirectory = true ∧ (c.hasChildren p.key.text = true ∨
      p.key.text = c.directory.lower) ↔
      n.isDirectory = true ∧ (v.hasChildren p.key = true ∨ p.key = v.directory.key) := by
    rw [Node.flat_isDirectory, h.hasChildren hv hkey hroot.1, hdirectory]
  refine Same.guard h hheld fun hempty => ?_
  refine Same.guard h (by rw [h.isOpen hv hkey]) fun _ => ?_
  refine ⟨rfl, h.erase hkey hroot.1 fun q m hm hq => ?_⟩
  refine hv.eq_of_prefix hn (fun hdir => ?_) hq hm
  simpa using fun hchildren => hempty ⟨hdir, Or.inl hchildren⟩

theorem follows_setAttributes (typed : Text) (bits : UInt8) :
    Follows (setAttributes typed bits) (Volume.setAttributes typed bits) := by
  intro c v h hv
  unfold setAttributes Volume.setAttributes
  rw [bind_apply, get_apply, bind_apply, get_apply]
  dsimp only
  refine Same.ask h (h.find hv typed) ?_
  rintro ⟨key, n⟩ hfind
  obtain ⟨p, _, rfl, hn⟩ := find_ok hfind
  exact ⟨rfl, h.updateNode (hv.named_key hn) fun _ _ => rfl⟩

end Paths

section Handles

/-- Handles run through the 32-bit words on both sides. -/
theorem Holds.issue (h : c.Holds v) :
    Holds { c with nextHandle := max 1 ((c.nextHandle + 1) % 0x100000000) }
      { v with issued := v.issued + 1 } :=
  { h with nextHandle := by rw [h.nextHandle, nextHandle_succ] }

theorem Holds.prepare (h : c.Holds v) (hv : v.WellFormed) {p : Path} (hp : p.Named)
    (mode : OpenMode) : SameState (c.prepare p.text mode) (v.prepare p mode) := by
  unfold FlatVolume.prepare Volume.prepare
  rw [h.getElem?_lower hp]
  cases hn : v.node? p.key with
  | some n =>
    dsimp only [Option.map_some]
    rw [Node.flat_isDirectory]
    split
    · rfl
    · split
      · rfl
      · have hro : n.flat.attributes = n.attributes := rfl
        rw [hro]
        split
        · rfl
        · split
          · rw [text_lower]
            exact h.updateNode hp.key fun m _ => by rw [h.stamp]; rfl
          · exact h
  | none =>
    dsimp only [Option.map_none]
    split
    · rw [h.newPath hv hp]
      cases hs : v.newPath p with
      | error e => rfl
      | ok stored => exact h.insert hv _ hp hn hs
    · rw [h.missing hp]
      rfl

theorem follows_openFile (typed : Text) (mode : OpenMode) :
    Follows (openFile typed mode) (Volume.openFile typed mode) := by
  intro c v h hv
  unfold openFile
  rw [bind_apply, get_apply]
  dsimp only
  rw [h.resolve hv]
  cases hp : v.resolve typed with
  | error e =>
    rw [openFile_unresolved mode hp]
    exact ⟨rfl, h⟩
  | ok p =>
    have hname : p.Named := hv.isName_of_resolve hp
    rw [openFile_resolved hp]
    dsimp only [Except.map, Halt.ofExcept]
    rw [bind_apply, ofExcept_ok]
    dsimp only
    have hprepare := h.prepare hv hname mode
    cases hd : c.prepare p.text mode <;> cases hw : v.prepare p mode
    all_goals rw [hd, hw] at hprepare
    · exact ⟨hprepare, h⟩
    · exact hprepare.elim
    · exact hprepare.elim
    · rename_i d w
      have hdw : d.Holds w := hprepare
      have hopen : ∀ position, Same ((do
          let i ← takeHandle
          modify fun c => { c with files := c.files.set i ⟨p.text.lower, position, mode⟩ }
          return i : FlatAction Nat) d) (.ok w.nextHandle (w.withHandle ⟨p.key, position, mode⟩)) := by
        intro position
        refine ⟨hdw.nextHandle, { hdw.issue with files := ?_ }⟩
        show Table.set d.nextHandle (⟨p.text.lower, position, mode⟩ : FlatFile) d.files = _
        rw [hdw.files, hdw.nextHandle, text_lower]
        exact Table.set_mapValues OpenFile.flat _ _ (⟨p.key, position, mode⟩ : OpenFile)
      rw [bind_apply, ofExcept_ok]
      dsimp only
      rw [bind_apply, set_apply]
      dsimp only
      unfold openingPosition
      by_cases ha : mode.contains .append = true
      · rw [if_pos ha, if_pos ha, bind_apply, map_apply, Action.query, text_lower,
          hdw.dataAt hname.key]
        cases w.dataAt p.key with
        | error e => exact ⟨rfl, hdw⟩
        | ok data =>
          rw [text_lower] at hopen
          exact hopen data.size
      · rw [if_neg ha, if_neg ha]
        exact hopen 0

theorem follows_closeFile (i : Nat) : Follows (closeFile i) (Volume.closeFile i) := by
  intro c v h hv
  unfold closeFile Volume.closeFile
  rw [bind_apply, get_apply, bind_apply, get_apply]
  dsimp only
  rw [h.files, Table.has_mapValues, Table.erase_mapValues]
  split
  · exact ⟨rfl, { h with files := rfl }⟩
  · exact ⟨rfl, h⟩

theorem follows_read (i count : Nat) : Follows (read i count) (Volume.read i count) := by
  intro c v h hv
  unfold read Volume.read
  rw [bind_apply, get_apply, bind_apply, get_apply]
  dsimp only
  refine Same.ask h (h.openFile? i) fun f hf => ?_
  refine Same.guard h Iff.rfl fun _ => ?_
  refine Same.ask h (h.dataAt (Holds.named_file hv hf)) fun data _ => ?_
  exact ⟨rfl, h.updateFile i fun _ => rfl⟩

theorem follows_write (i : Nat) (bytes : List UInt8) :
    Follows (write i bytes) (Volume.write i bytes) := by
  intro c v h hv
  unfold write Volume.write
  rw [bind_apply, get_apply, bind_apply, get_apply]
  dsimp only
  refine Same.ask h (h.openFile? i) fun f hf => ?_
  refine Same.guard h Iff.rfl fun _ => ?_
  refine Same.ask h (h.dataAt (Holds.named_file hv hf)) fun data _ => ?_
  refine ⟨rfl, Holds.updateFile (h.updateNode (Holds.named_file hv hf) fun n _ => ?_) i fun _ => rfl⟩
  rw [h.stamp]
  rfl

theorem follows_seek (i offset : Nat) : Follows (seek i offset) (Volume.seek i offset) := by
  intro c v h hv
  unfold seek Volume.seek
  rw [bind_apply, get_apply, bind_apply, get_apply]
  dsimp only
  refine Same.ask h (h.openFile? i) fun f hf => ?_
  refine Same.ask h (h.dataAt (Holds.named_file hv hf)) fun data _ => ?_
  have hmode : f.flat.mode = f.mode := rfl
  dsimp only [id]
  rw [hmode]
  split
  · exact ⟨rfl, Holds.updateFile (h.updateNode (Holds.named_file hv hf) fun _ _ => rfl) i fun _ => rfl⟩
  · exact ⟨rfl, h.updateFile i fun _ => rfl⟩

theorem follows_openListing (typed : Text) :
    Follows (openListing typed) (Volume.openListing typed) := by
  intro c v h hv
  unfold openListing Volume.openListing
  rw [bind_apply, get_apply, bind_apply, get_apply]
  dsimp only
  rw [h.find hv]
  cases hfind : v.find typed with
  | error e => cases e <;> exact ⟨rfl, h⟩
  | ok r =>
    obtain ⟨key, n⟩ := r
    obtain ⟨p, _, rfl, hn⟩ := find_ok hfind
    dsimp only [Except.map, Halt.ofExcept]
    refine Same.guard h (by rw [Node.flat_isDirectory]) fun _ => ?_
    rw [h.children hv (hv.named_key hn), bind_apply, ofExcept_ok]
    refine ⟨h.nextHandle, { h.issue with listings := ?_ }⟩
    show Table.set c.nextHandle _ c.listings = _
    rw [h.listings, h.nextHandle]

theorem follows_readListing (i : Nat) : Follows (readListing i) (Volume.readListing i) := by
  intro c v h hv
  unfold readListing Volume.readListing
  rw [bind_apply, get_apply, bind_apply, get_apply]
  dsimp only
  rw [h.listings]
  rcases v.listings.get? i with _ | _ | ⟨e, es⟩
  · exact ⟨rfl, h⟩
  · exact ⟨rfl, h⟩
  · exact ⟨rfl, { h with listings := rfl }⟩

theorem follows_closeListing (i : Nat) : Follows (closeListing i) (Volume.closeListing i) := by
  intro c v h hv
  unfold closeListing Volume.closeListing
  rw [bind_apply, get_apply, bind_apply, get_apply]
  dsimp only
  rw [h.listings]
  split
  · exact ⟨rfl, { h with listings := rfl }⟩
  · exact ⟨rfl, h⟩

theorem follows_writeFile (typed : Text) (data : List UInt8) :
    Follows (writeFile typed data) (Volume.writeFile typed data) := by
  intro c v h hv
  unfold writeFile Volume.writeFile
  refine Same.query h (h.resolve hv typed) fun p hp => ?_
  have hname : p.Named := hv.isName_of_resolve hp
  rw [parentOf_text hname, bind_apply, ofExcept_ok]
  refine Follows.bind (follows_makeDirectories _) (keeps_makeDirectories _) (fun _ => ?_) c v h hv
  refine Follows.bind (follows_openFile _ _) (keeps_openFile _ _) fun i => ?_
  have hwrite : Follows (do if (← write i data) < data.length then throw (.failed .denied))
      (do if (← Volume.write i data) < data.length then throw .denied) := by
    refine Follows.bind (follows_write i data) (keeps_write i data) fun n => ?_
    intro c v h _
    split <;> exact ⟨rfl, h⟩
  refine Follows.closing (follows_closeFile i) hwrite ?_
  exact keeps_bind (keeps_write i data) fun _ => keeps_ite (keeps_throw _) (keeps_pure _)

theorem Holds.mount (h : c.Holds v) : c.mount.Holds v.mount :=
  { h with directory := rfl, files := rfl, listings := rfl }

end Handles

end CardShell.FlatVolume
