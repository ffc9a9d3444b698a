import CardShell.Proofs.PathText
import CardShell.Proofs.Volume.Moved

/-!
Entries of one directory moved into another one after the other. What a volume holds after that is
told from what it held before, in one equation for all keys, and each further move extends it.
-/

set_option autoImplicit false

namespace CardShell

open CardShell.Action

/-- Whether `key` lies at or below an entry with one of the names, in the directory at `top`. -/
def Path.Among (top : Path) (names : List Text) (key : Path) : Prop :=
  ∃ name ∈ names, top ++ [name.lower] <+: key

instance (top : Path) (names : List Text) (key : Path) : Decidable (top.Among names key) :=
  inferInstanceAs (Decidable (∃ name ∈ names, _))

/-- All about a node but when it came to its place. -/
def Node.facts (n : Node) : Path × Content × Stamp × Attributes :=
  (n.path, n.content, n.stamp, n.attributes)

namespace Path

theorem key_drop (p : Path) (k : Nat) : key (p.drop k) = p.key.drop k := List.map_drop

variable {top key : Path} {names : List Text} {name : Text}

theorem not_among_nil : ¬ top.Among [] key := fun ⟨_, h, _⟩ => List.not_mem_nil h

theorem among_concat :
    top.Among (names ++ [name]) key ↔ top.Among names key ∨ top ++ [name.lower] <+: key := by
  unfold Among
  constructor
  · rintro ⟨t, ht, hp⟩
    rcases List.mem_append.mp ht with ht | ht
    · exact Or.inl ⟨t, ht, hp⟩
    · exact Or.inr (List.mem_singleton.mp ht ▸ hp)
  · rintro (⟨t, ht, hp⟩ | hp)
    · exact ⟨t, List.mem_append_left _ ht, hp⟩
    · exact ⟨name, List.mem_append_right _ List.mem_cons_self, hp⟩

theorem not_among_self : ¬ top.Among names top := by
  rintro ⟨_, _, hp⟩
  have hlen := hp.length_le
  rw [List.length_append] at hlen
  exact Nat.not_succ_le_self _ hlen

/-- Two entries with different names, each not above the directory of the other, have nothing in
common below them. -/
theorem prefix_apart {s t : Path} {a b : Text} (hab : a ≠ b) (hs : ¬ s ++ [a] <+: t)
    (ht : ¬ t ++ [b] <+: s) (hp : s ++ [a] <+: key) : ¬ t ++ [b] <+: key := by
  intro hp'
  rcases Nat.lt_trichotomy s.length t.length with hlt | heq | hgt
  · refine hs (List.prefix_of_prefix_length_le hp ((List.prefix_append t [b]).trans hp') ?_)
    rw [List.length_append]
    exact hlt
  · obtain ⟨r, rfl⟩ := hp
    obtain ⟨r', hr⟩ := hp'
    rw [List.append_assoc, List.append_assoc] at hr
    exact hab (List.cons.inj (List.append_inj hr heq.symm).2).1.symm
  · refine ht (List.prefix_of_prefix_length_le hp' ((List.prefix_append s [a]).trans hp) ?_)
    rw [List.length_append]
    exact hgt

end Path

namespace Volume

variable {v w w' : Volume} {source target : Node} {names : List Text} {name : Text}

def facts? (v : Volume) (key : Path) : Option (Path × Content × Stamp × Attributes) :=
  (v.node? key).map Node.facts

/-- In `w` the entries with these names, which `v` has in the directory `source`, are with all below
them in the directory `target`, and everything else is where it is in `v`. -/
structure Relocated (v : Volume) (source target : Node) (names : List Text) (w : Volume) : Prop where
  wellFormed : w.WellFormed
  facts : ∀ key, w.facts? key =
    if target.path.key.Among names key then
      (v.node? (source.path.key ++ key.drop target.path.length)).map fun n =>
        { n with path := target.path ++ n.path.drop source.path.length }.facts
    else if source.path.key.Among names key then none
    else v.facts? key
  /-- The current directory is taken along. -/
  directory : w.directory.key =
    if source.path.key.Among names v.directory.key then
      target.path.key ++ v.directory.key.drop source.path.length
    else v.directory.key
  source_stays : ¬ target.path.key.Among names source.path.key
  target_stays : ¬ source.path.key.Among names target.path.key

theorem Relocated.refl (hv : v.WellFormed) (source target : Node) :
    Relocated v source target [] v where
  wellFormed := hv
  facts key := by rw [if_neg Path.not_among_nil, if_neg Path.not_among_nil]
  directory := by rw [if_neg Path.not_among_nil]
  source_stays := Path.not_among_nil
  target_stays := Path.not_among_nil

theorem exists_of_facts? {n : Node} {key : Path} (h : w.facts? key = v.facts? key)
    (hn : v.node? key = some n) : ∃ m, w.node? key = some m ∧ m.facts = n.facts := by
  unfold facts? at h
  rw [hn, Option.map_some] at h
  exact Option.map_eq_some_iff.mp h

/-- What a move does to the facts. -/
theorem Movable.facts? (hv : v.WellFormed) {key p new : Path} {n : Node} (h : Movable v key n p new)
    (q : Path) :
    (v.moved key n new).facts? q =
      if p.key <+: q then
        (v.node? (key ++ q.drop p.length)).map fun m =>
          { m with path := Path.reroot new key.length m.path }.facts
      else if key <+: q then none
      else v.facts? q := by
  unfold Volume.facts?
  rw [h.node? hv]
  by_cases hq : q = p.key
  · subst hq
    rw [if_pos rfl, if_pos (List.prefix_refl _), ← Path.length_key p, List.drop_length,
      List.append_nil, h.source]
    rfl
  · rw [if_neg hq]
    split
    · rw [Option.map_map]
      rfl
    · split
      · rfl
      · rfl

/-- The directories that a move goes between. -/
structure Holds (v : Volume) (source target : Node) : Prop where
  source : v.node? source.path.key = some source
  target : v.node? target.path.key = some target

theorem Relocated.source_there (h : Relocated v source target names w)
    (hd : Holds v source target) :
    ∃ m, w.node? source.path.key = some m ∧ m.facts = source.facts := by
  refine exists_of_facts? ?_ hd.source
  rw [h.facts, if_neg h.source_stays, if_neg Path.not_among_self]

theorem Relocated.target_there (h : Relocated v source target names w)
    (hd : Holds v source target) :
    ∃ m, w.node? target.path.key = some m ∧ m.facts = target.facts := by
  refine exists_of_facts? ?_ hd.target
  rw [h.facts, if_neg Path.not_among_self, if_neg h.target_stays]

/-- The place of an entry of the directory, as a path typed from the root. -/
def place (dir : Node) (name : Text) : Text := Path.text (dir.path ++ [name])

theorem resolve_place {dir : Node} (hdir : ∀ c ∈ dir.path, Path.IsName c) (hname : Path.IsName name)
    (v : Volume) : v.resolve (place dir name) = .ok (dir.path ++ [name]) := by
  refine Path.resolve_text (fun c hc => ?_) v.directory
  rcases List.mem_append.mp hc with hc | hc
  · exact hdir c hc
  · exact List.mem_singleton.mp hc ▸ hname

/-- What a move from `source` to `target` has checked where others have been made before. -/
structure Step (v : Volume) (source target : Node) (names : List Text) (w : Volume) (name : Text)
    (n : Node) : Prop where
  relocated : Relocated v source target names w
  movable : Movable w (source.path.key ++ [name.lower]) n (target.path ++ [name])
    (target.path ++ [name])
  fresh : ∀ t ∈ names, name.lower ≠ t.lower

namespace Step

variable {n : Node}

theorem target_stays (h : Step v source target names w name n) :
    ¬ source.path.key ++ [name.lower] <+: target.path.key := by
  have hparent := h.movable.not_prefix_parent
  rwa [Path.parent, List.dropLast_concat] at hparent

theorem source_stays (h : Step v source target names w name n) (hd : Holds v source target) :
    ¬ target.path.key ++ [name.lower] <+: source.path.key := by
  intro hp
  obtain ⟨m, hm, _⟩ := h.relocated.source_there hd
  by_cases hk : (target.path ++ [name]).key = source.path.key ++ [name.lower]
  · rw [key_concat] at hk
    have hlen := hp.length_le
    rw [hk, List.length_append] at hlen
    exact Nat.not_succ_le_self _ hlen
  · have hfree := h.movable.free hk
    rw [key_concat] at hfree
    rw [h.relocated.wellFormed.node?_none_of_prefix hfree hp] at hm
    cases hm

/-- Nothing that was moved before lies at or below the entry, nor anything that was to be. -/
theorem not_among (h : Step v source target names w name n) {key : Path}
    (hp : source.path.key ++ [name.lower] <+: key) :
    ¬ target.path.key.Among names key ∧ ¬ source.path.key.Among names key := by
  constructor
  · rintro ⟨t, ht, hp'⟩
    exact Path.prefix_apart (h.fresh t ht) h.target_stays
      (fun hs => h.relocated.source_stays ⟨t, ht, hs⟩) hp hp'
  · rintro ⟨t, ht, hp'⟩
    refine h.fresh t ht ?_
    obtain ⟨r, rfl⟩ := hp
    rw [List.append_assoc, List.prefix_append_right_inj] at hp'
    exact (List.cons_prefix_cons.mp hp').1.symm

/-- The entry and what lies below it are in `w` what they are in `v`, and so they are after the move
but for where they are. -/
theorem facts_below (h : Step v source target names w name n) (hv : v.WellFormed)
    (hpath : ∀ n, v.node? (source.path.key ++ [name.lower]) = some n →
      n.path = source.path ++ [name]) (r : Path) :
    let key := source.path.key ++ [name.lower]
    ((w.node? (key ++ r)).map fun m =>
        { m with path := Path.reroot (target.path ++ [name]) key.length m.path }.facts) =
      (v.node? (key ++ r)).map fun n =>
        { n with path := target.path ++ n.path.drop source.path.length }.facts := by
  dsimp only
  have hapart := h.not_among (List.prefix_append (source.path.key ++ [name.lower]) r)
  have hsame : w.facts? (source.path.key ++ [name.lower] ++ r) =
      v.facts? (source.path.key ++ [name.lower] ++ r) := by
    rw [h.relocated.facts, if_neg hapart.1, if_neg hapart.2]
  unfold Volume.facts? at hsame
  cases hm : v.node? (source.path.key ++ [name.lower] ++ r) with
  | none =>
    rw [hm, Option.map_none, Option.map_eq_none_iff] at hsame
    rw [hsame]
    rfl
  | some m =>
    obtain ⟨m', hm', hfacts⟩ := exists_of_facts? hsame hm
    obtain ⟨e, below, he, _, hmpath, _⟩ := hv.above hm
    have hsamePath : m'.path = m.path := congrArg Prod.fst hfacts
    have hroot : Path.reroot (target.path ++ [name]) (source.path.key ++ [name.lower]).length
        m'.path = target.path ++ m.path.drop source.path.length := by
      rw [Path.reroot, hsamePath, hmpath, hpath e he, ← key_concat, Path.length_key, List.drop_left,
        List.append_assoc source.path, List.drop_left, List.append_assoc]
    rw [hm', Option.map_some, Option.map_some, hroot]
    exact congrArg (fun f => some (_, f.2)) hfacts

theorem facts (h : Step v source target names w name n) (hv : v.WellFormed)
    (hpath : ∀ n, v.node? (source.path.key ++ [name.lower]) = some n →
      n.path = source.path ++ [name]) (key : Path) :
    (w.moved (source.path.key ++ [name.lower]) n (target.path ++ [name])).facts? key =
      if target.path.key.Among (names ++ [name]) key then
        (v.node? (source.path.key ++ key.drop target.path.length)).map fun n =>
          { n with path := target.path ++ n.path.drop source.path.length }.facts
      else if source.path.key.Among (names ++ [name]) key then none
      else v.facts? key := by
  rw [h.movable.facts? h.relocated.wellFormed, key_concat]
  by_cases hp : target.path.key ++ [name.lower] <+: key
  · rw [if_pos hp, if_pos (Path.among_concat.mpr (Or.inr hp))]
    obtain ⟨r, rfl⟩ := hp
    have hdrop : (target.path.key ++ [name.lower] ++ r).drop (target.path ++ [name]).length = r := by
      rw [← Path.length_key, key_concat, List.drop_left]
    have hdrop' : source.path.key ++ (target.path.key ++ [name.lower] ++ r).drop target.path.length =
        source.path.key ++ [name.lower] ++ r := by
      rw [← Path.length_key, List.append_assoc, List.drop_left, List.append_assoc]
    rw [hdrop, hdrop']
    exact h.facts_below hv hpath r
  · rw [if_neg hp]
    by_cases hs : source.path.key ++ [name.lower] <+: key
    · rw [if_pos hs, if_neg, if_pos (Path.among_concat.mpr (Or.inr hs))]
      rw [Path.among_concat, not_or]
      exact ⟨(h.not_among hs).1, hp⟩
    · rw [if_neg hs, h.relocated.facts key]
      simp only [Path.among_concat, hp, hs, or_false]

theorem directory (h : Step v source target names w name n) :
    (w.moved (source.path.key ++ [name.lower]) n (target.path ++ [name])).directory.key =
      if source.path.key.Among (names ++ [name]) v.directory.key then
        target.path.key ++ v.directory.key.drop source.path.length
      else v.directory.key := by
  have hmoved : (w.moved (source.path.key ++ [name.lower]) n (target.path ++ [name])).directory =
      if (source.path.key ++ [name.lower]).isUnder w.directory.key then
        Path.reroot (target.path ++ [name]) (source.path.key ++ [name.lower]).length w.directory
      else w.directory := rfl
  have hwas := h.relocated.directory
  rw [hmoved]
  by_cases hamong : source.path.key.Among names v.directory.key
  · -- Where it was taken before, the entry of now does not lie.
    rw [if_pos hamong] at hwas
    obtain ⟨t, ht, hp⟩ := hamong
    have hnot : ¬ source.path.key ++ [name.lower] <+: w.directory.key := by
      have hthere : target.path.key ++ [t.lower] <+: w.directory.key := by
        obtain ⟨r, hr⟩ := hp
        rw [hwas, ← hr, ← Path.length_key source.path, List.append_assoc, List.drop_left]
        exact ⟨r, List.append_assoc _ _ _⟩
      exact fun hs => Path.prefix_apart (h.fresh t ht) h.target_stays
        (fun hs => h.relocated.source_stays ⟨t, ht, hs⟩) hs hthere
    rw [if_neg fun hu => hnot (Path.isUnder_iff.mp hu), hwas,
      if_pos (Path.among_concat.mpr (Or.inl ⟨t, ht, hp⟩))]
  · rw [if_neg hamong] at hwas
    by_cases hp : source.path.key ++ [name.lower] <+: v.directory.key
    · rw [if_pos (Path.isUnder_iff.mpr (hwas ▸ hp)), if_pos (Path.among_concat.mpr (Or.inr hp))]
      obtain ⟨r, hr⟩ := hp
      have hrest : Path.key (w.directory.drop (source.path.key ++ [name.lower]).length) = r := by
        rw [Path.key_drop, hwas, ← hr, List.drop_left]
      rw [Path.reroot, Path.key_append, hrest, key_concat, ← hr, ← Path.length_key source.path,
        List.append_assoc source.path.key, List.drop_left, List.append_assoc]
    · rw [if_neg fun hu => hp (hwas ▸ Path.isUnder_iff.mp hu), hwas, if_neg]
      rw [Path.among_concat, not_or]
      exact ⟨hamong, hp⟩

theorem relocates (h : Step v source target names w name n) (hv : v.WellFormed)
    (hd : Holds v source target)
    (hpath : ∀ n, v.node? (source.path.key ++ [name.lower]) = some n → n.path = source.path ++ [name])
    (hname : ∀ c ∈ target.path ++ [name], Path.IsName c) :
    Relocated v source target (names ++ [name])
      (w.moved (source.path.key ++ [name.lower]) n (target.path ++ [name])) where
  wellFormed := h.movable.wellFormed h.relocated.wellFormed hname
  facts := h.facts hv hpath
  directory := h.directory
  source_stays hs := (Path.among_concat.mp hs).elim h.relocated.source_stays (h.source_stays hd)
  target_stays hs := (Path.among_concat.mp hs).elim h.relocated.target_stays h.target_stays

end Step

/-- The next entry is moved as well, or the volume refuses to and stays as it is. -/
theorem Relocated.rename_cases (h : Relocated v source target names w) (hv : v.WellFormed)
    (hd : Holds v source target) {n : Node}
    (hn : v.node? (source.path.key ++ [name.lower]) = some n) (hpath : n.path = source.path ++ [name])
    (hfresh : ∀ t ∈ names, name.lower ≠ t.lower) :
    (∃ e, rename (place source name) (place target name) w = .error e w) ∨
    ∃ w', rename (place source name) (place target name) w = .ok () w' ∧
      Relocated v source target (names ++ [name]) w' := by
  have hname : Path.IsName name :=
    hv.isName_of_mem hn name (hpath ▸ List.mem_append_right _ List.mem_cons_self)
  have hnames : ∀ c ∈ target.path ++ [name], Path.IsName c := by
    intro c hc
    rcases List.mem_append.mp hc with hc | hc
    · exact hv.isName_of_mem hd.target c hc
    · exact List.mem_singleton.mp hc ▸ hname
  rcases Volume.rename_cases (place source name) (place target name) w with
    ⟨e, hx⟩ | ⟨key, m, p, new, hfind, hne, hp, hfree, hbelow, hopen, hnew, hx⟩
  · exact Or.inl ⟨e, hx⟩
  · obtain ⟨q, hq, rfl, hm⟩ := find_ok hfind
    rw [resolve_place (hv.isName_of_mem hd.source) hname] at hq
    rw [resolve_place (hv.isName_of_mem hd.target) hname] at hp
    cases hq
    cases hp
    obtain ⟨d, hparent, _, rfl, _⟩ := h.wellFormed.newPath (by simp) hnew
    obtain ⟨t, ht, htfacts⟩ := h.target_there hd
    rw [Path.parent, List.dropLast_concat, ht] at hparent
    have hstored : d.path ++ [(target.path ++ [name]).leaf] = target.path ++ [name] := by
      rw [← Option.some.inj hparent, show t.path = target.path from congrArg Prod.fst htfacts,
        Path.leaf, List.getLast?_concat]
      rfl
    rw [hstored] at hnew hx
    have hkey := key_concat source.path name
    rw [hkey] at hm hne hfree hbelow hopen hx
    have hstep : Step v source target names w name m :=
      ⟨h, ⟨hm, hne, hfree, hbelow, hopen, hnew⟩, hfresh⟩
    have hstored' : ∀ e, v.node? (source.path.key ++ [name.lower]) = some e →
        e.path = source.path ++ [name] := fun e he => Option.some.inj (hn.symm.trans he) ▸ hpath
    exact Or.inr ⟨_, hx, hstep.relocates hv hd hstored' hnames⟩

def renameEach (source target : Node) : List Text → VolumeAction Unit
  | [] => pure ()
  | name :: names => do
    rename (place source name) (place target name)
    renameEach source target names

theorem renameEach_concat (h : renameEach source target names v = .ok () w)
    (hx : rename (place source name) (place target name) w = .ok () w') :
    renameEach source target (names ++ [name]) v = .ok () w' := by
  induction names generalizing v with
  | nil =>
    cases h
    rw [List.nil_append, renameEach, bind_apply, hx]
    rfl
  | cons first names ih =>
    rw [renameEach, bind_apply] at h
    rw [List.cons_append, renameEach, bind_apply]
    cases hfirst : rename (place source first) (place target first) v with
    | ok _ u =>
      rw [hfirst] at h
      exact ih h
    | error e u =>
      rw [hfirst] at h
      cases h

/-- The directory that a path names, if it names one. -/
def directoryAt? (v : Volume) (typed : Text) : Option Node :=
  match v.find typed with
  | .ok (_, n) => if n.isDirectory then some n else none
  | .error _ => none

theorem find_of_directoryAt? (hv : v.WellFormed) {typed : Text} {d : Node}
    (h : v.directoryAt? typed = some d) :
    v.find typed = .ok (d.path.key, d) ∧ d.isDirectory = true := by
  unfold directoryAt? at h
  split at h
  · rename_i key n hfind
    split at h
    · rename_i hdir
      cases h
      obtain ⟨p, _, rfl, hn⟩ := find_ok hfind
      rw [hv.key_path hn]
      exact ⟨hfind, hdir⟩
    · cases h
  · cases h

theorem leads_of_directoryAt? (hv : v.WellFormed) {typed : Text} {d : Node}
    (h : v.directoryAt? typed = some d) :
    v.directory.LeadsTo typed d.path.key ∧ v.node? d.path.key = some d := by
  obtain ⟨p, hp, hkey, hd⟩ := find_ok (find_of_directoryAt? hv h).1
  exact ⟨Path.leadsTo_iff.mpr ⟨p, hp, hkey.symm⟩, hkey ▸ hd⟩

theorem directoryAt?_of_resolve {typed : Text} {p : Path} {d : Node} (hp : v.resolve typed = .ok p)
    (hn : v.node? p.key = some d) (hd : d.isDirectory = true) : v.directoryAt? typed = some d := by
  unfold directoryAt? find
  rw [hp]
  dsimp only [bind, Except.bind]
  rw [hn]
  exact if_pos hd

/-- The current directory, the one above it and the root are there on every volume. -/
theorem isSome_directoryAt?_of_token (hv : v.WellFormed) {typed : Text}
    (h : PathText.isDirectoryToken typed = true) : (v.directoryAt? typed).isSome = true := by
  obtain ⟨d, hd, hdir, hpath⟩ := hv.directory
  unfold PathText.isDirectoryToken at h
  rw [Bool.or_eq_true, Bool.or_eq_true, beq_iff_eq, beq_iff_eq, beq_iff_eq] at h
  rcases h with (rfl | rfl) | rfl
  · exact Option.isSome_of_eq_some (directoryAt?_of_resolve (p := v.directory) rfl hd hdir)
  · have hp : v.resolve ['.', '.'] = .ok v.directory.dropLast := rfl
    by_cases hroot : v.directory = []
    · rw [hroot] at hp
      exact Option.isSome_of_eq_some (directoryAt?_of_resolve hp v.node?_nil hv.root_isDirectory)
    · obtain ⟨above, _, habove, hdir, _⟩ := hv.parent hd (mt Path.key_eq_nil.mp hroot)
      rw [← Path.key_parent] at habove
      exact Option.isSome_of_eq_some (directoryAt?_of_resolve hp habove hdir)
  · exact Option.isSome_of_eq_some
      (directoryAt?_of_resolve (p := []) rfl v.node?_nil hv.root_isDirectory)

theorem missing_congr {q q' : Path} (hq : q.key = q'.key) : v.missing q = v.missing q' := by
  unfold missing
  rw [Path.key_parent, Path.key_parent, hq]

theorem find_congr {s s' : Text} {p p' : Path} (hs : v.resolve s = .ok p)
    (hs' : v.resolve s' = .ok p') (hk : p.key = p'.key) : v.find s = v.find s' := by
  unfold find
  rw [hs, hs']
  dsimp only [bind, Except.bind]
  rw [hk, missing_congr hk]

theorem newPath_congr {q q' : Path} (hq : q.key = q'.key) (hleaf : q.leaf = q'.leaf) :
    v.newPath q = v.newPath q' := by
  unfold newPath
  rw [Path.key_parent, Path.key_parent, hq, hleaf]

/-- A rename depends on the keys of the paths typed, and on the case of the new name. -/
theorem rename_congr {s s' t t' : Text} {p p' q q' : Path} (hs : v.resolve s = .ok p)
    (hs' : v.resolve s' = .ok p') (hp : p.key = p'.key) (ht : v.resolve t = .ok q)
    (ht' : v.resolve t' = .ok q') (hq : q.key = q'.key) (hleaf : q.leaf = q'.leaf) :
    rename s t v = rename s' t' v := by
  rw [rename_resolved ht, rename_resolved ht', find_congr hs hs' hp, hq, newPath_congr hq hleaf]

/-- A name typed below a directory means the entry in that directory, wherever it leads to from. -/
theorem resolve_join {dir : Node} {typed : Text} (hname : Path.IsName name)
    (hleads : v.directory.LeadsTo typed dir.path.key) :
    ∃ p, v.resolve (PathText.join typed name) = .ok (p ++ [name]) ∧
      (p ++ [name]).key = (dir.path ++ [name]).key := by
  obtain ⟨p, hp, hkey⟩ := Path.leadsTo_iff.mp hleads
  refine ⟨p, ?_, ?_⟩
  · unfold resolve
    rw [PathText.resolve_join v.directory typed hname, hp]
    rfl
  · rw [key_concat, key_concat, hkey]

theorem find_join {dir : Node} {typed : Text} (hdir : ∀ c ∈ dir.path, Path.IsName c)
    (hname : Path.IsName name) (hleads : v.directory.LeadsTo typed dir.path.key) :
    v.find (PathText.join typed name) = v.find (place dir name) := by
  obtain ⟨p, hp, hkey⟩ := resolve_join hname hleads
  exact find_congr hp (resolve_place hdir hname v) hkey

/-- Moving a name from one typed directory to another is moving it from where the first leads to
where the second does. -/
theorem rename_join {dir dst : Text} (hname : Path.IsName name)
    (hsource : ∀ c ∈ source.path, Path.IsName c) (htarget : ∀ c ∈ target.path, Path.IsName c)
    (hdir : Path.LeadsTo v.directory dir source.path.key)
    (hdst : Path.LeadsTo v.directory dst target.path.key) :
    rename (PathText.join dir name) (PathText.join dst name) v =
      rename (place source name) (place target name) v := by
  obtain ⟨p, hp, hpkey⟩ := resolve_join hname hdir
  obtain ⟨q, hq, hqkey⟩ := resolve_join hname hdst
  refine rename_congr hp (resolve_place hsource hname v) hpkey hq (resolve_place htarget hname v)
    hqkey ?_
  rw [Path.leaf, Path.leaf, List.getLast?_concat, List.getLast?_concat]

/-- Where a move of one of the names takes the current directory along, the typed directories still
lead from there to where they led. -/
def Lasting (v : Volume) (source target : Node) (dir dst : Text) (names : List Text) : Prop :=
  ∀ name ∈ names, ∀ below, v.directory.key = source.path.key ++ name.lower :: below →
    ∀ here : Path, here.key = target.path.key ++ name.lower :: below →
      here.LeadsTo dir source.path.key ∧ here.LeadsTo dst target.path.key

theorem Relocated.leads (h : Relocated v source target names w) {dir dst : Text}
    (hlasting : Lasting v source target dir dst names)
    (hdir : v.directory.LeadsTo dir source.path.key) (hdst : v.directory.LeadsTo dst target.path.key) :
    w.directory.LeadsTo dir source.path.key ∧ w.directory.LeadsTo dst target.path.key := by
  have hwas := h.directory
  by_cases hamong : source.path.key.Among names v.directory.key
  · obtain ⟨name, hname, below, hbelow⟩ := hamong
    rw [List.append_assoc, List.singleton_append] at hbelow
    rw [if_pos ⟨name, hname, below, by rw [← hbelow, List.append_assoc, List.singleton_append]⟩,
      ← hbelow, ← Path.length_key source.path, List.drop_left] at hwas
    exact hlasting name hname below hbelow.symm w.directory hwas
  · rw [if_neg hamong] at hwas
    exact ⟨hdir.congr hwas, hdst.congr hwas⟩

/-- Directories typed from the root are always led to. -/
theorem lasting_of_absolute {dir dst : Text} (hdir : v.directory.LeadsTo dir source.path.key)
    (hdst : v.directory.LeadsTo dst target.path.key) (hdirRoot : dir.head? = some '/')
    (hdstRoot : dst.head? = some '/') (names : List Text) : Lasting v source target dir dst names :=
  fun _ _ _ _ here _ => ⟨hdir.of_absolute hdirRoot here, hdst.of_absolute hdstRoot here⟩

/-- So are all where the current directory is not among the entries moved. -/
theorem lasting_of_outside {dir dst : Text} (h : ¬ source.path.key.Among names v.directory.key) :
    Lasting v source target dir dst names := by
  intro name hname below hbelow
  refine absurd ⟨name, hname, below, ?_⟩ h
  rw [hbelow, List.append_assoc, List.singleton_append]

end Volume

end CardShell
