import CardShell.Proofs.Volume.Children
import CardShell.Proofs.Volume.Operation

/-!
What a rename leaves. The entry and all below it are re-rooted at the new place, one node landing
for each that was there; the other nodes stay, and every directory lists what it listed before, the
moved entry last.
-/

set_option autoImplicit false

namespace CardShell.Volume

open CardShell.Action

/-- `w` is `v` with the entry `n` at `key`, and all below it, re-rooted at `new`, which is how the
path `p` is stored. -/
structure Rerooted (v : Volume) (key : Path) (n : Node) (p new : Path) (w : Volume) : Prop where
  entry : w.node? p.key = some { n with path := new, order := v.nextOrder }
  /-- The directory that the entry is in now was not moved along. -/
  outside : ¬ key <+: p.parent.key
  /-- What is below the entry keeps the rest of its path as it was stored. -/
  below : ∀ r a, r ≠ [] → v.node? (key ++ r) = some a →
    ∃ names, names.key = r ∧ a.path = n.path ++ names ∧
      w.node? (p.key ++ r) = some { a with path := new ++ names }
  others : ∀ k a, ¬ key <+: k → v.node? k = some a → w.node? k = some a
  /-- No two nodes land at one place. -/
  apart : ∀ k l, (v.node? k).isSome → (v.node? l).isSome →
    Movable.landing key p.key k = Movable.landing key p.key l → k = l
  /-- There are no others. -/
  origin : ∀ q, (w.node? q).isSome → ∃ k, (v.node? k).isSome ∧ Movable.landing key p.key k = q
  /-- Each directory has kept its enumeration, but for the moved entry, which comes last in the
  directory it is in now. -/
  listed : ∀ k, (v.node? k).isSome →
    w.childNodes (Movable.landing key p.key k) =
      ((v.childNodes k).filter fun a => a.path.key ≠ key).map (Movable.carried key new) ++
        if k = p.parent.key then [{ n with path := new, order := v.nextOrder }] else []
  directory : w.directory =
    if key <+: v.directory.key then new ++ v.directory.drop n.path.length else v.directory
  label : w.label = v.label
  stamp : w.stamp = v.stamp
  files : w.files = v.files
  listings : w.listings = v.listings
  issued : w.issued = v.issued

namespace Movable

variable {v : Volume} {key p new : Path} {n : Node}

theorem landing_concat {target k : Path} {c : Text} (hne : k ++ [c] ≠ key) :
    landing key target (k ++ [c]) = landing key target k ++ [c] := by
  unfold landing
  by_cases hk : key <+: k
  · rw [if_pos hk, if_pos (hk.trans (List.prefix_append k [c])), List.append_assoc,
      List.drop_append_of_le_length hk.length_le]
  · have hkc : ¬ key <+: k ++ [c] := by
      intro hp
      rcases List.prefix_concat_iff.mp hp with he | hp
      · exact hne he.symm
      · exact hk hp
    rw [if_neg hk, if_neg hkc]

theorem landing_self {target : Path} : landing key target key = target := by
  simp [landing]

/-- Every node that is there after a move has landed there. -/
theorem comes (hv : v.WellFormed) (h : Movable v key n p new) {q : Path} {m : Node}
    (hm : (v.moved key n new).node? q = some m) :
    ∃ k a, v.node? k = some a ∧ landing key p.key k = q := by
  rcases h.origin hv hm with ⟨r, _, a, rfl, ha, _⟩ | ⟨_, hk, hm⟩
  · refine ⟨key ++ r, a, ha, ?_⟩
    simp [landing]
  · exact ⟨q, m, hm, if_neg hk⟩

/-- A node that is moved and one that is not do not land at one place, nor do two of a kind. -/
theorem apart (hv : v.WellFormed) (h : Movable v key n p new) {k l : Path} {a b : Node}
    (ha : v.node? k = some a) (hb : v.node? l = some b)
    (he : landing key p.key k = landing key p.key l) : k = l := by
  have hclear : ∀ {r l : Path} {b : Node}, v.node? l = some b → ¬ key <+: l → p.key ++ r ≠ l := by
    rintro r l b hb hl rfl
    exact hl (h.prefix_of_node? hv hb (List.prefix_append _ _))
  unfold landing at he
  by_cases hk : key <+: k
  · by_cases hl : key <+: l
    · rw [if_pos hk, if_pos hl] at he
      obtain ⟨r, rfl⟩ := hk
      obtain ⟨s, rfl⟩ := hl
      simp only [List.drop_left] at he
      rw [List.append_cancel_left he]
    · rw [if_pos hk, if_neg hl] at he
      exact absurd he (hclear hb hl)
  · by_cases hl : key <+: l
    · rw [if_neg hk, if_pos hl] at he
      exact absurd he.symm (hclear ha hk)
    · rwa [if_neg hk, if_neg hl] at he

theorem entry (hv : v.WellFormed) (h : Movable v key n p new) :
    (v.moved key n new).node? p.key = some { n with path := new, order := v.nextOrder } := by
  have hroot : Path.reroot new key.length n.path = new := by
    simp [Path.reroot, ← hv.length_path h.source]
  rw [h.node? hv, if_pos rfl, hroot]

theorem below (hv : v.WellFormed) (h : Movable v key n p new) {r : Path} {a : Node} (hr : r ≠ [])
    (ha : v.node? (key ++ r) = some a) :
    ∃ names, names.key = r ∧ a.path = n.path ++ names ∧
      (v.moved key n new).node? (p.key ++ r) = some { a with path := new ++ names } := by
  obtain ⟨e, names, he, _, hpath, hnames⟩ := hv.above ha
  rw [h.source] at he
  cases he
  refine ⟨names, hnames, hpath, ?_⟩
  have hplace : p.key ++ r ≠ p.key := by simpa using hr
  have hroot : Path.reroot new key.length a.path = new ++ names := by
    rw [Path.reroot, hpath, ← hv.length_path h.source, List.drop_left]
  rw [h.node? hv, if_neg hplace, if_pos (List.prefix_append _ _), ← Path.length_key p,
    List.drop_left, ha, Option.map_some, hroot]

/-- The key of the new place is one name below that of its directory. -/
theorem key_target (h : Movable v key n p new) : p.key = p.parent.key ++ [p.leaf.lower] := by
  rw [← key_concat, Path.parent_append_leaf h.target_ne]

/-- The entries of a directory after a move: the carried ones, and the moved entry if it came here. -/
theorem mem_listed_iff (hv : v.WellFormed) (h : Movable v key n p new) {k : Path}
    (hk : (v.node? k).isSome) (m : Node) :
    m ∈ ((v.childNodes k).filter fun a => a.path.key ≠ key).map (carried key new) ++
        (if k = p.parent.key then [{ n with path := new, order := v.nextOrder }] else []) ↔
      ∃ c, (v.moved key n new).node? (landing key p.key k ++ [c]) = some m := by
  obtain ⟨b, hb⟩ := Option.isSome_iff_exists.mp hk
  have hparent : landing key p.key p.parent.key = p.parent.key := if_neg h.not_prefix_parent
  obtain ⟨d, hd, _⟩ := newPath_ok h.target
  constructor
  · intro hm
    rcases List.mem_append.mp hm with hm | hm
    · obtain ⟨a, ha, rfl⟩ := List.mem_map.mp hm
      obtain ⟨hchild, hne⟩ := List.mem_filter.mp ha
      obtain ⟨c, hc⟩ := (mem_childNodes_iff hv).mp hchild
      rw [hv.key_path hc, decide_eq_true_eq] at hne
      refine ⟨c, ?_⟩
      rw [← landing_concat hne, h.carries hv hc, if_neg hne]
    · by_cases he : k = p.parent.key
      · rw [if_pos he, List.mem_singleton] at hm
        refine ⟨p.leaf.lower, ?_⟩
        rw [hm, he, hparent, ← h.key_target, h.entry hv]
      · rw [if_neg he] at hm
        cases hm
  · rintro ⟨c, hc⟩
    obtain ⟨l, a, ha, hl⟩ := h.comes hv hc
    by_cases hkey : l = key
    · -- The entry itself came here, so this is the directory of its new place.
      have hplace : p.parent.key ++ [p.leaf.lower] = landing key p.key k ++ [c] := by
        rw [← h.key_target, ← hl, hkey, landing_self]
      have he : k = p.parent.key := by
        apply h.apart hv hb hd
        rw [hparent, (List.append_inj' hplace rfl).1]
      rw [← hplace, ← h.key_target, h.entry hv] at hc
      cases hc
      rw [if_pos he]
      exact List.mem_append_right _ (List.mem_singleton_self _)
    · have hcarried := h.carries hv ha
      rw [hl, hc, if_neg hkey] at hcarried
      rw [Option.some.inj hcarried]
      apply List.mem_append_left
      apply List.mem_map_of_mem
      apply List.mem_filter.mpr
      rcases List.eq_nil_or_concat' l with rfl | ⟨l, c', rfl⟩
      · have hnil : landing key p.key [] = [] := if_neg fun hp => h.source_ne (List.prefix_nil.mp hp)
        rw [hnil] at hl
        exact absurd hl.symm (by simp)
      · rw [landing_concat hkey] at hl
        obtain ⟨e, _, he, _⟩ := hv.parent ha (by simp)
        rw [List.dropLast_concat] at he
        rw [h.apart hv he hb (List.append_inj' hl rfl).1] at ha hkey
        refine ⟨(mem_childNodes_iff hv).mpr ⟨c', ha⟩, ?_⟩
        rw [hv.key_path ha, decide_eq_true_eq]
        exact hkey

theorem carried_order (a : Node) : (carried key new a).order = a.order := by
  unfold carried
  split <;> rfl

theorem listed (hv : v.WellFormed) (h : Movable v key n p new)
    (hw : (v.moved key n new).WellFormed) {k : Path} (hk : (v.node? k).isSome) :
    (v.moved key n new).childNodes (landing key p.key k) =
      ((v.childNodes k).filter fun a => a.path.key ≠ key).map (carried key new) ++
        if k = p.parent.key then [{ n with path := new, order := v.nextOrder }] else [] := by
  apply childNodes_eq hw (h.mem_listed_iff hv hk)
  apply List.pairwise_append.mpr
  refine ⟨?_, ?_, ?_⟩
  · apply List.pairwise_map.mpr
    simp only [carried_order]
    exact (pairwise_childNodes hv k).filter _
  · split
    · exact List.pairwise_singleton _ _
    · exact List.Pairwise.nil
  · intro a ha m hm
    obtain ⟨b, hb, rfl⟩ := List.mem_map.mp ha
    obtain ⟨c, hc⟩ := (mem_childNodes_iff hv).mp (List.mem_filter.mp hb).1
    split at hm
    · rw [List.mem_singleton.mp hm, carried_order]
      exact hv.order_lt hc
    · cases hm

theorem rerooted (hv : v.WellFormed) (h : Movable v key n p new)
    (hname : ∀ c ∈ p, Path.IsName c) : Rerooted v key n p new (v.moved key n new) where
  entry := h.entry hv
  outside := h.not_prefix_parent
  below _ _ hr ha := h.below hv hr ha
  others _ _ hk ha := h.stays hv ha hk
  apart k l hk hl he := by
    obtain ⟨a, ha⟩ := Option.isSome_iff_exists.mp hk
    obtain ⟨b, hb⟩ := Option.isSome_iff_exists.mp hl
    exact h.apart hv ha hb he
  origin q hq := by
    obtain ⟨m, hm⟩ := Option.isSome_iff_exists.mp hq
    obtain ⟨k, a, ha, hk⟩ := h.comes hv hm
    exact ⟨k, Option.isSome_of_eq_some ha, hk⟩
  listed _ hk := h.listed hv (h.wellFormed hv hname) hk
  directory := by
    simp only [moved, Path.isUnder_iff, Path.reroot, hv.length_path h.source]
  label := rfl
  stamp := rfl
  files := rfl
  listings := rfl
  issued := rfl

/-- What can be moved is moved. -/
theorem rename (h : Movable v key n p new) {source target : Text}
    (hfind : v.find source = .ok (key, n)) (hp : v.resolve target = .ok p) :
    Volume.rename source target v = .ok () (v.moved key n new) := by
  have hfree : ¬ (p.key ≠ key ∧ (v.node? p.key).isSome) := by
    rintro ⟨hne, hthere⟩
    rw [h.free hne] at hthere
    cases hthere
  unfold Volume.rename
  simp only [bind_apply, get_apply, hfind, hp, ofExcept_ok, if_neg h.source_ne, if_neg hfree,
    h.not_below, h.closed, h.target, Bool.false_eq_true, if_false]
  rfl

end Movable

/-- A rename that succeeds re-roots the entry at the path that was typed, in the directory as that is
stored. -/
theorem rerooted_of_rename {v w : Volume} (hv : v.WellFormed) {source target : Text}
    (hw : rename source target v = .ok () w) :
    ∃ key n p d, v.find source = .ok (key, n) ∧ v.resolve target = .ok p ∧
      v.node? p.parent.key = some d ∧ Movable v key n p (d.path ++ [p.leaf]) ∧
      Rerooted v key n p (d.path ++ [p.leaf]) w := by
  rcases rename_cases source target v with
    ⟨e, hx⟩ | ⟨key, n, p, new, hfind, hne, hp, hfree, hbelow, hopen, hnew, hx⟩
  · rw [hx] at hw
    cases hw
  · rw [hx] at hw
    cases hw
    obtain ⟨q, _, hkey, hn⟩ := find_ok hfind
    obtain ⟨d, hd, _, rfl⟩ := newPath_ok hnew
    have hm : Movable v key n p (d.path ++ [p.leaf]) :=
      ⟨hkey ▸ hn, hne, hfree, hbelow, hopen, hnew⟩
    exact ⟨key, n, p, d, hfind, hp, hd, hm, hm.rerooted hv (hv.isName_of_resolve hp)⟩

/-- An entry that is not open can be taken to a free place in a directory outside it, or be given its
name in other case. -/
theorem exists_rename {v : Volume} (hv : v.WellFormed) {source target : Text} {key p : Path} {n : Node}
    (hfind : v.find source = .ok (key, n)) (hne : key ≠ []) (hp : v.resolve target = .ok p)
    (hopen : v.isOpen key = false)
    (hplace : p.key = key ∨
      v.node? p.key = none ∧ ¬ key <+: p.key ∧ v.isDirectoryAt p.parent.key = true) :
    ∃ w, rename source target v = .ok () w := by
  obtain ⟨q, _, hkey, hn⟩ := find_ok hfind
  rw [← hkey] at hn
  have hdirectory : ∃ d, v.node? p.parent.key = some d ∧ d.isDirectory = true := by
    rcases hplace with rfl | ⟨_, _, hdir⟩
    · obtain ⟨d, _, hd, hdir, _⟩ := hv.parent hn hne
      rw [← Path.key_parent] at hd
      exact ⟨d, hd, hdir⟩
    · unfold isDirectoryAt at hdir
      cases hd : v.node? p.parent.key with
      | none => simp [hd] at hdir
      | some d => exact ⟨d, rfl, by simpa [hd] using hdir⟩
  obtain ⟨d, hd, hdir⟩ := hdirectory
  have hbelow : key.isBelow p.key = false := by
    rw [Bool.eq_false_iff, ne_eq, Path.isBelow_iff]
    rintro ⟨hunder, hlt⟩
    rcases hplace with rfl | ⟨_, hout, _⟩
    · exact Nat.lt_irrefl _ hlt
    · exact hout hunder
  have hnew : v.newPath p = .ok (d.path ++ [p.leaf]) := by
    simp [newPath, hd, hdir]
  have hm : Movable v key n p (d.path ++ [p.leaf]) :=
    ⟨hn, hne, fun hk => (hplace.resolve_left hk).1, hbelow, hopen, hnew⟩
  exact ⟨_, hm.rename hfind hp⟩

end CardShell.Volume
