import CardShell.Proofs.Flat.Operation
import CardShell.Proofs.Volume.Rerooted

/-!
What a rename leaves of the map, key by key. The entry stands under the lower-case form of its new
path, all below it under keys that go on as before, and every other key, also one that only begins with
the same letters, has what it had.
-/

set_option autoImplicit false

namespace CardShell

namespace FlatVolume

open Path Volume

/-- `d` is `c` with the entry `n` at `key`, and all below it, re-rooted at the path `new`. What stands
below an entry has a key that goes on with a separator. -/
structure Rerooted (c : FlatVolume) (key : Text) (n : FlatNode) (new : Text) (d : FlatVolume) :
    Prop where
  entry : d.nodes[new.lower]? = some { n with path := new, order := c.nextOrder }
  /-- Nothing was there that is overwritten. -/
  free : new.lower = key ∨ c.nodes[new.lower]? = none
  /-- What is below the entry keeps the rest of its path, in the case it was made with. -/
  below : ∀ (s : Text) (a : FlatNode), ['/'] <+: s → c.nodes[key ++ s]? = some a →
    ∃ stored, Text.lower stored = s ∧ a.path = n.path ++ stored ∧
      d.nodes[new.lower ++ s]? = some { a with path := new ++ stored }
  others : ∀ (k : Text) (a : FlatNode), k ≠ key → ¬ key ++ ['/'] <+: k → c.nodes[k]? = some a →
    d.nodes[k]? = some a
  /-- There is nothing else. -/
  origin : ∀ (k : Text) (a : FlatNode), d.nodes[k]? = some a → k = new.lower ∨
    (∃ (s : Text) (b : FlatNode), ['/'] <+: s ∧ k = new.lower ++ s ∧ c.nodes[key ++ s]? = some b) ∨
    k ≠ key ∧ ¬ key ++ ['/'] <+: k ∧ c.nodes[k]? = some a
  /-- The current directory goes along just if it was the entry or below it. -/
  taken : c.directory.lower = key ∨ key ++ ['/'] <+: c.directory.lower →
    ∃ rest, c.directory = n.path ++ rest ∧ d.directory = new ++ rest
  stayed : c.directory.lower ≠ key → ¬ key ++ ['/'] <+: c.directory.lower →
    d.directory = c.directory
  label : d.label = c.label
  stamp : d.stamp = c.stamp
  files : d.files = c.files
  listings : d.listings = c.listings
  nextHandle : d.nextHandle = c.nextHandle

variable {c d : FlatVolume} {v w : Volume} {key p new : Path} {n : Node}

theorem childPrefix_of_ne (hkey : key.Named) (hne : key ≠ []) :
    childPrefix key.text = key.text ++ ['/'] :=
  if_neg (mt (text_eq_separator_iff hkey).mp hne)

theorem under_iff_or (hkey : key.Named) (hne : key ≠ []) {q : Path} (hq : q.Named) :
    q.text = key.text ∨ key.text ++ ['/'] <+: q.text ↔ key <+: q := by
  rw [← under_iff hkey hq, childPrefix_of_ne hkey hne, Bool.or_eq_true, decide_eq_true_eq,
    List.isPrefixOf_iff_prefix]

/-- A key that goes on with a separator is the key of something below. -/
theorem exists_below (hkey : key.Named) (hne : key ≠ []) {s : Text} (hs : ['/'] <+: s) {q : Path}
    (hq : q.Named) (he : key.text ++ s = q.text) :
    ∃ r, r ≠ [] ∧ q = key ++ r ∧ s = r.flatMap ('/' :: ·) := by
  have hroot : q ≠ [] := by
    rintro rfl
    have hpre : childPrefix key.text <+: text [] := by
      rw [← he, childPrefix_of_ne hkey hne]
      exact List.prefix_append_right_inj _ |>.mpr hs
    exact hne (eq_nil_of_childPrefix_root hkey hpre)
  have hpre : childPrefix key.text <+: q.text := by
    rw [← he, childPrefix_of_ne hkey hne]
    exact List.prefix_append_right_inj _ |>.mpr hs
  obtain ⟨name, r, rfl⟩ := (childPrefix_prefix_iff hkey hq hroot).mp hpre
  refine ⟨name :: r, List.cons_ne_nil _ _, rfl, ?_⟩
  rw [text_append hne] at he
  exact List.append_cancel_left he

theorem separator_prefix {r : Path} (hr : r ≠ []) : ['/'] <+: r.flatMap ('/' :: ·) := by
  cases r with
  | nil => exact absurd rfl hr
  | cons name r => exact List.cons_prefix_cons.mpr ⟨rfl, List.nil_prefix⟩

/-- The new place was the entry's own or free. -/
theorem free_of_rerooted (hm : Volume.Rerooted v key n p new w) (hn : v.node? key = some n)
    (hp : p ≠ []) : p.key = key ∨ v.node? p.key = none := by
  by_contra hnot
  rw [not_or] at hnot
  obtain ⟨hne, hthere⟩ := hnot
  have hsome : (v.node? p.key).isSome = true := by
    cases h : v.node? p.key with
    | none => exact absurd h hthere
    | some a => rfl
  have hout : ¬ key <+: p.key := by
    intro hpre
    have hkey : p.key = p.parent.key ++ [p.leaf.lower] := by
      rw [← key_concat, parent_append_leaf hp]
    rw [hkey] at hpre
    rcases List.prefix_concat_iff.mp hpre with he | hpre
    · exact hne (hkey.trans he.symm)
    · exact hm.outside hpre
  have hland := hm.apart key p.key (Option.isSome_of_eq_some hn) hsome
  rw [Movable.landing_self, Movable.landing, if_neg hout] at hland
  exact hne (hland rfl).symm

namespace Holds

section Rerooted

variable (h : c.Holds v) (hv : v.WellFormed) (hn : v.node? key = some n) (hne : key ≠ [])
  (hd : d.Holds w) (hw : w.WellFormed) (hm : Volume.Rerooted v key n p new w) (hp : p.key ≠ [])
include h hv hn hne hd hm

theorem directory_taken (hnew : new ≠ []) (hpre : key <+: v.directory.key) :
    ∃ rest, c.directory = n.path.text ++ rest ∧ d.directory = new.text ++ rest := by
  obtain ⟨e, he, _, hpath⟩ := hv.directory
  obtain ⟨r, hr⟩ := hpre
  rw [← hr] at he
  obtain ⟨names, _, hnames, htext⟩ := path_below hv hn hne he
  rw [hpath] at hnames htext
  refine ⟨names.flatMap ('/' :: ·), h.directory.trans htext, ?_⟩
  rw [hd.directory, hm.directory, if_pos ⟨r, hr⟩, hnames, List.drop_left, text_append hnew]

include hp

theorem origin_rerooted {k : Text} {a : FlatNode} (ha : d.nodes[k]? = some a) :
    k = p.key.text ∨
      (∃ (s : Text) (b : FlatNode),
        ['/'] <+: s ∧ k = p.key.text ++ s ∧ c.nodes[key.text ++ s]? = some b) ∨
      k ≠ key.text ∧ ¬ key.text ++ ['/'] <+: k ∧ c.nodes[k]? = some a := by
  obtain ⟨q, b, hq, rfl, hb, rfl⟩ := hd.node_of_get? ha
  obtain ⟨l, hl, hland⟩ := hm.origin q (Option.isSome_of_eq_some hb)
  obtain ⟨m, hl⟩ := Option.isSome_iff_exists.mp hl
  by_cases hpre : key <+: l
  · obtain ⟨r, rfl⟩ := hpre
    rw [Movable.landing, if_pos (List.prefix_append _ _), List.drop_left] at hland
    rw [← hland]
    by_cases hr : r = []
    · exact Or.inl (by rw [hr, List.append_nil])
    · refine Or.inr (Or.inl ⟨r.flatMap ('/' :: ·), m.flat, separator_prefix hr, ?_, ?_⟩)
      · rw [text_append hp]
      · rw [← text_append hne, h.node hv hl]
  · -- What is outside the entry stays under its key, and is the node that was there.
    rw [Movable.landing, if_neg hpre] at hland
    subst hland
    have hsame := hm.others l m hpre hl
    rw [hb] at hsame
    cases hsame
    have hunder := under_iff_or (hv.named_key hn) hne hq
    exact Or.inr (Or.inr ⟨fun he => hpre (hunder.mp (Or.inl he)),
      fun hbelow => hpre (hunder.mp (Or.inr hbelow)), h.node hv hl⟩)

include hw

theorem below_rerooted (hnew : new ≠ []) {s : Text} {a : FlatNode} (hs : ['/'] <+: s)
    (ha : c.nodes[key.text ++ s]? = some a) :
    ∃ stored, Text.lower stored = s ∧ a.path = n.path.text ++ stored ∧
      d.nodes[p.key.text ++ s]? = some { a with path := new.text ++ stored } := by
  obtain ⟨q, b, hq, he, hb, rfl⟩ := h.node_of_get? ha
  obtain ⟨r, hr, rfl, rfl⟩ := exists_below (hv.named_key hn) hne hs hq he
  obtain ⟨names, hnames, hpath, hmoved⟩ := hm.below r b hr hb
  obtain ⟨names', _, hpath', htext⟩ := path_below hv hn hne hb
  obtain rfl : names = names' := List.append_cancel_left (hpath.symm.trans hpath')
  refine ⟨names.flatMap ('/' :: ·), ?_, htext, ?_⟩
  · have hlow := lower_append_names [] names
    rw [List.nil_append, hnames] at hlow
    exact hlow
  · rw [← text_append hp, hd.node hw hmoved, ← text_append hnew]
    rfl

end Rerooted

/-- Re-rooting in the tree is re-rooting key by key in the map. -/
theorem rerooted (h : c.Holds v) (hv : v.WellFormed) (hd : d.Holds w) (hw : w.WellFormed)
    (hn : v.node? key = some n) (hne : key ≠ []) (hp : p.Named) (hpne : p ≠ [])
    (hnew : new.key = p.key) (hm : Volume.Rerooted v key n p new w) :
    Rerooted c key.text n.flat new.text d := by
  have hkey := hv.named_key hn
  have hlower : new.text.lower = p.key.text := by rw [text_lower, hnew]
  have hpkey : p.key ≠ [] := fun he => hpne (key_eq_nil.mp he)
  have hnew_ne : new ≠ [] := fun he => hpkey (by rw [← hnew, he]; rfl)
  have hdirectory : c.directory.lower = v.directory.key.text := by rw [h.directory, text_lower]
  have hunder := under_iff_or hkey hne hv.named_directory.key
  have hhandle : w.nextHandle = v.nextHandle := by
    unfold Volume.nextHandle
    rw [hm.issued]
  refine
    { entry := ?_
      free := ?_
      below := ?_
      others := ?_
      origin := ?_
      taken := ?_
      stayed := ?_
      label := by rw [hd.label, hm.label, h.label]
      stamp := by rw [hd.stamp, hm.stamp, h.stamp]
      files := by rw [hd.files, hm.files, h.files]
      listings := by rw [hd.listings, hm.listings, h.listings]
      nextHandle := by rw [hd.nextHandle, hhandle, h.nextHandle] }
  · rw [hlower, hd.node hw hm.entry, h.nextOrder]
    rfl
  · rw [hlower, h.nodes hp.key]
    rcases free_of_rerooted hm hn hpne with he | hnone
    · exact Or.inl (congrArg Path.text he)
    · exact Or.inr (by rw [hnone]; rfl)
  · intro s a hs ha
    rw [hlower]
    exact h.below_rerooted hv hn hne hd hw hm hpkey hnew_ne hs ha
  · intro k a hk hbelow ha
    obtain ⟨q, b, hq, rfl, hb, rfl⟩ := h.node_of_get? ha
    have hout : ¬ key <+: q := fun hpre =>
      ((under_iff_or hkey hne hq).mpr hpre).elim hk hbelow
    exact hd.node hw (hm.others q b hout hb)
  · intro k a ha
    rw [hlower]
    exact h.origin_rerooted hv hn hne hd hm hpkey ha
  · rw [hdirectory, hunder]
    exact h.directory_taken hv hn hne hd hm hnew_ne
  · rw [hdirectory]
    intro hself hbelow
    have hout : ¬ key <+: v.directory.key := fun hpre => (hunder.mpr hpre).elim hself hbelow
    rw [hd.directory, hm.directory, if_neg hout, h.directory]

end Holds

end FlatVolume

namespace Volume

open FlatVolume

/-- On the one map of whole paths a rename does what it does on the tree, key by key as on the subtree
as a whole. One that succeeds re-roots the entry at the path that was typed, in the directory as that is
stored, and changes nothing else. It succeeds for every entry that is not open, to take it to a free
place in a directory outside it, or to give its name in other case. -/
theorem rename_reroots (label : Text) (ops : List Operation) (source target : Text) :
    let c := (FlatVolume.labelled label).runAll ops
    let v := (labelled label).runAll ops
    (c.Holds v ∧ Same (FlatVolume.rename source target c) (rename source target v)) ∧
    (∀ d, FlatVolume.rename source target c = .ok () d →
      ∃ w key n p e, rename source target v = .ok () w ∧ d.Holds w ∧
        v.find source = .ok (key, n) ∧ v.resolve target = .ok p ∧ v.node? p.parent.key = some e ∧
        Rerooted v key n p (e.path ++ [p.leaf]) w ∧
        FlatVolume.Rerooted c key.text n.flat (e.path ++ [p.leaf]).text d) ∧
    ∀ key n p, v.find source = .ok (key, n) → key ≠ [] → v.resolve target = .ok p →
      v.isOpen key = false →
      (p.key = key ∨ v.node? p.key = none ∧ ¬ key <+: p.key ∧ v.isDirectoryAt p.parent.key = true) →
      ∃ d, FlatVolume.rename source target c = .ok () d := by
  intro c v
  have hv : v.WellFormed := (wellFormed_labelled label).runAll ops
  have hc : c.Holds v := holds_of_operations label ops
  have hsame := follows_rename source target c v hc hv
  refine ⟨⟨hc, hsame⟩, ?_, ?_⟩
  · intro d hd
    rw [hd] at hsame
    cases hw : rename source target v with
    | error e w =>
      rw [hw] at hsame
      exact hsame.elim
    | ok a w =>
      rw [hw] at hsame
      obtain ⟨key, n, p, e, hfind, hp, he, hmovable, hm⟩ := rerooted_of_rename hv hw
      obtain ⟨_, _, _, _, hnew⟩ := hv.newPath hmovable.target_ne hmovable.target
      have hwell : w.WellFormed := (keeps_rename source target).of_ok hv hw
      exact ⟨w, key, n, p, e, rfl, hsame.2, hfind, hp, he, hm,
        hc.rerooted hv hsame.2 hwell hmovable.source hmovable.source_ne (hv.isName_of_resolve hp)
          hmovable.target_ne hnew hm⟩
  · intro key n p hfind hne hp hopen hplace
    obtain ⟨w, hw⟩ := exists_rename hv hfind hne hp hopen hplace
    rw [hw] at hsame
    cases hd : FlatVolume.rename source target c with
    | ok a d => exact ⟨d, rfl⟩
    | error e d =>
      rw [hd] at hsame
      exact hsame.elim

/-- A directory with the current one inside it goes where it is told to, past one whose name begins
like its own. -/
theorem rename_reroots_directory :
    ∃ d, FlatVolume.rename "/ALPHA" "/X/alpha" ((FlatVolume.labelled []).runAll
        [.writeFile "/Alpha/Beta/f" [120], .makeDirectory "/Alphabet", .makeDirectory "/x",
          .changeDirectory "/alpha/beta"]) = .ok () d ∧
      d.directory = "/x/alpha/Beta" ∧ d.nodes["/alphabet".toList]? ≠ none := by
  have h := rename_reroots []
    [.writeFile "/Alpha/Beta/f" [120], .makeDirectory "/Alphabet", .makeDirectory "/x",
      .changeDirectory "/alpha/beta"] "/ALPHA" "/X/alpha"
  revert h
  generalize hv : (labelled []).runAll
    [.writeFile "/Alpha/Beta/f" [120], .makeDirectory "/Alphabet", .makeDirectory "/x",
      .changeDirectory "/alpha/beta"] = v
  generalize (FlatVolume.labelled []).runAll
    [.writeFile "/Alpha/Beta/f" [120], .makeDirectory "/Alphabet", .makeDirectory "/x",
      .changeDirectory "/alpha/beta"] = c
  rintro ⟨⟨hc, _⟩, hrerooted, hrename⟩
  have hfind : v.find "/ALPHA" = .ok (["alpha"], ⟨["Alpha"], .directory, {}, {}, 1⟩) := by
    rw [← hv]
    decide +kernel
  have hp : v.resolve "/X/alpha" = .ok ["X", "alpha"] := by
    rw [← hv]
    decide +kernel
  have he : v.node? ["x"] = some ⟨["x"], .directory, {}, {}, 5⟩ := by
    rw [← hv]
    decide +kernel
  obtain ⟨d, hd⟩ := hrename _ _ _ hfind (by decide) hp (by rw [← hv]; decide +kernel)
    (by rw [← hv]; decide +kernel)
  obtain ⟨w, key, n, p, e, _, hdw, hfind', hp', he', hmoved, hflat⟩ := hrerooted d hd
  rw [hfind] at hfind'
  rw [hp] at hp'
  cases hfind'
  cases hp'
  have hparent : Path.key (Path.parent ["X".toList, "alpha".toList]) = ["x".toList] := by decide
  rw [hparent, he] at he'
  cases he'
  refine ⟨d, hd, ?_, ?_⟩
  · rw [hdw.directory, hmoved.directory, ← hv]
    decide +kernel
  · have hnext : ∃ a, v.node? ["alphabet"] = some a := by
      rw [← hv]
      exact Option.isSome_iff_exists.mp (by decide +kernel)
    obtain ⟨a, ha⟩ := hnext
    have hname : Path.Named ["alphabet"] := List.forall_mem_singleton.mpr (by decide)
    have hnode : c.nodes["/alphabet".toList]? = (v.node? ["alphabet"]).map Node.flat := hc.nodes hname
    rw [ha] at hnode
    rw [hflat.others _ _ (by decide) (by decide) hnode]
    exact Option.some_ne_none _

end Volume

end CardShell
