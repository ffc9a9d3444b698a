import CardShell.Proofs.Flat.Follows

/-!
The rename on the map. The keys at or below the entry are taken out and put back one after the other,
and new keys may come to stand between those that have still to be moved. No new key is one of those,
and no two are the same, so in the end each entry stands under its new key, and all else is as it was;
which is the map of the tree with the subtree moved as a whole.
-/

set_option autoImplicit false

namespace CardShell.FlatVolume

open Action Path Volume

/-- What the keys `ks` have been moved to: each entry stands under its new key with the rest of its
path behind `new`, the keys themselves are gone, and nothing else has changed. -/
structure Rekeyed (source stored new : Text) (target : Text → Text) (ks : List Text)
    (c d : FlatVolume) : Prop where
  moved : ∀ k ∈ ks, ∀ n rest, c.nodes[k]? = some n → Text.from? stored.size n.path = some rest →
    d.nodes[target k]? = some { n with
      path := new ++ rest
      order := if k = source then c.nextOrder else n.order }
  others : ∀ q, (∀ k ∈ ks, target k ≠ q) → d.nodes[q]? = if q ∈ ks then none else c.nodes[q]?
  nextOrder : d.nextOrder = if source ∈ ks then c.nextOrder + 1 else c.nextOrder
  rest : d = { c with nodes := d.nodes, nextOrder := d.nextOrder }

section OneKey

variable {source stored new landing k q rest : Text} {target : Text → Text} {ks : List Text}
  {c d : FlatVolume} {n : FlatNode}

/-- What stood under `k` stands under `landing`, with the rest of its path behind `new`. -/
def landed (source new landing k rest : Text) (n : FlatNode) (c : FlatVolume) : FlatVolume :=
  { c with
    nodes := (c.nodes.erase k).insert landing
      { n with path := new ++ rest, order := if k = source then c.nextOrder else n.order }
    nextOrder := if k = source then c.nextOrder + 1 else c.nextOrder }

theorem moveKey_ok (hn : c.nodes[k]? = some n) (hrest : Text.from? stored.size n.path = some rest)
    (hlanding : (new ++ rest).lower = landing) :
    moveKey source stored new c k = .ok (c.landed source new landing k rest n) := by
  unfold moveKey
  simp only [hn, hrest, cut, bind, Except.bind, pure, Except.pure, hlanding]
  rfl

theorem getElem?_landed (q : Text) : (c.landed source new landing k rest n).nodes[q]? =
    if landing = q then
      some { n with path := new ++ rest, order := if k = source then c.nextOrder else n.order }
    else if k = q then none else c.nodes[q]? := by
  unfold landed
  rw [TextMap.getElem?_insert, TextMap.getElem?_erase]

theorem getElem?_landed_of_ne (hlanding : landing ≠ q) (hk : k ≠ q) :
    (c.landed source new landing k rest n).nodes[q]? = c.nodes[q]? := by
  rw [getElem?_landed, if_neg hlanding, if_neg hk]

/-- After one key the others, which it is none of and where nothing of them comes to stand. -/
theorem Rekeyed.cons (hk : k ∉ ks) (hfree : target k ∉ ks) (hapart : ∀ l ∈ ks, target l ≠ target k)
    (hn : c.nodes[k]? = some n) (hrest : Text.from? stored.size n.path = some rest)
    (h : Rekeyed source stored new target ks (c.landed source new (target k) k rest n) d) :
    Rekeyed source stored new target (k :: ks) c d where
  moved l hl m rest' hm hrest' := by
    rcases List.mem_cons.mp hl with rfl | hl
    · rw [hn] at hm
      cases hm
      rw [hrest] at hrest'
      cases hrest'
      rw [h.others (target l) hapart, if_neg hfree, getElem?_landed, if_pos rfl]
    · have hlater : (c.landed source new (target k) k rest n).nodes[l]? = c.nodes[l]? :=
        getElem?_landed_of_ne (fun he => hfree (he ▸ hl)) fun he => hk (he ▸ hl)
      rw [h.moved l hl m rest' (hlater.trans hm) hrest']
      by_cases hsource : l = source
      · have hne : k ≠ source := fun he => hk (he.trans hsource.symm ▸ hl)
        rw [if_pos hsource, if_pos hsource, landed]
        dsimp only
        rw [if_neg hne]
      · rw [if_neg hsource, if_neg hsource]
  others q hq := by
    obtain ⟨hqk, hqks⟩ := List.forall_mem_cons.mp hq
    rw [h.others q hqks, getElem?_landed, if_neg hqk]
    by_cases hmem : q ∈ ks
    · rw [if_pos hmem, if_pos (List.mem_cons_of_mem k hmem)]
    · rw [if_neg hmem]
      by_cases he : k = q
      · rw [if_pos he, if_pos (List.mem_cons.mpr (Or.inl he.symm))]
      · rw [if_neg he, if_neg fun hm => (List.mem_cons.mp hm).elim (Ne.symm he) hmem]
  nextOrder := by
    rw [h.nextOrder, landed]
    dsimp only
    by_cases he : k = source
    · have hsource : source ∉ ks := he ▸ hk
      rw [if_neg hsource, if_pos he, if_pos (List.mem_cons.mpr (Or.inl he.symm))]
    · rw [if_neg he]
      by_cases hmem : source ∈ ks
      · rw [if_pos hmem, if_pos (List.mem_cons_of_mem k hmem)]
      · rw [if_neg hmem, if_neg fun hm => (List.mem_cons.mp hm).elim (Ne.symm he) hmem]
  rest := by rw [h.rest, landed]

end OneKey

/-- Moving one key after the other comes to that if no new key is another one's old key, and no two new
keys are the same. -/
theorem foldlM_moveKey {source stored new : Text} {target : Text → Text} {ks : List Text}
    {c : FlatVolume} (hnodup : ks.Nodup)
    (hstep : ∀ k ∈ ks, ∃ n rest, c.nodes[k]? = some n ∧
      Text.from? stored.size n.path = some rest ∧ (new ++ rest).lower = target k)
    (hself : ∀ k ∈ ks, target k ∈ ks → target k = k)
    (hinj : ∀ k ∈ ks, ∀ l ∈ ks, target k = target l → k = l) :
    ∃ d, ks.foldlM (moveKey source stored new) c = .ok d ∧
      Rekeyed source stored new target ks c d := by
  induction ks generalizing c with
  | nil =>
    refine ⟨c, rfl, nofun, fun q _ => ?_, ?_, rfl⟩
    · rw [if_neg List.not_mem_nil]
    · rw [if_neg List.not_mem_nil]
  | cons k ks ih =>
    obtain ⟨hk, hks⟩ := List.nodup_cons.mp hnodup
    obtain ⟨n, rest, hn, hrest, hlanding⟩ := hstep k List.mem_cons_self
    have hlater : ∀ {l}, l ∈ ks → l ∈ k :: ks := List.mem_cons_of_mem k
    have hfree : target k ∉ ks := fun hmem => hk (hself k List.mem_cons_self (hlater hmem) ▸ hmem)
    have hapart : ∀ l ∈ ks, target l ≠ target k := fun l hl he =>
      hk (hinj l (hlater hl) k List.mem_cons_self he ▸ hl)
    have hsame : ∀ l ∈ ks, (c.landed source new (target k) k rest n).nodes[l]? = c.nodes[l]? :=
      fun l hl => getElem?_landed_of_ne (fun he => hfree (he ▸ hl)) fun he => hk (he ▸ hl)
    obtain ⟨d, hd, hrekeyed⟩ := ih hks
      (fun l hl => by rw [hsame l hl]; exact hstep l (hlater hl))
      (fun l hl hmem => hself l (hlater hl) (hlater hmem))
      (fun l hl l' hl' => hinj l (hlater hl) l' (hlater hl'))
    refine ⟨d, ?_, hrekeyed.cons hk hfree hapart hn hrest⟩
    rw [List.foldlM_cons, moveKey_ok hn hrest hlanding]
    exact hd

variable {c d : FlatVolume} {v : Volume} {key p new : Path} {n : Node}

namespace Holds

/-- The keys that are moved are those at or below the entry, each once. -/
theorem keysUnder (h : c.Holds v) (hv : v.WellFormed) (hkey : key.Named) (hne : key ≠ []) :
    (c.keysUnder key.text).Nodup ∧
      ∀ k, k ∈ c.keysUnder key.text ↔ ∃ r a, v.node? (key ++ r) = some a ∧ k = (key ++ r).text := by
  constructor
  · refine List.Pairwise.filter _ (List.pairwise_map.mpr ((TextMap.pairwise_scan _ _).imp ?_))
    rintro a b hlt he
    have heq : compare a.1 b.1 = .eq := Std.LawfulEqCmp.compare_eq_iff_eq.mpr he
    rw [heq] at hlt
    cases hlt
  · intro k
    unfold FlatVolume.keysUnder
    simp only [List.mem_filter, List.mem_map, Prod.exists]
    constructor
    · rintro ⟨⟨_, m, hm, rfl⟩, hunder⟩
      obtain ⟨q, a, hq, rfl, ha, rfl⟩ := h.node_of_get? ((TextMap.mem_scan_iff _ _).mp hm).1
      obtain ⟨r, rfl⟩ := (under_iff hkey hq).mp hunder
      exact ⟨r, a, ha, rfl⟩
    · rintro ⟨r, a, ha, rfl⟩
      have hq := hv.named_key ha
      refine ⟨⟨_, a.flat, ?_, rfl⟩, (under_iff hkey hq).mpr (List.prefix_append _ _)⟩
      rw [TextMap.mem_scan_iff, h.nodes hq, ha, text_append hne]
      exact ⟨rfl, List.prefix_append _ _⟩

/-- What stands below the entry has the entry's stored path in front of the rest of its own. -/
theorem path_below (hv : v.WellFormed) (hn : v.node? key = some n) (hne : key ≠ []) {r : Path}
    {a : Node} (ha : v.node? (key ++ r) = some a) :
    ∃ names, names.key = r ∧ a.path = n.path ++ names ∧
      a.path.text = n.path.text ++ names.flatMap ('/' :: ·) := by
  obtain ⟨e, names, he, _, hpath, hnames⟩ := hv.above ha
  rw [hn] at he
  cases he
  have hnpath : n.path ≠ [] := by
    intro he
    have hkey := hv.key_path hn
    rw [he] at hkey
    exact hne hkey.symm
  exact ⟨names, hnames, hpath, by rw [hpath, text_append hnpath]⟩

/-- The key under which what stood under `k` stands after a move. -/
def landingKey (key target : Path) (k : Text) : Text := target.text ++ k.drop key.text.length

theorem landingKey_text {target r : Path} (hkey : key ≠ []) (htarget : target ≠ []) :
    landingKey key target (key ++ r).text = (target ++ r).text := by
  rw [landingKey, text_append hkey, text_append htarget, List.drop_left]

section Moved

variable (h : c.Holds v) (hv : v.WellFormed) (hm : Movable v key n p new) (hp : p.Named)
include h hv hm

theorem key_mem_keysUnder : key.text ∈ c.keysUnder key.text := by
  obtain ⟨_, hmem⟩ := h.keysUnder hv (hv.named_key hm.source) hm.source_ne
  exact (hmem _).mpr ⟨[], n, by rw [List.append_nil, hm.source], by rw [List.append_nil]⟩

/-- What stood at or below the entry stands at or below the new place. -/
theorem node_arrived
    (hd : Rekeyed key.text n.path.text new.text (landingKey key p.key) (c.keysUnder key.text) c d)
    {r : Path} {a : Node} (ha : v.node? (key ++ r) = some a) :
    d.nodes[(p.key ++ r).text]? = some { a.flat with
      path := (Path.reroot new key.length a.path).text
      order := if r = [] then v.nextOrder else a.order } := by
  have hkey := hv.named_key hm.source
  obtain ⟨_, hmem⟩ := h.keysUnder hv hkey hm.source_ne
  obtain ⟨names, _, hpath, htext⟩ := path_below hv hm.source hm.source_ne ha
  have hroot : Path.reroot new key.length a.path = new ++ names := by
    rw [Path.reroot, hpath, ← hv.length_path hm.source, List.drop_left]
  have hmoved := hd.moved (key ++ r).text ((hmem _).mpr ⟨r, a, ha, rfl⟩) a.flat
    (names.flatMap ('/' :: ·)) (by rw [h.nodes (hv.named_key ha), ha]; rfl)
    (by rw [Node.flat_path, htext, Text.from?_append])
  have hself : (key ++ r).text = key.text ↔ r = [] := by
    refine ⟨fun he => ?_, fun hr => by rw [hr, List.append_nil]⟩
    exact List.append_right_eq_self.mp (text_inj (hv.named_key ha) hkey he)
  rw [landingKey_text hm.source_ne hm.key_ne] at hmoved
  simp only [hself] at hmoved
  rw [hmoved, hroot, text_append (hm.new_ne hv), h.nextOrder]
  rfl

include hp

/-- Where a key comes to stand. -/
theorem exists_landing {k : Text} (hk : k ∈ c.keysUnder key.text) :
    ∃ r a, v.node? (key ++ r) = some a ∧ k = (key ++ r).text ∧ (p.key ++ r).Named ∧
      landingKey key p.key k = (p.key ++ r).text := by
  obtain ⟨_, hmem⟩ := h.keysUnder hv (hv.named_key hm.source) hm.source_ne
  obtain ⟨r, a, ha, rfl⟩ := (hmem k).mp hk
  exact ⟨r, a, ha, rfl, named_append.mpr ⟨hp.key, (named_append.mp (hv.named_key ha)).2⟩,
    landingKey_text hm.source_ne hm.key_ne⟩

/-- The keys can be moved one after the other. -/
theorem rekeyed :
    ∃ d, (c.keysUnder key.text).foldlM (moveKey key.text n.path.text new.text) c = .ok d ∧
      Rekeyed key.text n.path.text new.text (landingKey key p.key) (c.keysUnder key.text) c d := by
  obtain ⟨hnodup, hmem⟩ := h.keysUnder hv (hv.named_key hm.source) hm.source_ne
  refine foldlM_moveKey hnodup ?_ ?_ ?_
  · intro k hk
    obtain ⟨r, a, ha, rfl, _, hland⟩ := h.exists_landing hv hm hp hk
    obtain ⟨names, hnames, _, htext⟩ := path_below hv hm.source hm.source_ne ha
    refine ⟨a.flat, names.flatMap ('/' :: ·), ?_, ?_, ?_⟩
    · rw [h.nodes (hv.named_key ha), ha]
      rfl
    · rw [Node.flat_path, htext, Text.from?_append]
    · rw [← text_append (hm.new_ne hv), text_lower, key_append, hm.new_key hv, hnames, hland]
  · intro k hk hthere
    obtain ⟨r, a, ha, rfl, hnamed, hland⟩ := h.exists_landing hv hm hp hk
    rw [hland] at hthere ⊢
    obtain ⟨r', a', ha', he⟩ := (hmem _).mp hthere
    have hplace := text_inj hnamed (hv.named_key ha') he
    by_cases hsame : p.key = key
    · rw [hsame]
    · rw [← hplace, hv.node?_none_of_prefix (hm.free hsame) (List.prefix_append _ _)] at ha'
      cases ha'
  · intro k hk l hl he
    obtain ⟨r, a, ha, rfl, hr, hkland⟩ := h.exists_landing hv hm hp hk
    obtain ⟨s, b, hb, rfl, hs, hlland⟩ := h.exists_landing hv hm hp hl
    rw [hkland, hlland] at he
    rw [List.append_cancel_left (text_inj hr hs he)]

variable
  (hd : Rekeyed key.text n.path.text new.text (landingKey key p.key) (c.keysUnder key.text) c d)
include hd

/-- Where nothing has come to stand, what was at or below the entry is gone, and all else is there. -/
theorem node_kept {q : Path} (hq : q.Named)
    (haway : ∀ r a, v.node? (key ++ r) = some a → q ≠ p.key ++ r) :
    d.nodes[q.text]? = if key <+: q then none else (v.node? q).map Node.flat := by
  obtain ⟨_, hmem⟩ := h.keysUnder hv (hv.named_key hm.source) hm.source_ne
  have hempty : ∀ k ∈ c.keysUnder key.text, landingKey key p.key k ≠ q.text := by
    intro k hk he
    obtain ⟨r, a, ha, _, hnamed, hland⟩ := h.exists_landing hv hm hp hk
    exact haway r a ha (text_inj hnamed hq (hland.symm.trans he)).symm
  rw [hd.others q.text hempty, h.nodes hq]
  by_cases hin : q.text ∈ c.keysUnder key.text
  · obtain ⟨r, a, ha, he⟩ := (hmem _).mp hin
    rw [if_pos hin, text_inj hq (hv.named_key ha) he, if_pos (List.prefix_append _ _)]
  · rw [if_neg hin]
    split
    · rename_i hpre
      obtain ⟨r, rfl⟩ := hpre
      cases ha : v.node? (key ++ r) with
      | none => rfl
      | some a => exact absurd ((hmem _).mpr ⟨r, a, ha, rfl⟩) hin
    · rfl

/-- The map with all keys moved holds the tree with the subtree moved, but for the current directory. -/
theorem nodes_rekeyed {q : Path} (hq : q.Named) :
    d.nodes[q.text]? = ((v.moved key n new).node? q).map Node.flat := by
  rw [hm.node? hv]
  by_cases hpre : p.key <+: q
  · obtain ⟨r, rfl⟩ := hpre
    have hself : p.key ++ r = p.key ↔ r = [] := List.append_right_eq_self
    simp only [hself, if_pos (List.prefix_append p.key r), ← Path.length_key p, List.drop_left]
    cases ha : v.node? (key ++ r) with
    | some a =>
      rw [h.node_arrived hv hm hd ha]
      by_cases hr : r = []
      · subst hr
        rw [List.append_nil, hm.source] at ha
        cases ha
        rfl
      · rw [if_neg hr, if_neg hr]
        rfl
    | none =>
      have hr : r ≠ [] := by
        rintro rfl
        rw [List.append_nil, hm.source] at ha
        cases ha
      have haway : ∀ s a, v.node? (key ++ s) = some a → p.key ++ r ≠ p.key ++ s := by
        intro s b hb hplace
        rw [← List.append_cancel_left hplace, ha] at hb
        cases hb
      rw [if_neg hr, h.node_kept hv hm hp hd hq haway]
      split
      · rfl
      · rename_i hout
        have hother : p.key ≠ key := fun hsame => hout (hsame ▸ List.prefix_append _ _)
        rw [hv.node?_none_of_prefix (hm.free hother) (List.prefix_append _ _)]
        rfl
  · have hne : q ≠ p.key := fun he => hpre (he ▸ List.prefix_refl _)
    have haway : ∀ r a, v.node? (key ++ r) = some a → q ≠ p.key ++ r :=
      fun r _ _ hplace => hpre (hplace ▸ List.prefix_append _ _)
    rw [if_neg hne, if_neg hpre, h.node_kept hv hm hp hd hq haway]
    split <;> rfl

theorem named_rekeyed {k : Text} {m : FlatNode} (hk : d.nodes[k]? = some m) :
    ∃ q, Named q ∧ k = q.text := by
  by_cases hland : ∃ l ∈ c.keysUnder key.text, landingKey key p.key l = k
  · obtain ⟨l, hl, rfl⟩ := hland
    obtain ⟨r, _, _, _, hnamed, hland⟩ := h.exists_landing hv hm hp hl
    exact ⟨_, hnamed, hland⟩
  · rw [hd.others k fun l hl he => hland ⟨l, hl, he⟩] at hk
    split at hk
    · cases hk
    · exact h.named hk

theorem of_rekeyed {dir : Text} (hdir : dir = (v.moved key n new).directory.text) :
    Holds { d with directory := dir } (v.moved key n new) where
  nodes hq := h.nodes_rekeyed hv hm hp hd hq
  named hk := h.named_rekeyed hv hm hp hd hk
  directory := hdir
  label := by rw [hd.rest]; exact h.label
  stamp := by rw [hd.rest]; exact h.stamp
  nextOrder := by
    show d.nextOrder = v.nextOrder + 1
    rw [hd.nextOrder, if_pos (h.key_mem_keysUnder hv hm), h.nextOrder]
  files := by rw [hd.rest]; exact h.files
  listings := by rw [hd.rest]; exact h.listings
  nextHandle := by rw [hd.rest]; exact h.nextHandle

end Moved

end Holds

theorem follows_rename (source target : Text) :
    Follows (rename source target) (Volume.rename source target) := by
  intro c v h hv
  unfold rename Volume.rename
  rw [bind_apply, get_apply, bind_apply, get_apply]
  dsimp only
  refine Same.ask h (h.find hv source) ?_
  rintro ⟨key, n⟩ hfind
  obtain ⟨q, _, rfl, hn⟩ := find_ok hfind
  generalize q.key = key at hn
  have hkey := hv.named_key hn
  refine Same.guard h (text_eq_separator_iff hkey) fun hroot => ?_
  refine Same.ask h (h.resolve hv target) fun p hp => ?_
  have hname : p.Named := hv.isName_of_resolve hp
  have hthere : (p.text.lower ≠ key.text ∧ (c.nodes[p.text.lower]?).isSome = true) ↔
      (p.key ≠ key ∧ (v.node? p.key).isSome = true) := by
    rw [h.getElem?_lower hname, Option.isSome_map, text_lower]
    exact and_congr_left fun _ =>
      not_congr ⟨fun he => text_inj hname.key hkey he, congrArg Path.text⟩
  refine Same.guard h hthere fun hfree => ?_
  have hbelow : (childPrefix key.text).isPrefixOf p.text.lower = true ↔ key.isBelow p.key = true := by
    rw [List.isPrefixOf_iff_prefix, text_lower, prefix_iff_below hkey hroot hname.key, isBelow_iff]
  refine Same.guard h hbelow fun hout => ?_
  refine Same.guard h (by rw [h.isOpen hv hkey]) fun hclosed => ?_
  refine Same.ask h (h.newPath hv hname) fun new hnew => ?_
  have hm : Movable v key n p new :=
    ⟨hn, hroot, fun hne => by simpa using fun hs => hfree ⟨hne, hs⟩, by simpa using hout,
      by simpa using hclosed, hnew⟩
  obtain ⟨d, hfold, hd⟩ := h.rekeyed hv hm hname
  rw [Node.flat_path, hfold, bind_apply, ofExcept_ok]
  dsimp only
  have hheld : (decide (d.directory.lower = key.text) ||
      (childPrefix key.text).isPrefixOf d.directory.lower) = true ↔ key.isUnder v.directory.key = true := by
    rw [hd.rest, h.directory, text_lower, under_iff hkey hv.named_directory.key, isUnder_iff]
  have hdirectory : d.directory = v.directory.text := by rw [hd.rest]; exact h.directory
  by_cases hu : key.isUnder v.directory.key = true
  · obtain ⟨e, he, _, hpath⟩ := hv.directory
    obtain ⟨r, hr⟩ := isUnder_iff.mp hu
    rw [← hr] at he
    obtain ⟨names, _, hnames, htext⟩ := Holds.path_below hv hn hroot he
    rw [hpath] at hnames htext
    have hcut : cut (Text.from? n.path.text.size d.directory) = .ok (names.flatMap ('/' :: ·)) := by
      rw [hdirectory, htext, Text.from?_append]
      rfl
    rw [if_pos (hheld.mpr hu), hcut, bind_apply, ofExcept_ok]
    refine ⟨rfl, h.of_rekeyed hv hm hname hd ?_⟩
    rw [moved, if_pos hu, reroot, hnames, ← hv.length_path hn, List.drop_left,
      text_append (hm.new_ne hv)]
  · rw [if_neg (mt hheld.mp hu)]
    have hsame : d = { d with directory := v.directory.text } := by rw [← hdirectory]
    rw [hsame]
    exact ⟨rfl, h.of_rekeyed hv hm hname hd (by rw [moved, if_neg hu])⟩

end CardShell.FlatVolume
