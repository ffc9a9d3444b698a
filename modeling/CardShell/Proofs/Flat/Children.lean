import CardShell.Proofs.Flat.Holds
import CardShell.Proofs.Volume.Children

/-!
What the scan of the keys finds. A directory's entries are among the keys that begin with its own and
a separator, whatever other keys sort between them; so the map lists, for every directory, what the
tree lists, and it finds something below an entry just if the tree does.
-/

set_option autoImplicit false

namespace CardShell.FlatVolume

open Path Volume

variable {c : FlatVolume} {v : Volume} {key p q : Path}

theorem mapM_ok {ε α β : Type} {f : α → Except ε β} {g : α → β} {l : List α}
    (h : ∀ a ∈ l, f a = .ok (g a)) : l.mapM f = .ok (l.map g) := by
  induction l with
  | nil => rfl
  | cons a l ih =>
    obtain ⟨ha, hl⟩ := List.forall_mem_cons.mp h
    rw [List.mapM_cons, ha, ih hl]
    rfl

/-- The root is below nothing. -/
theorem eq_nil_of_childPrefix_root (hp : p.Named) (h : childPrefix p.text <+: text []) : p = [] := by
  cases p with
  | nil => rfl
  | cons d r =>
    have hlen := h.length_le
    rw [childPrefix_text hp, text_nil, List.flatMap_cons] at hlen
    simp at hlen

/-- A key is the one asked for, or begins with it and a separator, just if its path is at or below. -/
theorem under_iff (hp : p.Named) (hq : q.Named) :
    (decide (q.text = p.text) || (childPrefix p.text).isPrefixOf q.text) = true ↔ p <+: q := by
  rw [Bool.or_eq_true, decide_eq_true_eq, List.isPrefixOf_iff_prefix]
  by_cases hne : q = []
  · subst hne
    constructor
    · rintro (he | hpre)
      · exact (text_inj named_nil hp he) ▸ List.prefix_refl _
      · exact (eq_nil_of_childPrefix_root hp hpre) ▸ List.prefix_refl _
    · intro hpre
      rw [List.prefix_nil.mp hpre]
      exact Or.inl rfl
  · rw [childPrefix_prefix_iff hp hq hne]
    constructor
    · rintro (he | ⟨name, r, rfl⟩)
      · exact (text_inj hq hp he) ▸ List.prefix_refl _
      · exact List.prefix_append _ _
    · rintro ⟨r, rfl⟩
      cases r with
      | nil => exact Or.inl (congrArg Path.text (List.append_nil p))
      | cons name r => exact Or.inr ⟨name, r, rfl⟩

/-- What is below a path stands below it in the map. -/
theorem prefix_iff_below (hp : p.Named) (hne : p ≠ []) (hq : q.Named) :
    childPrefix p.text <+: q.text ↔ p <+: q ∧ p.length < q.length := by
  by_cases hroot : q = []
  · subst hroot
    exact iff_of_false (fun h => hne (eq_nil_of_childPrefix_root hp h)) fun h => by simp at h
  · rw [childPrefix_prefix_iff hp hq hroot]
    constructor
    · rintro ⟨name, r, rfl⟩
      exact ⟨List.prefix_append _ _, by simp⟩
    · rintro ⟨⟨r, rfl⟩, hlt⟩
      cases r with
      | nil => simp at hlt
      | cons name r => exact ⟨name, r, rfl⟩

namespace Holds

theorem isOpen (h : c.Holds v) (hv : v.WellFormed) (hkey : key.Named) :
    c.isOpen key.text = v.isOpen key := by
  unfold FlatVolume.isOpen Volume.isOpen
  rw [h.files, Table.mapValues, List.any_map, Bool.eq_iff_iff, List.any_eq_true, List.any_eq_true]
  refine exists_congr fun f => and_congr_right fun hf => ?_
  obtain ⟨n, hn, _⟩ := hv.files f hf
  rw [Path.isUnder_iff]
  exact under_iff hkey (hv.named_key hn)

theorem hasChildren (h : c.Holds v) (hv : v.WellFormed) (hkey : key.Named) (hne : key ≠ []) :
    c.hasChildren key.text = v.hasChildren key := by
  unfold FlatVolume.hasChildren Volume.hasChildren
  rw [Bool.eq_iff_iff, TextMap.head_range_iff, Bool.not_eq_true']
  constructor
  · rintro ⟨k, m, hm, hpre⟩
    obtain ⟨q, n, hq, rfl, hn, rfl⟩ := h.node_of_get? hm
    obtain ⟨⟨r, rfl⟩, hlt⟩ := (prefix_iff_below hkey hne hq).mp hpre
    have hr : r ≠ [] := by
      rintro rfl
      simp at hlt
    rw [Bool.eq_false_iff]
    intro hempty
    rw [node?_of_ne v (by simp [hr]), Forest.get?_eq_none_of_inside hempty hr] at hn
    cases hn
  · intro hinside
    cases hi : v.nodes.inside key with
    | nil => rw [hi] at hinside; cases hinside
    | cons name n i r =>
      have hn : v.node? (key ++ [name]) = some n := by
        rw [← get?_inside, hi, Forest.get?_cons, if_pos rfl, if_pos rfl]
      have hq := hv.named_key hn
      refine ⟨(key ++ [name]).text, n.flat, ?_, (prefix_iff_below hkey hne hq).mpr ?_⟩
      · rw [h.nodes hq, hn]
        rfl
      · exact ⟨List.prefix_append _ _, by simp⟩

/-- The scan finds the nodes right below a key, each once. -/
theorem childNodes (h : c.Holds v) (hv : v.WellFormed) (hkey : key.Named) :
    ∃ l, c.childNodes key.text = .ok l ∧ l.Nodup ∧
      ∀ m, m ∈ l ↔ ∃ name n, v.node? (key ++ [name]) = some n ∧ m = n.flat := by
  have hcut : ∀ e ∈ c.nodes.scan (childPrefix key.text),
      (do return (← cut (Text.from? (childPrefix key.text).size e.1), e.2) :
        Except Halt (Text × FlatNode)) = .ok (e.1.drop (childPrefix key.text).length, e.2) := by
    rintro ⟨k, m⟩ he
    obtain ⟨_, rest, rfl⟩ := (TextMap.mem_scan_iff _ _).mp he
    dsimp only
    rw [Text.from?_append, List.drop_left]
    rfl
  refine ⟨_, by rw [FlatVolume.childNodes, mapM_ok hcut]; rfl, ?_, ?_⟩
  · -- Two keys that differ are the keys of two nodes that differ.
    have hkeys := TextMap.pairwise_scan c.nodes (childPrefix key.text)
    refine List.pairwise_map.mpr (List.Pairwise.filter _ (List.pairwise_map.mpr ?_))
    refine hkeys.imp_of_mem ?_
    rintro ⟨k, m⟩ ⟨k', m'⟩ he he' hlt rfl
    obtain ⟨q, n, _, rfl, hn, hm⟩ := h.node_of_get? ((TextMap.mem_scan_iff _ _).mp he).1
    obtain ⟨q', n', _, rfl, hn', hm'⟩ := h.node_of_get? ((TextMap.mem_scan_iff _ _).mp he').1
    have hpath : n.path.text = n'.path.text := congrArg FlatNode.path (hm.symm.trans hm')
    have hq : q.text = q'.text := by
      rw [← hv.key_path hn, ← hv.key_path hn', ← text_lower, ← text_lower, hpath]
    have heq : compare q.text q'.text = .eq := Std.LawfulEqCmp.compare_eq_iff_eq.mpr hq
    dsimp only at hlt
    rw [heq] at hlt
    cases hlt
  · intro m
    simp only [List.mem_map, List.mem_filter, Prod.exists]
    constructor
    · rintro ⟨rest, m', ⟨⟨k, m'', he, hrest⟩, hplain⟩, rfl⟩
      obtain ⟨hm, hpre⟩ := (TextMap.mem_scan_iff _ _).mp he
      obtain ⟨rfl, rfl⟩ := Prod.mk.inj hrest
      obtain ⟨q, n, hq, rfl, hn, rfl⟩ := h.node_of_get? hm
      by_cases hne : q = []
      · subst hne
        obtain rfl := eq_nil_of_childPrefix_root hkey hpre
        cases hplain
      · obtain ⟨name, r, rfl⟩ := (childPrefix_prefix_iff hkey hq hne).mp hpre
        rw [text_below hkey, List.drop_left] at hplain
        cases r with
        | nil => exact ⟨name, n, hn, rfl⟩
        | cons d r => simp at hplain
    · rintro ⟨name, n, hn, rfl⟩
      have hq := hv.named_key hn
      have hname := (named_append.mp hq).2 name List.mem_cons_self
      have htext : (key ++ [name]).text = childPrefix key.text ++ name := by
        rw [text_below hkey, List.flatMap_nil, List.append_nil]
      refine ⟨name, n.flat, ⟨⟨(key ++ [name]).text, n.flat, ?_, ?_⟩, ?_⟩, rfl⟩
      · rw [TextMap.mem_scan_iff, h.nodes hq, hn, htext]
        exact ⟨rfl, List.prefix_append _ _⟩
      · rw [htext, List.drop_left]
      · simp [hname.ne_nil, hname.no_separator]

/-- So it neither misses a key with one more part nor adds one, whatever characters the parts hold. -/
theorem mem_childNodes (h : c.Holds v) (hv : v.WellFormed) (hkey : key.Named) :
    ∃ l, c.childNodes key.text = .ok l ∧ l.Nodup ∧ ∀ m, m ∈ l ↔
      ∃ name, name ≠ [] ∧ '/' ∉ name ∧ c.nodes[childPrefix key.text ++ name]? = some m := by
  obtain ⟨l, hl, hnodup, hmem⟩ := h.childNodes hv hkey
  have htext : ∀ name, (key ++ [name]).text = childPrefix key.text ++ name := by
    intro name
    rw [text_below hkey, List.flatMap_nil, List.append_nil]
  refine ⟨l, hl, hnodup, fun m => ?_⟩
  rw [hmem]
  constructor
  · rintro ⟨name, n, hn, rfl⟩
    have hq := hv.named_key hn
    have hname := (named_append.mp hq).2 name List.mem_cons_self
    refine ⟨name, hname.ne_nil, hname.no_separator, ?_⟩
    rw [← htext, h.nodes hq, hn]
    rfl
  · rintro ⟨name, hname, hsep, hm⟩
    obtain ⟨q, n, hq, he, hn, rfl⟩ := h.node_of_get? hm
    have hpre : childPrefix key.text <+: q.text := he ▸ List.prefix_append _ _
    by_cases hroot : q = []
    · subst hroot
      obtain rfl := eq_nil_of_childPrefix_root hkey hpre
      exact absurd (List.append_right_eq_self.mp he) hname
    · obtain ⟨part, r, rfl⟩ := (childPrefix_prefix_iff hkey hq hroot).mp hpre
      rw [text_below hkey] at he
      have hparts := List.append_cancel_left he
      cases r with
      | nil => exact ⟨part, n, hn, rfl⟩
      | cons d r => exact absurd (by rw [hparts]; simp) hsep

theorem entry {n : Node} (hn : n.path.Named) : n.flat.entry = .ok n.entry := by
  unfold FlatNode.entry
  rw [Node.flat_path, leafOf_text hn]
  rfl

/-- For every directory the map lists what the tree lists, in the same order. -/
theorem children (h : c.Holds v) (hv : v.WellFormed) (hkey : key.Named) :
    c.children key.text = .ok (v.children key) := by
  obtain ⟨l, hl, hnodup, hmem⟩ := h.childNodes hv hkey
  have hsorted : l.mergeSort (fun a b => a.order ≤ b.order) = (v.childNodes key).map Node.flat := by
    have hperm : (l.mergeSort fun a b => a.order ≤ b.order).Perm ((v.childNodes key).map Node.flat) := by
      refine (List.mergeSort_perm _ _).trans ((List.perm_ext_iff_of_nodup hnodup ?_).mpr ?_)
      · refine List.Pairwise.map _ ?_ (pairwise_childNodes hv key)
        intro a b hab he
        exact Nat.ne_of_lt hab (congrArg FlatNode.order he)
      · intro m
        rw [hmem, List.mem_map]
        constructor
        · rintro ⟨name, n, hn, rfl⟩
          exact ⟨n, (mem_childNodes_iff hv).mpr ⟨name, hn⟩, rfl⟩
        · rintro ⟨n, hn, rfl⟩
          obtain ⟨name, hn⟩ := (mem_childNodes_iff hv).mp hn
          exact ⟨name, n, hn, rfl⟩
    have hanti : ∀ a b : FlatNode, a ∈ l.mergeSort (fun a b => a.order ≤ b.order) →
        b ∈ (v.childNodes key).map Node.flat → a.order ≤ b.order → b.order ≤ a.order → a = b := by
      intro a b ha hb hab hba
      obtain ⟨name, n, hn, rfl⟩ := (hmem a).mp ((List.mergeSort_perm _ _).mem_iff.mp ha)
      obtain ⟨m, hm, rfl⟩ := List.mem_map.mp hb
      obtain ⟨name', hm⟩ := (mem_childNodes_iff hv).mp hm
      have hkeys := hv.order_inj hn hm (Nat.le_antisymm hab hba)
      rw [hkeys, hm] at hn
      rw [Option.some.inj hn]
    have hle : (l.mergeSort fun a b => a.order ≤ b.order).Pairwise
        fun a b => decide (a.order ≤ b.order) = true :=
      List.pairwise_mergeSort (by simp only [decide_eq_true_eq]; omega)
        (by simp only [Bool.or_eq_true, decide_eq_true_eq]; omega) l
    simp only [decide_eq_true_eq] at hle
    exact hperm.eq_of_pairwise hanti hle
      (List.Pairwise.map _ (fun _ _ => Nat.le_of_lt) (pairwise_childNodes hv key))
  unfold FlatVolume.children
  rw [hl]
  show (l.mergeSort _).mapM FlatNode.entry = _
  rw [hsorted]
  have hentry : ∀ m ∈ (v.childNodes key).map Node.flat, ∃ n ∈ v.childNodes key, m = n.flat := by
    intro m hm
    obtain ⟨n, hn, rfl⟩ := List.mem_map.mp hm
    exact ⟨n, hn, rfl⟩
  rw [List.mapM_map]
  refine mapM_ok fun n hn => ?_
  obtain ⟨name, hn⟩ := (mem_childNodes_iff hv).mp hn
  exact entry (hv.named_path hn)

end Holds

end CardShell.FlatVolume
