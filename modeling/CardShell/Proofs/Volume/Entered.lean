import CardShell.Proofs.Volume.Atomic

/-!
Entries that a volume gains. What is made on the way down to a path is made from the top down, comes
after all that was there, and leaves that as it was.
-/

set_option autoImplicit false

namespace CardShell.Volume

open CardShell.Action

variable {u v w : Volume} {key p : Path} {n : Node} {ns : List Node}

/-- `w` is `v` with the nodes `ns` besides, made one after the other. -/
structure Entered (v : Volume) (ns : List Node) (w : Volume) : Prop where
  free : ∀ n ∈ ns, v.node? n.path.key = none
  made : ∀ n ∈ ns, w.node? n.path.key = some n
  others : ∀ key, (∀ n ∈ ns, n.path.key ≠ key) → w.node? key = v.node? key
  orders : ns.map Node.order = List.range' v.nextOrder ns.length
  rest : ∃ nodes, w = { v with nodes := nodes, nextOrder := v.nextOrder + ns.length }

namespace Entered

theorem refl (v : Volume) : Entered v [] v :=
  ⟨by simp, by simp, fun _ _ => rfl, rfl, v.nodes, rfl⟩

/-- What was there is there. -/
theorem kept (h : Entered v ns w) (hn : v.node? key = some n) : w.node? key = some n := by
  rw [h.others, hn]
  intro m hm he
  rw [← he, h.free m hm] at hn
  cases hn

/-- What is there was there, or it is one of the new nodes. -/
theorem old_or_new (h : Entered v ns w) (hn : w.node? key = some n) :
    v.node? key = some n ∨ v.node? key = none ∧ n ∈ ns ∧ n.path.key = key := by
  by_cases hnew : ∃ m ∈ ns, m.path.key = key
  · obtain ⟨m, hm, rfl⟩ := hnew
    rw [h.made m hm] at hn
    cases hn
    exact Or.inr ⟨h.free n hm, hm, rfl⟩
  · rw [h.others key (by simpa using hnew)] at hn
    exact Or.inl hn

theorem nextOrder (h : Entered v ns w) : w.nextOrder = v.nextOrder + ns.length := by
  obtain ⟨_, rfl⟩ := h.rest
  rfl

/-- First these, then those. -/
theorem append {ms : List Node} (h : Entered v ns u) (h' : Entered u ms w) :
    Entered v (ns ++ ms) w := by
  have hlater : ∀ m ∈ ms, ∀ n ∈ ns, n.path.key ≠ m.path.key := by
    intro m hm n hn he
    have hmade := h.made n hn
    rw [he, h'.free m hm] at hmade
    cases hmade
  refine ⟨?_, ?_, ?_, ?_, ?_⟩
  · intro m hm
    rcases List.mem_append.mp hm with hm | hm
    · exact h.free m hm
    · rw [← h.others _ (hlater m hm)]
      exact h'.free m hm
  · intro m hm
    rcases List.mem_append.mp hm with hm | hm
    · exact h'.kept (h.made m hm)
    · exact h'.made m hm
  · intro key hkey
    rw [h'.others, h.others]
    · exact fun m hm => hkey m (List.mem_append_left _ hm)
    · exact fun m hm => hkey m (List.mem_append_right _ hm)
  · rw [List.map_append, h.orders, h'.orders, h.nextOrder, List.length_append, List.range'_append_1]
  · obtain ⟨_, rfl⟩ := h.rest
    obtain ⟨nodes, rfl⟩ := h'.rest
    exact ⟨nodes, by simp [Nat.add_assoc]⟩

end Entered

theorem entered_insert (hv : v.WellFormed) {stored : Path} (hn : v.node? p.key = none)
    (hs : v.newPath p = .ok stored) (content : Content) :
    stored.key = p.key ∧ Entered v
      [⟨stored, content, v.stamp, ⟨if content = .directory then 0 else Attributes.archiveBit⟩,
        v.nextOrder⟩] (v.insert stored content) := by
  have hp : p ≠ [] := by
    rintro rfl
    cases hn
  obtain ⟨d, hd, _, rfl, hkey⟩ := hv.newPath hp hs
  rw [← hv.key_path hd] at hd
  rw [← hkey] at hn
  have hnode := node?_insert hv content hd hn
  refine ⟨hkey, by simpa using hn, by simp [hnode], ?_, rfl, _, rfl⟩
  intro key hother
  rw [hnode, if_neg]
  intro he
  exact hother _ List.mem_cons_self he.symm

/-- The places on the way down to `p`, itself included, at which there is nothing. -/
def gaps (v : Volume) (p : Path) : List Path :=
  ((ancestry p).map Path.key).filter fun key => (v.node? key).isNone

theorem gaps_concat (v : Volume) (p : Path) (c : Text) :
    v.gaps (p ++ [c]) =
      v.gaps p ++ if (v.node? (Path.key (p ++ [c]))).isNone then [Path.key (p ++ [c])] else [] := by
  unfold gaps
  rw [ancestry_concat, List.map_append, List.filter_append, List.map_singleton, List.filter_cons,
    List.filter_nil]

theorem mem_ancestry {q : Path} : q ∈ ancestry p ↔ q ≠ [] ∧ q <+: p := by
  induction p using List.reverseRecOn generalizing q with
  | nil => simp [ancestry]
  | append_singleton p c ih =>
    rw [ancestry_concat, List.mem_append, List.mem_singleton, ih, List.prefix_concat_iff]
    constructor
    · rintro (⟨hne, hq⟩ | rfl)
      · exact ⟨hne, Or.inr hq⟩
      · exact ⟨by simp, Or.inl rfl⟩
    · rintro ⟨hne, rfl | hq⟩
      · exact Or.inr rfl
      · exact Or.inl ⟨hne, hq⟩

theorem mem_gaps : key ∈ v.gaps p ↔ key <+: p.key ∧ v.node? key = none := by
  simp only [gaps, List.mem_filter, List.mem_map, mem_ancestry, Option.isNone_iff_eq_none]
  constructor
  · rintro ⟨⟨q, ⟨_, hq⟩, rfl⟩, hnone⟩
    exact ⟨hq.map _, hnone⟩
  · rintro ⟨hkey, hnone⟩
    obtain ⟨q, hq, rfl⟩ := List.prefix_map_iff.mp hkey
    refine ⟨⟨q, ⟨?_, hq⟩, rfl⟩, hnone⟩
    rintro rfl
    cases hnone

theorem ne_of_mem_gaps_parent (h : key ∈ v.gaps p.parent) : key ≠ p.key := by
  rintro rfl
  obtain ⟨habove, hnone⟩ := mem_gaps.mp h
  have hlength := habove.length_le
  rw [Path.key_parent, List.length_dropLast] at hlength
  have hempty : p.key = [] := List.length_eq_zero_iff.mp (by omega)
  rw [hempty] at hnone
  cases hnone

/-- One step down: the directory is there, or it is made. -/
theorem ensureDirectory_entered (hv : v.WellFormed) (hname : ∀ c ∈ p, Path.IsName c)
    (hx : ensureDirectory p v = .ok () w) :
    w.WellFormed ∧ w.isDirectoryAt p.key = true ∧ ∃ ns, Entered v ns w ∧
      (ns.map fun n => n.path.key) = (if (v.node? p.key).isNone then [p.key] else []) ∧
      ∀ n ∈ ns, n.isDirectory = true := by
  cases hn : v.node? p.key with
  | some n =>
    rw [ensureDirectory_of_some hn] at hx
    split at hx
    · rename_i hdir
      cases hx
      exact ⟨hv, isDirectoryAt_iff.mpr ⟨n, hn, hdir⟩, [], Entered.refl v, by simp, by simp⟩
    · cases hx
  | none =>
    have hmake : ensureDirectory p v = makeDirectoryAt p v := by
      unfold ensureDirectory
      rw [bind_apply, get_apply]
      simp only [hn]
    rw [hmake] at hx
    rcases makeDirectoryAt_cases p v with ⟨e, he⟩ | ⟨stored, _, hs, he⟩
    · rw [he] at hx
      cases hx
    · rw [he] at hx
      cases hx
      obtain ⟨hkey, hentered⟩ := entered_insert hv hn hs .directory
      refine ⟨hv.insert .directory hname hn hs, ?_, _, hentered, by simp [hkey], ?_⟩
      · rw [isDirectoryAt_iff, ← hkey]
        exact ⟨_, hentered.made _ List.mem_cons_self, rfl⟩
      · simp [Node.isDirectory]

theorem ancestry_entered (hv : v.WellFormed) (hname : ∀ c ∈ p, Path.IsName c)
    (hx : (ancestry p).forM ensureDirectory v = .ok () w) :
    w.WellFormed ∧ w.isDirectoryAt p.key = true ∧ ∃ ns, Entered v ns w ∧
      (ns.map fun n => n.path.key) = v.gaps p ∧ ∀ n ∈ ns, n.isDirectory = true := by
  induction p using List.reverseRecOn generalizing w with
  | nil =>
    cases hx
    exact ⟨hv, isDirectoryAt_iff.mpr ⟨v.root, rfl, hv.root_isDirectory⟩, [], Entered.refl v, rfl,
      by simp⟩
  | append_singleton p c ih =>
    rw [forM_ancestry_concat] at hx
    obtain ⟨_, u, hu, hx⟩ := bind_ok_inv hx
    obtain ⟨hwf, _, ns, hns, hkeys, hdirs⟩ := ih (fun d hd => hname d (List.mem_append_left _ hd)) hu
    obtain ⟨hwf', hdir, ms, hms, hkeys', hdirs'⟩ := ensureDirectory_entered hwf hname hx
    -- what was made on the way lies above the last name
    have hsame : u.node? (Path.key (p ++ [c])) = v.node? (Path.key (p ++ [c])) := by
      apply hns.others
      intro n hn he
      have hmem : n.path.key ∈ v.gaps (Path.parent (p ++ [c])) := by
        rw [Path.parent, List.dropLast_concat, ← hkeys]
        exact List.mem_map_of_mem hn
      exact ne_of_mem_gaps_parent hmem he
    refine ⟨hwf', hdir, ns ++ ms, hns.append hms, ?_, ?_⟩
    · rw [List.map_append, hkeys, hkeys', hsame, gaps_concat]
    · intro n hn
      rcases List.mem_append.mp hn with hn | hn
      · exact hdirs n hn
      · exact hdirs' n hn

/-- Making directories makes those that are missing, from the top down. -/
theorem makeDirectories_entered (hv : v.WellFormed) {typed : Text}
    (hx : makeDirectories typed v = .ok () w) :
    ∃ p, v.resolve typed = .ok p ∧ w.WellFormed ∧ w.isDirectoryAt p.key = true ∧
      ∃ ns, Entered v ns w ∧ (ns.map fun n => n.path.key) = v.gaps p ∧
        ∀ n ∈ ns, n.isDirectory = true := by
  unfold makeDirectories at hx
  obtain ⟨p, _, hquery, hx⟩ := bind_ok_inv hx
  obtain ⟨hp, rfl⟩ := query_ok_inv hquery
  exact ⟨p, hp, ancestry_entered hv (hv.isName_of_resolve hp) hx⟩

end CardShell.Volume
