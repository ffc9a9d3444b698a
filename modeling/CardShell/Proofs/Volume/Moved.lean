import CardShell.Proofs.Volume.WellFormed

/-!
Renaming. A whole subtree changes place at once: its keys and its stored paths lose the key and the
path of the entry that is moved, which by the invariant are equally long, and get those of the
new place instead.
-/

set_option autoImplicit false

namespace CardShell.Volume

/-- What a rename has checked: an entry to move, and a place for it that is its own or free, not
below it, and in a directory. -/
structure Movable (v : Volume) (key : Path) (n : Node) (p new : Path) : Prop where
  source : v.node? key = some n
  source_ne : key ≠ []
  free : p.key ≠ key → v.node? p.key = none
  not_below : key.isBelow p.key = false
  closed : v.isOpen key = false
  target : v.newPath p = .ok new

namespace Movable

variable {v : Volume} {key p new : Path} {n : Node}

theorem target_ne (h : Movable v key n p new) : p ≠ [] := by
  rintro rfl
  by_cases hk : Path.key [] = key
  · exact h.source_ne hk.symm
  · have hf := h.free hk
    cases hf

theorem key_ne (h : Movable v key n p new) : p.key ≠ [] := mt Path.key_eq_nil.mp h.target_ne

theorem new_key (h : Movable v key n p new) (hv : v.WellFormed) : new.key = p.key := by
  obtain ⟨_, _, _, _, hkey⟩ := hv.newPath h.target_ne h.target
  exact hkey

theorem new_ne (h : Movable v key n p new) (hv : v.WellFormed) : new ≠ [] := by
  rintro rfl
  exact h.key_ne (h.new_key hv).symm

/-- The directory that the entry is moved to is not the entry, nor below it. -/
theorem not_prefix_parent (h : Movable v key n p new) : ¬ key <+: p.parent.key := by
  intro hp
  have hb : key.isBelow p.key = true := by
    rw [Path.isBelow_iff]
    rw [Path.key_parent] at hp
    refine ⟨hp.trans (List.dropLast_prefix _), Nat.lt_of_le_of_lt hp.length_le ?_⟩
    rw [List.length_dropLast]
    exact Nat.sub_lt (List.length_pos_iff.mpr h.key_ne) Nat.zero_lt_one
  rw [h.not_below] at hb
  cases hb

/-- What lies at or below the new place before the move is moved itself. -/
theorem prefix_of_node? (hv : v.WellFormed) (h : Movable v key n p new) {q : Path} {m : Node}
    (hq : v.node? q = some m) (hp : p.key <+: q) : key <+: q := by
  by_cases hk : p.key = key
  · exact hk ▸ hp
  · rw [hv.node?_none_of_prefix (h.free hk) hp] at hq
    cases hq

/-- The nodes after a move: the entry and all below it stand at the new place, what was there has
gone, and the others have stayed. -/
theorem node? (hv : v.WellFormed) (h : Movable v key n p new) (q : Path) :
    (v.moved key n new).node? q =
      if q = p.key then
        some { n with path := Path.reroot new key.length n.path, order := v.nextOrder }
      else if p.key <+: q then
        (v.node? (key ++ q.drop p.length)).map fun m =>
          { m with path := Path.reroot new key.length m.path }
      else if key <+: q then none
      else v.node? q := by
  obtain ⟨d, hd, _, rfl, hkey⟩ := hv.newPath h.target_ne h.target
  have hlen : p.length = d.path.key.length + 1 := by
    rw [← Path.length_key p, ← hkey, key_concat, List.length_append]
    rfl
  have hroot := h.key_ne
  by_cases hq : q = []
  · subst hq
    rw [if_neg (Ne.symm hroot), if_neg (fun hp => hroot (List.prefix_nil.mp hp)),
      if_neg (fun hp => h.source_ne (List.prefix_nil.mp hp))]
    rfl
  · have hparent : d.path.key = [] ∨ ((v.nodes.erase key).get? d.path.key).isSome := by
      rw [hv.key_path hd, Forest.get?_erase _ _ _ h.source_ne, if_neg h.not_prefix_parent]
      exact root_or_get? hd
    rw [node?_of_ne _ hq, node?_of_ne v hq]
    unfold moved
    simp only
    rw [key_concat] at hkey ⊢
    rw [Forest.get?_put _ _ _ _ hparent, hkey]
    by_cases he : q = p.key
    · rw [if_pos he, if_pos he]
    · rw [if_neg he, if_neg he]
      by_cases hp : p.key <+: q
      · rw [if_pos hp, if_pos hp, Forest.get?_map, ← hlen]
        obtain ⟨r, rfl⟩ := hp
        have hr : r ≠ [] := by
          rintro rfl
          exact he (List.append_nil _)
        rw [← Path.length_key p, List.drop_left, ← Forest.get?_append _ hr, node?_of_ne]
        simp [hr]
      · rw [if_neg hp, if_neg hp, Forest.get?_erase _ _ _ h.source_ne]

/-- Where a node of the volume after a move was before it. -/
theorem origin (hv : v.WellFormed) (h : Movable v key n p new) {q : Path} {m : Node}
    (hm : (v.moved key n new).node? q = some m) :
    (∃ r names a, q = p.key ++ r ∧ v.node? (key ++ r) = some a ∧ a.path = n.path ++ names ∧
      names.key = r ∧ m.path = new ++ names ∧ m.isDirectory = a.isDirectory ∧
      m.order = if r = [] then v.nextOrder else a.order) ∨
    (¬ p.key <+: q ∧ ¬ key <+: q ∧ v.node? q = some m) := by
  have hlen := hv.length_path h.source
  rw [h.node? hv] at hm
  split at hm
  · rename_i hq
    cases hm
    refine Or.inl ⟨[], [], n, ?_, ?_, (List.append_nil _).symm, rfl, ?_, rfl, rfl⟩
    · rw [hq, List.append_nil]
    · rw [List.append_nil, h.source]
    · rw [Path.reroot, ← hlen, List.drop_length]
  · rename_i hne
    split at hm
    · rename_i hp
      obtain ⟨r, rfl⟩ := hp
      rw [← Path.length_key p, List.drop_left, Option.map_eq_some_iff] at hm
      obtain ⟨a, ha, rfl⟩ := hm
      obtain ⟨e, names, he, _, hpath, hnames⟩ := hv.above ha
      rw [h.source] at he
      cases he
      refine Or.inl ⟨r, names, a, rfl, ha, hpath, hnames, ?_, rfl, ?_⟩
      · simp only [Path.reroot]
        rw [hpath, ← hlen, List.drop_left]
      · rw [if_neg]
        rintro rfl
        exact hne (List.append_nil _)
    · rename_i hp
      split at hm
      · cases hm
      · rename_i hk
        exact Or.inr ⟨hp, hk, hm⟩

/-- Every node at or below the entry is found below the new place. -/
theorem arrives (hv : v.WellFormed) (h : Movable v key n p new) {r : Path} {a : Node}
    (ha : v.node? (key ++ r) = some a) :
    ∃ names m, (v.moved key n new).node? (p.key ++ r) = some m ∧ a.path = n.path ++ names ∧
      names.key = r ∧ m.path = new ++ names ∧ m.isDirectory = a.isDirectory := by
  have hlen := hv.length_path h.source
  obtain ⟨e, names, he, _, hpath, hnames⟩ := hv.above ha
  rw [h.source] at he
  cases he
  have hcut : Path.reroot new key.length a.path = new ++ names := by
    rw [Path.reroot, hpath, ← hlen, List.drop_left]
  by_cases hr : r = []
  · subst hr
    rw [List.append_nil, h.source] at ha
    cases ha
    refine ⟨names, { n with path := Path.reroot new key.length n.path, order := v.nextOrder }, ?_,
      hpath, hnames, hcut, rfl⟩
    rw [h.node? hv, if_pos (List.append_nil _)]
  · refine ⟨names, { a with path := Path.reroot new key.length a.path }, ?_, hpath, hnames, hcut,
      rfl⟩
    have hne : p.key ++ r ≠ p.key := fun he =>
      hr (List.append_cancel_left (he.trans (List.append_nil _).symm))
    rw [h.node? hv, if_neg hne, if_pos (List.prefix_append _ _), ← Path.length_key p,
      List.drop_left, ha]
    rfl

/-- Every node that is not at or below the entry stays. -/
theorem stays (hv : v.WellFormed) (h : Movable v key n p new) {q : Path} {a : Node}
    (ha : v.node? q = some a) (hk : ¬ key <+: q) : (v.moved key n new).node? q = some a := by
  have hp : ¬ p.key <+: q := fun hp => hk (h.prefix_of_node? hv ha hp)
  have hne : q ≠ p.key := by
    rintro rfl
    exact hp (List.prefix_refl _)
  rw [h.node? hv, if_neg hne, if_neg hp, if_neg hk, ha]

/-- Where the node at `k` stands after a move. -/
def landing (key target k : Path) : Path :=
  if key <+: k then target ++ k.drop key.length else k

/-- A node as the move of all at or below `key` to `new` carries it. -/
def carried (key new : Path) (a : Node) : Node :=
  if key <+: a.path.key then { a with path := Path.reroot new key.length a.path } else a

/-- Every node is found where it lands, and but for the entry itself it is what was carried. -/
theorem carries (hv : v.WellFormed) (h : Movable v key n p new) {k : Path} {a : Node}
    (ha : v.node? k = some a) :
    (v.moved key n new).node? (landing key p.key k) =
      some (if k = key then { carried key new a with order := v.nextOrder } else carried key new a) := by
  unfold landing carried
  rw [hv.key_path ha]
  by_cases hk : key <+: k
  · rw [if_pos hk, if_pos hk]
    obtain ⟨r, rfl⟩ := hk
    rw [List.drop_left, h.node? hv]
    by_cases hr : r = []
    · subst hr
      rw [List.append_nil, h.source] at ha
      cases ha
      rw [List.append_nil, List.append_nil, if_pos rfl, if_pos rfl]
    · have hkey : key ++ r ≠ key := by simpa using hr
      have hplace : p.key ++ r ≠ p.key := by simpa using hr
      rw [if_neg hplace, if_pos (List.prefix_append _ _), ← Path.length_key p, List.drop_left, ha,
        if_neg hkey]
      rfl
  · have hne : k ≠ key := fun he => hk (he ▸ List.prefix_refl _)
    rw [if_neg hk, if_neg hk, if_neg hne, h.stays hv ha hk]

/-- The entry itself comes last, and any other node has kept its order. -/
theorem order_origin (hv : v.WellFormed) (h : Movable v key n p new) {q : Path} {m : Node}
    (hm : (v.moved key n new).node? q = some m) :
    (q = p.key ∧ m.order = v.nextOrder) ∨
    ∃ k a, v.node? k = some a ∧ m.order = a.order ∧ q = landing key p.key k := by
  rcases h.origin hv hm with ⟨r, _, a, rfl, ha, _, _, _, _, ho⟩ | ⟨_, hk, hm⟩
  · by_cases hr : r = []
    · rw [if_pos hr] at ho
      exact Or.inl ⟨by rw [hr, List.append_nil], ho⟩
    · rw [if_neg hr] at ho
      refine Or.inr ⟨key ++ r, a, ha, ho, ?_⟩
      rw [landing, if_pos (List.prefix_append _ _), List.drop_left]
  · exact Or.inr ⟨q, m, hm, rfl, by rw [landing, if_neg hk]⟩

theorem wellFormed (hv : v.WellFormed) (h : Movable v key n p new)
    (hname : ∀ c ∈ p, Path.IsName c) : (v.moved key n new).WellFormed := by
  obtain ⟨d, hd, hdir, hnew, hkey⟩ := hv.newPath h.target_ne h.target
  have hne := h.key_ne
  refine
    { root_path := hv.root_path
      root_isDirectory := hv.root_isDirectory
      distinct := Forest.distinct_put _ (Forest.distinct_map _ (Forest.distinct_inside hv.distinct _))
        (Forest.distinct_erase hv.distinct _) _
      key_path := ?_
      parent := ?_
      order_lt := ?_
      order_inj := ?_
      directory := ?_
      files := ?_ }
  · intro q m hm
    rcases h.origin hv hm with ⟨r, names, a, rfl, ha, _, hnames, hpath, _⟩ | ⟨_, _, hm⟩
    · rw [hpath, Path.key_append, hkey, hnames]
    · exact hv.key_path hm
  · intro q m hm hq
    rcases h.origin hv hm with ⟨r, names, a, rfl, ha, hapath, hnames, hpath, _⟩ | ⟨hp, hk, hm⟩
    · by_cases hr : r = []
      · subst hr
        rw [Path.key_eq_nil] at hnames
        rw [hnames, List.append_nil, hnew] at hpath
        rw [List.append_nil, ← Path.key_parent]
        exact ⟨d, p.leaf, h.stays hv hd h.not_prefix_parent, hdir, hname _ (Path.leaf_mem h.target_ne),
          hpath⟩
      · obtain ⟨e, name, he, hedir, hename, haname⟩ := hv.parent ha (by simp [hr])
        rw [List.dropLast_append_of_ne_nil hr] at he ⊢
        obtain ⟨above, e', he', hepath, _, he'path, he'dir⟩ := h.arrives hv he
        refine ⟨e', name, he', by rw [he'dir, hedir], hename, ?_⟩
        rw [haname, hepath, List.append_assoc] at hapath
        rw [hpath, he'path, ← List.append_cancel_left hapath, List.append_assoc]
    · obtain ⟨e, name, he, hedir, hename, hpath⟩ := hv.parent hm hq
      have hk' : ¬ key <+: q.dropLast := fun hk' => hk (hk'.trans (List.dropLast_prefix q))
      exact ⟨e, name, h.stays hv he hk', hedir, hename, hpath⟩
  · intro q m hm
    rcases h.order_origin hv hm with ⟨_, ho⟩ | ⟨k, a, ha, ho, _⟩
    · rw [ho]
      exact Nat.lt_succ_self _
    · rw [ho]
      exact Nat.lt_succ_of_lt (hv.order_lt ha)
  · intro q q' m m' hm hm' he
    rcases h.order_origin hv hm with ⟨hq, ho⟩ | ⟨k, a, ha, ho, hq⟩
    · rcases h.order_origin hv hm' with ⟨hq', _⟩ | ⟨k', a', ha', ho', _⟩
      · rw [hq, hq']
      · have hlt := hv.order_lt ha'
        omega
    · have hlt := hv.order_lt ha
      rcases h.order_origin hv hm' with ⟨_, ho'⟩ | ⟨k', a', ha', ho', hq'⟩
      · omega
      · have hk : k = k' := hv.order_inj ha ha' (by rw [← ho, he, ho'])
        rw [hq, hq', hk]
  · obtain ⟨e, he, hedir, hepath⟩ := hv.directory
    by_cases hu : key.isUnder v.directory.key = true
    · obtain ⟨r, hr⟩ := Path.isUnder_iff.mp hu
      rw [← hr] at he
      obtain ⟨names, m, hm, hapath, hnames, hpath, hmdir⟩ := h.arrives hv he
      have hdirectory : (v.moved key n new).directory = new ++ names := by
        rw [moved, if_pos hu, ← hepath, hapath, Path.reroot, ← hv.length_path h.source,
          List.drop_left]
      rw [hdirectory]
      exact ⟨m, by rw [Path.key_append, hkey, hnames, hm], by rw [hmdir, hedir], hpath⟩
    · have hdirectory : (v.moved key n new).directory = v.directory := if_neg hu
      rw [hdirectory]
      exact ⟨e, h.stays hv he (fun hp => hu (Path.isUnder_iff.mpr hp)), hedir, hepath⟩
  · intro f hf
    obtain ⟨m, hm, hfile⟩ := hv.files f hf
    exact ⟨m, h.stays hv hm (not_isUnder_of_isOpen h.closed hf), hfile⟩

end Movable

end CardShell.Volume
